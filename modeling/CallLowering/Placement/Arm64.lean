import CallLowering.Placement.Allocation

/-!
64-bit ARM. Homogeneous float aggregates take consecutive vector registers, other structs of up to 16 bytes one
or two integer registers, and larger structs go by reference.
-/

namespace CallLowering.Arm64

structure State where
  ints : RegSequence := { regs := (List.range 8).map Reg.int }
  floats : RegSequence := { regs := (List.range 8).map Reg.float }
  stack : StackArea := {}
deriving DecidableEq, Repr

section Banks

variable (state : State) (pass : RegSequence → StackArea → Except Stop (Placement × RegSequence × StackArea))

def viaInts : Except Stop (Placement × State) := do
  let (placement, ints, stack) ← pass state.ints state.stack
  pure (placement, { state with ints, stack })

def viaFloats : Except Stop (Placement × State) := do
  let (placement, floats, stack) ← pass state.floats state.stack
  pure (placement, { state with floats, stack })

end Banks

def fieldChunk (field : Field) : Chunk := ⟨field.offset, (field.ty.scalarSize 8).getD 0⟩

-- Only the structs of a Windows varargs call are split.
def place (winVarargs : Bool) (state : State) (arg : ArgShape) :
    Except Stop (Placement × State) := do
  let size ← arg.size 8
  match arg.layout with
  | some layout =>
    if !winVarargs && layout.floatAggregate.isSome then
      viaFloats state (passPieces layout.fields.length (.inRegs · (layout.fields.map fieldChunk)) false size 8 8)
    else if size > 16 then
      let (pointer, state) ← viaInts state (passWord 8 8)
      pure ({ pointer with byRef := true }, state)
    else viaInts state (passPieces (chunkCount size 8) (.inRegs · (chunks size 8)) winVarargs size 8 8)
  | none =>
    if arg.ty.isFloat && !winVarargs then viaFloats state (passWord size 8)
    else viaInts state (passWord size 8)

def classify (isWindows : Bool) (call : CallShape) (args : List ArgShape) :
    Except Stop Classification := do
  let (placements, state) ← placeAll (place (isWindows && call.isVarargs)) {} args
  pure { placements, stackSize := ← state.stack.size 8 }

end CallLowering.Arm64
