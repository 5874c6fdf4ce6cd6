import CallLowering.Placement.Allocation

/-!
32-bit ARM with hardware floats: four core registers and sixteen single-precision ones. A double takes an
aligned pair of singles and is named by the first.
-/

namespace CallLowering.Arm32

-- The single-precision registers. Once a float went to the stack, later ones may not fill gaps.
structure Singles where
  taken : List Nat := []
  closed : Bool := false
deriving DecidableEq, Repr

namespace Singles

def count : Nat := 16

def isFree (singles : Singles) (start span : Nat) : Bool :=
  (List.range' start span).all fun single => !singles.taken.contains single

-- The first multiple of `width` at which `span` singles are free.
def firstFree (singles : Singles) (span width : Nat) : Option Nat :=
  (List.range (count + 1)).find? fun start =>
    start % width = 0 && start + span ≤ count && singles.isFree start span

def take (singles : Singles) (members width : Nat) : Option Nat × Singles :=
  if singles.closed then (none, singles)
  else
    match singles.firstFree (members * width) width with
    | some start =>
      (some start, { singles with taken := List.range' start (members * width) ++ singles.taken })
    | none => (none, { singles with closed := true })

end Singles

structure State where
  core : RegSequence := { regs := (List.range 4).map Reg.int }
  singles : Singles := {}
  stack : StackArea := {}
deriving DecidableEq, Repr

def structAlign (layout : Layout) : Nat :=
  if layout.fields.any fun field => field.ty == .i64 || field.ty == .f64 then 8 else 4

def memberWidth (member : ValueType) : Nat := if member == .f64 then 2 else 1

-- Fields of `width` words each take consecutive singles or go to the stack.
def placeFloats (state : State) (fields : List Field) (width size : Nat) : Except Stop (Placement × State) := do
  match state.singles.take fields.length width with
  | (some start, singles) =>
    let segments := fields.zipIdx.map fun (field, index) =>
      (⟨.reg (.float (start + index * width)), field.offset, width * 4⟩ : Segment)
    pure ({ segments }, { state with singles })
  | (none, singles) =>
    let (placement, stack) ← state.stack.put size 4 (width * 4)
    pure (placement, { state with singles, stack })

-- What is aligned to eight bytes starts at an even register.
def usable (core : RegSequence) (align : Nat) : RegSequence := if align = 8 then core.alignEven else core

def viaCore (state : State) (align : Nat)
    (pass : RegSequence → StackArea → Except Stop (Placement × RegSequence × StackArea)) :
    Except Stop (Placement × State) := do
  let (placement, core, stack) ← pass (usable state.core align) state.stack
  pure (placement, { state with core, stack })

-- Floats of a varargs call are placed like integers. A struct is split only as long as the stack is unused.
def place (isVarargs : Bool) (state : State) (arg : ArgShape) :
    Except Stop (Placement × State) := do
  let size ← arg.size 4
  match arg.layout with
  | some layout =>
    match isVarargs, layout.floatAggregate with
    | false, some member => placeFloats state layout.fields (memberWidth member) layout.size
    | _, _ =>
      let align := structAlign layout
      viaCore state align
        (passPieces (chunkCount size 4) (.inRegs · (chunks size 4)) (!state.stack.isUsed) size 4 align)
  | none =>
    if arg.ty.isFloat && !isVarargs then placeFloats state [⟨0, arg.ty⟩] (memberWidth arg.ty) size
    else if size = 8 then viaCore state 8 (passPieces 2 (.inRegs · (chunks 8 4)) false 8 4 8)
    else viaCore state 4 (passWord size 4)

def classify (call : CallShape) (args : List ArgShape) : Except Stop Classification := do
  let (placements, state) ← placeAll (place call.isVarargs) {} args
  pure { placements, stackSize := ← state.stack.size 8 }

end CallLowering.Arm32
