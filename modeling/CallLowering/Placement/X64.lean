import CallLowering.Placement.Allocation

/-! The two conventions of x86-64. -/

namespace CallLowering

namespace SystemV

-- Registers of the two banks are used independently of each other.
structure State where
  ints : RegSequence := { regs := [.int 7, .int 6, .int 2, .int 1, .int 8, .int 9] }
  floats : RegSequence := { regs := (List.range 8).map Reg.float }
  stack : StackArea := {}
deriving DecidableEq, Repr

def State.pop (state : State) (float : Bool) : Option Reg × State :=
  if float then
    let (reg, floats) := state.floats.pop
    (reg, { state with floats })
  else
    let (reg, ints) := state.ints.pop
    (reg, { state with ints })

-- Eight bytes of a struct, and whether they hold nothing but floats.
structure Eightbyte where
  piece : Chunk
  float : Bool
deriving DecidableEq, Repr

def eightbytes (layout : Layout) (size : Nat) : Except Fault (List Eightbyte) :=
  (chunks size 8).mapM fun piece => do
    pure ⟨piece, ← layout.isFloatRange piece.offset piece.len⟩

def takeEightbytes : State → List Eightbyte → Except Stop (List Segment × State)
  | state, [] => .ok ([], state)
  | state, part :: rest =>
    match state.pop part.float with
    | (none, _) => .error (.refusal (.unplaceable .registersExhausted))
    | (some reg, state) => do
      let (segments, state) ← takeEightbytes state rest
      pure (⟨.reg reg, part.piece.offset, part.piece.len⟩ :: segments, state)

def onStack (state : State) (size : Nat) : Except Stop (Placement × State) := do
  let (placement, stack) ← state.stack.put size 8 8
  pure (placement, { state with stack })

-- Structs of up to 16 bytes go entirely in registers or entirely on the stack.
def place (state : State) (arg : ArgShape) : Except Stop (Placement × State) := do
  let size ← arg.size 8
  match arg.layout with
  | some layout =>
    if size ≤ 16 then
      let parts ← eightbytes layout size
      let floats := parts.countP Eightbyte.float
      if ← state.ints.has (parts.length - floats) <&&> state.floats.has floats then
        let (segments, state) ← takeEightbytes state parts
        pure ({ segments }, state)
      else onStack state size
    else onStack state size
  | none =>
    match state.pop arg.ty.isFloat with
    | (some reg, state) => pure (.inReg reg size, state)
    | (none, state) => onStack state size

def classify (_ : CallShape) (args : List ArgShape) : Except Stop Classification := do
  let (placements, state) ← placeAll place {} args
  pure { placements, stackSize := ← state.stack.size 8 }

end SystemV

namespace WindowsX64

-- Each of the first four arguments has a register of its own in both banks.
def intArgs : List Reg := [.int 1, .int 2, .int 8, .int 9]

def floatArgs : List Reg := (List.range 4).map Reg.float

-- The callee may save the register arguments in the 32 bytes below the stack arguments.
def homeArea : Nat := 32

structure State where
  slot : Nat := 0
  stack : StackArea := ⟨homeArea⟩
deriving DecidableEq, Repr

-- Structs of other sizes are passed by reference.
def fitsRegister (size : Nat) : Bool := size == 1 || size == 2 || size == 4 || size == 8

-- Floats of a varargs call travel in the integer registers.
def place (isVarargs : Bool) (state : State) (arg : ArgShape) :
    Except Stop (Placement × State) := do
  let size ← arg.size 8
  let byRef := arg.layout.isSome && !fitsRegister size
  let passSize := if byRef then 8 else size
  let slot := state.slot + 1
  if state.slot < intArgs.length then
    let reg ← elementAt (if arg.ty.isFloat && !isVarargs then floatArgs else intArgs) state.slot
    pure ({ Placement.inReg reg passSize with byRef }, { state with slot })
  else
    let (offset, stack) ← state.stack.alloc 8 8 8
    pure ({ Placement.onStack offset passSize with byRef }, { slot, stack })

def classify (call : CallShape) (args : List ArgShape) : Except Stop Classification := do
  let (placements, state) ← placeAll (place call.isVarargs) {} args
  pure { placements, stackSize := ← state.stack.size 8 }

end WindowsX64

end CallLowering
