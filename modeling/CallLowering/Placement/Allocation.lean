import CallLowering.Graph.Call
import CallLowering.Refusal
import CallLowering.Types.Layout

/-! Handing out registers and stack slots. -/

namespace CallLowering

structure CallShape where
  convention : Convention := .managed
  isVarargs : Bool := false
  hasThis : Bool := false
  hasReturnBuffer : Bool := false
deriving DecidableEq, Repr

structure ArgShape where
  ty : ValueType
  layout : Option Layout := none
  role : ArgRole := .ordinary
deriving DecidableEq, Repr

def ArgShape.size (arg : ArgShape) (pointerSize : Nat) : Except Stop Nat :=
  match arg.ty, arg.layout with
  | .struct _, some layout => .ok layout.size
  | .struct _, none => .error (.refusal (.unplaceable (.noLayout arg.role arg.ty)))
  | .void, _ => .error (.refusal (.unplaceable (.voidArgument arg.role)))
  | ty, _ => .ok ((ty.scalarSize pointerSize).getD 0)

structure Classification where
  placements : List Placement
  stackSize : Nat
deriving DecidableEq, Repr

def placeAll {σ : Type} (place : σ → ArgShape → Except Stop (Placement × σ)) :
    σ → List ArgShape → Except Stop (List Placement × σ)
  | state, [] => .ok ([], state)
  | state, arg :: rest => do
    let (placement, next) ← place state arg
    let (placements, last) ← placeAll place next rest
    pure (placement :: placements, last)

-- The element at an index that the list must have.
def elementAt {α : Type} (items : List α) (index : Nat) : Except Fault α :=
  match items[index]? with
  | some item => .ok item
  | none => .error .outOfBounds

-- The elements from `start` to `stop`, which must be positions of the list in this order.
def slice {α : Type} (items : List α) (start stop : Nat) : Except Fault (List α) :=
  if start ≤ stop ∧ stop ≤ items.length then .ok ((items.take stop).drop start)
  else .error .outOfBounds

-- Registers of one bank in the order in which they are used, and the position of the next one.
structure RegSequence where
  regs : List Reg
  next : Nat := 0
deriving DecidableEq, Repr

namespace RegSequence

def remaining (seq : RegSequence) : Except Fault Nat :=
  if seq.next ≤ seq.regs.length then .ok (seq.regs.length - seq.next) else .error .underflow

def has (seq : RegSequence) (count : Nat) : Except Fault Bool := do
  pure (count ≤ (← seq.remaining))

def pop (seq : RegSequence) : Option Reg × RegSequence :=
  match seq.regs[seq.next]? with
  | some reg => (some reg, { seq with next := seq.next + 1 })
  | none => (none, seq)

-- Takes `count` registers if that many are left, and none otherwise.
def take (seq : RegSequence) (count : Nat) : Except Fault (Option (List Reg) × RegSequence) := do
  if (← seq.remaining) < count then pure (none, seq)
  else
    let regs ← slice seq.regs seq.next (seq.next + count)
    pure (some regs, { seq with next := seq.next + count })

def exhaust (seq : RegSequence) : RegSequence := { seq with next := seq.regs.length }

-- Skips to an even position.
def alignEven (seq : RegSequence) : RegSequence :=
  { seq with next := min (roundUp seq.next 2) seq.regs.length }

end RegSequence

-- The outgoing stack area, filled from `next` upwards.
structure StackArea where
  next : Nat := 0
deriving DecidableEq, Repr

namespace StackArea

def alloc (area : StackArea) (size slot align : Nat) : Except Fault (Nat × StackArea) := do
  let offset ← Word.roundUp area.next align
  let padded ← Word.roundUp size slot
  let next ← Word.add offset padded
  pure (offset, ⟨next⟩)

def isUsed (area : StackArea) : Bool := area.next > 0

def size (area : StackArea) (align : Nat) : Except Fault Nat := Word.roundUp area.next align

def put (area : StackArea) (size slot align : Nat) : Except Fault (Placement × StackArea) := do
  let (offset, area) ← area.alloc size slot align
  pure (.onStack offset size, area)

end StackArea

structure Chunk where
  offset : Nat
  len : Nat
deriving DecidableEq, Repr

def chunkCount (size unit : Nat) : Nat := (size + (unit - 1)) / unit

-- Cuts `size` bytes into chunks of `unit` bytes, the last of which may be shorter.
def chunks (size unit : Nat) : List Chunk :=
  (List.range (chunkCount size unit)).map fun index =>
    ⟨index * unit, min unit (size - index * unit)⟩

def Placement.inRegs (regs : List Reg) (pieces : List Chunk) : Placement where
  segments := List.zipWith (fun reg piece => ⟨.reg reg, piece.offset, piece.len⟩) regs pieces

-- Puts chunk after chunk in a register, from `index` on, up to the first one that finds none left.
def fillRegs (size unit : Nat) : Nat → Nat → RegSequence → List Segment × Option Nat × RegSequence
  | 0, _, regs => ([], none, regs)
  | count + 1, index, regs =>
    match regs.pop with
    | (none, regs) => ([], some (index * unit), regs)
    | (some reg, regs) =>
      let (segments, stackPart, regs) := fillRegs size unit count (index + 1) regs
      (⟨.reg reg, index * unit, min unit (size - index * unit)⟩ :: segments, stackPart, regs)

-- Fills the registers that are left with the leading chunks of an argument and puts the rest on the stack.
def splitArg (regs : RegSequence) (area : StackArea) (size unit align : Nat) :
    Except Stop (Placement × RegSequence × StackArea) := do
  let (segments, stackPart, regs) := fillRegs size unit (chunkCount size unit) 0 regs
  match stackPart with
  | none => .error (.refusal (.unplaceable (.splitFits size)))
  | some start =>
    let left := size - start
    let (offset, area) ← area.alloc left unit align
    pure ({ segments := segments ++ [⟨.stack offset, start, left⟩] }, regs, area)

-- The next register, or the stack when none is left.
def passWord (size unit : Nat) (regs : RegSequence) (area : StackArea) :
    Except Stop (Placement × RegSequence × StackArea) := do
  match regs.pop with
  | (some reg, regs) => pure (.inReg reg size, regs, area)
  | (none, regs) =>
    let (placement, area) ← area.put size unit unit
    pure (placement, regs, area)

-- So many registers. Without enough of them the argument is split, where that is allowed and any register is
-- left, or goes to the stack and uses the registers up.
def passPieces (count : Nat) (inRegs : List Reg → Placement) (splits : Bool) (size unit align : Nat)
    (regs : RegSequence) (area : StackArea) : Except Stop (Placement × RegSequence × StackArea) := do
  match ← regs.take count with
  | (some taken, regs) => pure (inRegs taken, regs, area)
  | (none, regs) =>
    if ← regs.has 1 <&&> pure splits then splitArg regs area size unit align
    else
      let (placement, area) ← area.put size unit align
      pure (placement, regs.exhaust, area)

end CallLowering
