import CallLowering.Fault
import CallLowering.StableSort

/-!
Where an argument travels: a placement is a list of segments, each a byte range of the argument with
the register or the slot of the outgoing stack area that holds it.
-/

namespace CallLowering

inductive RegBank where
  | int
  | float
deriving DecidableEq, Repr

structure Reg where
  bank : RegBank
  num : Nat
deriving DecidableEq, Repr

namespace Reg

def int (num : Nat) : Reg := ⟨.int, num⟩

def float (num : Nat) : Reg := ⟨.float, num⟩

def text (reg : Reg) : String :=
  match reg.bank with
  | .int => s!"r{reg.num}"
  | .float => s!"f{reg.num}"

end Reg

inductive Place where
  | reg (reg : Reg)
  | stack (offset : Nat)
deriving DecidableEq, Repr

-- `start` counts from the beginning of the argument.
structure Segment where
  place : Place
  start : Nat
  size : Nat
deriving DecidableEq, Repr

namespace Segment

def reg? (segment : Segment) : Option Reg :=
  match segment.place with
  | .reg reg => some reg
  | .stack _ => none

def stackOffset? (segment : Segment) : Option Nat :=
  match segment.place with
  | .reg _ => none
  | .stack offset => some offset

def isReg (segment : Segment) : Bool := segment.reg?.isSome

def isStack (segment : Segment) : Bool := segment.stackOffset?.isSome

def inFloatReg (segment : Segment) : Bool :=
  segment.reg?.any fun reg => reg.bank == .float

def text (segment : Segment) : String :=
  let place := match segment.place with
    | .reg reg => reg.text
    | .stack offset => s!"[sp+{offset}]"
  s!"{place}:{segment.size}@{segment.start}"

end Segment

-- By reference, the segments hold a pointer to a copy that the caller owns.
structure Placement where
  segments : List Segment := []
  byRef : Bool := false
deriving DecidableEq, Repr, Inhabited

namespace Placement

def single (segment : Segment) : Placement := { segments := [segment] }

def inReg (reg : Reg) (size : Nat) : Placement := single ⟨.reg reg, 0, size⟩

def onStack (offset size : Nat) : Placement := single ⟨.stack offset, 0, size⟩

def isEmpty (placement : Placement) : Bool := placement.segments.isEmpty

def hasReg (placement : Placement) : Bool := placement.segments.any Segment.isReg

def hasStack (placement : Placement) : Bool := placement.segments.any Segment.isStack

def isSplit (placement : Placement) : Bool := placement.hasReg && placement.hasStack

def isStackOnly (placement : Placement) : Bool := !placement.isEmpty && !placement.hasReg

def isMulti (placement : Placement) : Bool := placement.segments.length > 1

def regs (placement : Placement) : List Reg := placement.segments.filterMap Segment.reg?

-- The segments by their position in the argument; equal positions keep their order.
def byStart (placement : Placement) : List Segment :=
  stableSort (fun a b => a.start ≤ b.start) placement.segments

def stackEnd (placement : Placement) : Except Fault Nat := do
  let ends ← placement.segments.filterMapM fun segment =>
    match segment.place with
    | .reg _ => pure none
    | .stack offset => some <$> Word.add offset segment.size
  pure (ends.foldl max 0)

def text (placement : Placement) : String :=
  if placement.isEmpty then "<unplaced>"
  else
    let segments := " ".intercalate (placement.segments.map Segment.text)
    if placement.byRef then segments ++ " (byref)" else segments

end Placement

end CallLowering
