/-! What evaluating a subtree may do, and which exceptions it may raise. -/

namespace CallLowering

structure Effects where
  assigns : Bool := false
  calls : Bool := false
  raises : Bool := false
  -- reads memory that another subtree may write
  readsGlobal : Bool := false
  -- must keep its position for some other reason
  ordered : Bool := false
deriving DecidableEq, Repr, Inhabited

namespace Effects

def none : Effects := {}

def union (a b : Effects) : Effects where
  assigns := a.assigns || b.assigns
  calls := a.calls || b.calls
  raises := a.raises || b.raises
  readsGlobal := a.readsGlobal || b.readsGlobal
  ordered := a.ordered || b.ordered

def isPersistent (effects : Effects) : Bool := effects.assigns || effects.calls

def isSideEffect (effects : Effects) : Bool := effects.isPersistent || effects.raises

def isGlobal (effects : Effects) : Bool := effects.isSideEffect || effects.readsGlobal

def isAny (effects : Effects) : Bool := effects.isGlobal || effects.ordered

def bits (effects : Effects) : Nat :=
  effects.assigns.toNat + 2 * effects.calls.toNat + 4 * effects.raises.toNat
    + 8 * effects.readsGlobal.toNat + 16 * effects.ordered.toNat

end Effects

structure Exceptions where
  nullReference : Bool := false
  indexOutOfRange : Bool := false
  overflow : Bool := false
  divideByZero : Bool := false
  stackOverflow : Bool := false
  unknown : Bool := false
deriving DecidableEq, Repr, Inhabited

namespace Exceptions

def none : Exceptions := {}

def union (a b : Exceptions) : Exceptions where
  nullReference := a.nullReference || b.nullReference
  indexOutOfRange := a.indexOutOfRange || b.indexOutOfRange
  overflow := a.overflow || b.overflow
  divideByZero := a.divideByZero || b.divideByZero
  stackOverflow := a.stackOverflow || b.stackOverflow
  unknown := a.unknown || b.unknown

def isEmpty (exceptions : Exceptions) : Bool := exceptions == none

def bits (exceptions : Exceptions) : Nat :=
  exceptions.nullReference.toNat + 2 * exceptions.indexOutOfRange.toNat
    + 4 * exceptions.overflow.toNat + 8 * exceptions.divideByZero.toNat
    + 16 * exceptions.stackOverflow.toNat + 32 * exceptions.unknown.toNat

-- One known kind alone. Two subtrees with the same such set raise exceptions that cannot be told
-- apart.
def isSingleKind (exceptions : Exceptions) : Bool :=
  !exceptions.unknown
    && exceptions.nullReference.toNat + exceptions.indexOutOfRange.toNat
      + exceptions.overflow.toNat + exceptions.divideByZero.toNat
      + exceptions.stackOverflow.toNat == 1

end Exceptions

structure Impact where
  effects : Effects := {}
  exceptions : Exceptions := {}
deriving DecidableEq, Repr, Inhabited

namespace Impact

def none : Impact := {}

def union (a b : Impact) : Impact where
  effects := a.effects.union b.effects
  exceptions := a.exceptions.union b.exceptions

-- A subtree that may raise something says so among its effects.
def closed (impact : Impact) : Impact :=
  if impact.exceptions.isEmpty then impact
  else { impact with effects := { impact.effects with raises := true } }

end Impact

end CallLowering
