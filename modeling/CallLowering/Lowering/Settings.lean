import CallLowering.Check.Config
import CallLowering.Placement.Target

/-! What lowering is told: the target, the struct layouts and the options. -/

namespace CallLowering

inductive OptLevel where
  -- arguments are scheduled in order and struct copies are never shared
  | minimal
  | full
deriving DecidableEq, Repr, Inhabited

structure Options where
  optLevel : OptLevel := .full
  -- range and overflow checks keep their position relative to stack arguments
  debugCode : Bool := false
  -- dispatch is checked by the control-flow guard where the target has one
  guardDispatch : Bool := false
  checkLevel : CheckLevel := .standard
deriving DecidableEq, Repr

structure Settings where
  target : Target
  types : TypeTable := {}
  options : Options := {}

namespace Settings

def pointerSize (settings : Settings) : Nat := settings.target.pointerSize

def sharesCopies (settings : Settings) : Bool := settings.options.optLevel == .full

end Settings

end CallLowering
