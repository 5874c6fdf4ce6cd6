/-! How thoroughly lowered calls are checked. -/

namespace CallLowering

inductive CheckLevel where
  | fast
  | standard
  | full
deriving DecidableEq, Repr, Inhabited

structure CheckConfig where
  level : CheckLevel
  -- most diagnostics in a report; 0 is no limit
  cap : Nat
  lateOrder : Bool
  placements : Bool
  temps : Bool
  unlowered : Bool
deriving DecidableEq, Repr

namespace CheckConfig

def ofLevel : CheckLevel → CheckConfig
  | .fast => ⟨.fast, 200, false, false, false, false⟩
  | .standard => ⟨.standard, 200, true, true, false, false⟩
  | .full => ⟨.full, 500, true, true, true, true⟩

-- The full level checks everything, whatever the single switches say.
def checksLateOrder (config : CheckConfig) : Bool := config.lateOrder || config.level == .full

def checksPlacements (config : CheckConfig) : Bool := config.placements || config.level == .full

def checksTemps (config : CheckConfig) : Bool := config.temps || config.level == .full

end CheckConfig

end CallLowering
