import CallLowering.Lowering.Step

/-! Transformations that lowering applies to an argument's value once its parts are lowered. -/

namespace CallLowering

-- Gives the node that takes the place of a value, also in view of the values it was given before.
abbrev Transform := Array NodeId → NodeId → Attempt NodeId

namespace Transform

open Edit

def identity : Transform := fun _ id => pure id

def foldSums : Transform := fun _ id => do
  let data ← node id
  match data.kind with
  | .binary .add lhs rhs =>
    match (← node lhs).kind, (← node rhs).kind with
    | .intConst a, .intConst b => addNode (.intConst (a + b)) data.ty
    | _, _ => pure id
  | _ => pure id

end Transform

end CallLowering
