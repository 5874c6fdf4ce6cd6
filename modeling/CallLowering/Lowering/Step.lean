import CallLowering.Graph.Edit
import CallLowering.Lowering.CopyPool
import CallLowering.Lowering.Settings

/-!
The steps that lowering is made of. An attempt works on a procedure and may be refused; a step works
on the whole state of lowering. Both keep what was done before a refusal.
-/

namespace CallLowering

abbrev Attempt := EStateM Stop Procedure

structure LoweringState where
  proc : Procedure
  pool : CopyPool := {}
  -- the nodes handed to the transformation, in order
  visits : Array NodeId := #[]

abbrev Step := EStateM Stop LoweringState

instance {σ : Type} : MonadLift (Except Fault) (EStateM Stop σ) where
  monadLift
    | .ok result => pure result
    | .error fault => throw (.fault fault)

instance {σ : Type} : MonadLift (Except Stop) (EStateM Stop σ) where
  monadLift
    | .ok result => pure result
    | .error stop => throw stop

instance : MonadLift Edit Attempt where
  monadLift edit := fun proc =>
    match edit proc with
    | .ok result proc => .ok result proc
    | .error fault proc => .error (.fault fault) proc

instance : MonadLift Attempt Step where
  monadLift attempt := fun ⟨proc, pool, visits⟩ =>
    match attempt proc with
    | .ok result proc => .ok result ⟨proc, pool, visits⟩
    | .error stop proc => .error stop ⟨proc, pool, visits⟩

def refuse {σ α : Type} (call : CallId) (reason : Inconsistency) : EStateM Stop σ α :=
  throw (.refusal (.inconsistent call reason))

namespace Step

-- Runs a step in a scope of its own; the scope closes however the step ends.
def inScope {α : Type} (step : Step α) : Step α := fun state =>
  match step { state with pool := state.pool.openScope } with
  | .ok result state => .ok result { state with pool := state.pool.closeScope }
  | .error stop state => .error stop { state with pool := state.pool.closeScope }

-- Gives a copy to the innermost scope.
def keep (state : LoweringState) (var : LocalId) : EStateM.Result Stop LoweringState LocalId :=
  match state.pool.hold? var with
  | some pool => .ok var { state with pool }
  | none => .error (.fault .copyOutsideScope) state

-- The local for an outgoing copy of a struct: a free one of the same type if copies are shared, and
-- otherwise a new one.
def structCopy (settings : Settings) (ty : ValueType) : Step LocalId := fun state =>
  let accept (var : LocalId) : Bool := state.proc.locals[var]?.any fun data => data.ty == ty
  match if settings.sharesCopies then state.pool.reuse? accept else none with
  | some (var, pool) => keep { state with pool } var
  | none =>
    let (var, proc) := state.proc.addLocal { ty, kind := .structCopy }
    keep { state with proc } var

end Step

end CallLowering
