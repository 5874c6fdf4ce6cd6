import CallLowering.Lowering.Step

/-! Nested scopes with the struct copies taken in them, and the trace of running through them. -/

namespace CallLowering

inductive CopyUse where
  | take (ty : ValueType)
  | scope (uses : List CopyUse)

-- Each event tells the nesting depth and the number of free locals right after it.
inductive CopyEvent where
  | opened (depth available : Nat)
  | taken (var : LocalId) (depth available : Nat)
  | closed (depth available : Nat)
deriving DecidableEq, Repr

structure CopyTrace where
  state : LoweringState
  events : Array CopyEvent := #[]

abbrev Tracing := EStateM Stop CopyTrace

namespace Tracing

def record (event : CopyPool → CopyEvent) : Tracing Unit :=
  modify fun trace => { trace with events := trace.events.push (event trace.state.pool) }

def changePool (change : CopyPool → CopyPool) : Tracing Unit :=
  modify fun trace => { trace with state := { trace.state with pool := change trace.state.pool } }

def step {α : Type} (step : Step α) : Tracing α := fun trace =>
  match step trace.state with
  | .ok result state => .ok result { trace with state }
  | .error stop state => .error stop { trace with state }

end Tracing

open Tracing

mutual

def CopyUse.run (settings : Settings) : CopyUse → Tracing Unit
  | .take ty => do
    let ty ← ty.check
    let var ← step (Step.structCopy settings ty)
    record fun pool => .taken var pool.depth pool.available.size
  | .scope uses => do
    changePool CopyPool.openScope
    record fun pool => .opened pool.depth pool.available.size
    CopyUse.runAll settings uses
    changePool CopyPool.closeScope
    record fun pool => .closed pool.depth pool.available.size

def CopyUse.runAll (settings : Settings) : List CopyUse → Tracing Unit
  | [] => pure ()
  | use :: rest => do
    CopyUse.run settings use
    CopyUse.runAll settings rest

end

end CallLowering
