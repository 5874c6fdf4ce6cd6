import CallLowering.Check.Verifier
import CallLowering.Lowering.AbiInfo
import CallLowering.Lowering.Interference
import CallLowering.Lowering.Materialize
import CallLowering.Lowering.Schedule
import CallLowering.Lowering.Transform

/-! Lowering a procedure: a walk over its statements from the leaves up. -/

namespace CallLowering

namespace Lowering

def transformed (transform : Transform) (id : NodeId) : Step NodeId := do
  let earlier := (← get).visits
  modify fun state => { state with visits := state.visits.push id }
  transform earlier id

def lowerTarget (lower : NodeId → Step Unit) (id : CallId) : Step Unit := do
  match (← Edit.call id).target.node? with
  | some target => lower target
  | none => pure ()

-- Lowers one of the nodes of an argument and puts what comes of it in its place.
def lowerNode (read : Argument → Option NodeId) (write : NodeId → Argument → Argument) (transform : Transform)
    (lower : NodeId → Step Unit) (id : CallId) (index : Nat) : Step Unit := do
  match read (← Edit.arg id index) with
  | some node => do
    lower node
    let value ← transformed transform node
    Edit.modifyArg id index (write value)
  | none => pure ()

def lowerEarly : Transform → (NodeId → Step Unit) → CallId → Nat → Step Unit :=
  lowerNode Argument.early fun value arg => { arg with early := some value }

def lowerLate : Transform → (NodeId → Step Unit) → CallId → Nat → Step Unit :=
  lowerNode Argument.late fun value arg => { arg with late := some value }

def checkCall (settings : Settings) (id : CallId) : Attempt Unit := do
  let config := CheckConfig.ofLevel settings.options.checkLevel
  let report ← Edit.ask fun proc => proc.verifyCall config id
  if !report.isOk then throw (.refusal (.failedCheck id report))

def lowerCall (settings : Settings) (transform : Transform) (lower : NodeId → Step Unit)
    (id : CallId) : Step Unit := do
  if (← Edit.call id).args.stage.isCompleted then refuse id .completedNotMaterialized
  AbiInfo.finalize settings id
  lowerTarget lower id
  let count := (← Edit.call id).args.size
  (List.range count).forM (lowerEarly transform lower id)
  Shape.shapeArgs settings id
  Interference.complete settings id
  let order ← Schedule.schedule (Schedule.costModel settings) id
  Materialize.materialize settings id order
  checkCall settings id

def revisitCall (transform : Transform) (lower : NodeId → Step Unit) (id : CallId) : Step Unit := do
  lowerTarget lower id
  let order := (← Edit.call id).args.lateOrder
  order.forM (lowerLate transform lower id)

def visitCall (settings : Settings) (transform : Transform) (lower : NodeId → Step Unit)
    (id : CallId) : Step Unit :=
  Step.inScope do
    if (← Edit.call id).args.isMaterialized then revisitCall transform lower id
    else lowerCall settings transform lower id

-- Down to the calls of a tree, and back up from them.
def overTree (visit : CallId → Step Unit) : Nat → NodeId → Step Unit
  | 0, _ => throw (.fault .tooDeep)
  | depth + 1, id => do
    let data ← Edit.node id
    match data.kind with
    | .call call => visit call
    | kind => kind.children.forM (overTree visit depth)
    Edit.refreshNode id

-- The depth counts the calls on the way. From one to the next a path meets each node that is there
-- only once, and at its end it may come to a read that was made since.
def lowerTree (settings : Settings) (transform : Transform) : Nat → NodeId → Step Unit
  | 0, _ => throw (.fault .tooDeep)
  | depth + 1, id => do
    let size := (← get).proc.nodes.size
    overTree (visitCall settings transform (lowerTree settings transform depth)) (size + 2) id

-- A path leads through each call at most once.
def depthLimit (proc : Procedure) : Nat := proc.calls.size + 1

def lowerStatements (settings : Settings) (transform : Transform) : Step Unit := do
  let proc := (← get).proc
  proc.statements.forM (lowerTree settings transform (depthLimit proc))

structure Outcome where
  proc : Procedure
  visits : Array NodeId
  refusal : Option Refusal

end Lowering

open Lowering in
def Procedure.lower (proc : Procedure) (settings : Settings) (transform : Transform) :
    Except Fault Outcome :=
  match lowerStatements settings transform { proc } with
  | .ok () state => .ok ⟨state.proc, state.visits, none⟩
  | .error (.refusal refusal) state => .ok ⟨state.proc, state.visits, some refusal⟩
  | .error (.fault fault) _ => .error fault

-- Lowers the procedures one by one; a refusal in one does not stop the others. The refusals come
-- with the position of their procedure.
def Program.lower (program : Program) (target : Target) (options : Options) :
    Except Fault (List (Nat × Refusal) × Program) := do
  let settings : Settings := { target, types := program.types, options }
  let outcomes ← program.procedures.toList.mapM fun proc => proc.lower settings Transform.identity
  let refusals := outcomes.zipIdx.filterMap fun (outcome, index) =>
    outcome.refusal.map fun refusal => (index, refusal)
  pure (refusals, { program with procedures := (outcomes.map Lowering.Outcome.proc).toArray })

end CallLowering
