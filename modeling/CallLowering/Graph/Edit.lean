import CallLowering.Graph.Procedure

/-! Edits: steps that change a procedure and may fault on the way. -/

namespace CallLowering

abbrev Edit := EStateM Fault Procedure

namespace Edit

def ask {α : Type} (question : Procedure → Except Fault α) : Edit α := fun proc =>
  match question proc with
  | .ok answer => .ok answer proc
  | .error fault => .error fault proc

def change (step : Procedure → Except Fault Procedure) : Edit Unit := fun proc =>
  match step proc with
  | .ok changed => .ok () changed
  | .error fault => .error fault proc

def node (id : NodeId) : Edit Node := ask fun proc => proc.node id

def call (id : CallId) : Edit Call := ask fun proc => proc.call id

def addNode (kind : NodeKind) (ty : ValueType) : Edit NodeId := do
  let impact ← ask fun proc => proc.impactOf kind
  let id := (← get).nodes.size
  modify fun proc => (proc.pushNode { kind, ty, impact }).noteKind kind
  pure id

def addLocal (var : LocalVar) : Edit LocalId := fun proc =>
  let (id, changed) := proc.addLocal var
  .ok id changed

def addCall (call : Call) : Edit CallId := fun proc =>
  let (id, changed) := proc.addCall call
  .ok id changed

def replaceNode (id : NodeId) (kind : NodeKind) (ty : ValueType) : Edit Unit := do
  let impact ← ask fun proc => proc.impactOf kind
  let _ ← node id
  modify fun proc => (proc.setNode id { kind, ty, impact }).noteKind kind

def refreshNode (id : NodeId) : Edit Unit := do
  let data ← node id
  let impact ← ask fun proc => proc.impactOf data.kind
  modify fun proc => proc.setNode id { data with impact }

def modifyCall (id : CallId) (step : Call → Call) : Edit Unit := do
  let data ← call id
  modify fun proc => proc.setCall id (step data)

def modifyArgs (id : CallId) (step : ArgList → Except Fault ArgList) : Edit Unit := do
  let data ← call id
  let args ← ask fun _ => step data.args
  modify fun proc => proc.setCall id { data with args }

def arg (id : CallId) (index : Nat) : Edit Argument :=
  ask fun proc => do (← proc.call id).args.arg index

def modifyArg (id : CallId) (index : Nat) (step : Argument → Argument) : Edit Unit :=
  modifyArgs id fun list => do
    let _ ← list.arg index
    pure (list.modifyArg index step)

-- Kinds without children that may be evaluated twice.
def isSimpleLeaf : NodeKind → Bool
  | .intConst _ | .floatConst _ | .readLocal _ | .readField _ _ | .localAddr _ => true
  | _ => false

def cloneWithin : Nat → NodeId → Edit (Option NodeId)
  | 0, _ => throw .tooDeep
  | depth + 1, id => do
    let source ← node id
    match source.kind with
    | .binary op lhs rhs =>
      if op.exceptions.isEmpty then
        let some lhsCopy ← cloneWithin depth lhs | pure none
        let some rhsCopy ← cloneWithin depth rhs | pure none
        let copy ← addNode (.binary op lhsCopy rhsCopy) source.ty
        pure (some copy)
      else pure none
    | kind =>
      if isSimpleLeaf kind then
        let copy ← addNode kind source.ty
        pure (some copy)
      else pure none

-- Duplicates a tree of constants, local reads, local addresses and arithmetic that cannot raise.
-- Anything else gives no copy, though the parts copied before it was met stay in the procedure.
def cloneSimple (id : NodeId) : Edit (Option NodeId) := do
  cloneWithin ((← get).nodes.size + 1) id

end Edit

end CallLowering
