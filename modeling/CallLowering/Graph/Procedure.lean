import CallLowering.Graph.Call
import CallLowering.Graph.Node
import CallLowering.Types.Layout

/-!
A procedure: the nodes, locals and calls that its statements are made of, each named by its
position. New ones go to the end, so an identity stays good for the procedure's whole life.
-/

namespace CallLowering

inductive LocalKind where
  | user
  -- holds an argument from its evaluation to the call
  | argTemp
  -- holds an outgoing copy of a struct and is shared between call sites
  | structCopy
deriving DecidableEq, Repr

def LocalKind.text : LocalKind → String
  | .user => "user"
  | .argTemp => "arg_temp"
  | .structCopy => "struct_copy"

structure LocalVar where
  ty : ValueType
  kind : LocalKind := .user
  -- a store through memory may write the local
  exposed : Bool := false
deriving DecidableEq, Repr

def LocalVar.isTemp (var : LocalVar) : Bool := var.kind != .user

structure Procedure where
  name : String
  nodes : Array Node := #[]
  locals : Array LocalVar := #[]
  calls : Array Call := #[]
  statements : List NodeId := []
  allocatesStack : Bool := false
deriving DecidableEq, Repr

namespace Procedure

def node (proc : Procedure) (id : NodeId) : Except Fault Node :=
  match proc.nodes[id]? with
  | some node => .ok node
  | none => .error (.unknownNode id)

def localVar (proc : Procedure) (id : LocalId) : Except Fault LocalVar :=
  match proc.locals[id]? with
  | some var => .ok var
  | none => .error (.unknownLocal id)

def call (proc : Procedure) (id : CallId) : Except Fault Call :=
  match proc.calls[id]? with
  | some call => .ok call
  | none => .error (.unknownCall id)

def references (proc : Procedure) : NodeKind → Except Fault (List NodeId)
  | .call id => do pure (← proc.call id).references
  | kind => .ok kind.children

def evaluated (proc : Procedure) : NodeKind → Except Fault (List NodeId)
  | .call id => do (← proc.call id).evaluated
  | kind => .ok kind.children

def impactOfAll (proc : Procedure) (ids : List NodeId) : Except Fault Impact :=
  ids.foldlM (fun impact id => do pure (impact.union (← proc.node id).impact)) Impact.none

-- Dividing by a constant other than 0 and -1 cannot fault.
def isSafeDivisor : NodeKind → Bool
  | .intConst value => value != 0 && value != -1
  | _ => false

-- What a node of this kind does by itself, apart from the nodes it refers to.
def ownImpact (proc : Procedure) : NodeKind → Except Fault Impact
  | .readLocal var | .readField var _ => do
    pure { effects := { readsGlobal := (← proc.localVar var).exposed } }
  | .load _ nonFaulting =>
    pure { effects := { readsGlobal := true }, exceptions := { nullReference := !nonFaulting } }
  | .storeLocal var _ => do
    pure { effects := { assigns := true, readsGlobal := (← proc.localVar var).exposed } }
  | .storeInd _ _ =>
    pure { effects := { assigns := true, readsGlobal := true },
           exceptions := { nullReference := true } }
  | .binary op _ rhs => do
    let divisor ← proc.node rhs
    pure { exceptions :=
      if isSafeDivisor divisor.kind then { op.exceptions with divideByZero := false }
      else op.exceptions }
  | .boundsCheck _ _ => pure { exceptions := { indexOutOfRange := true } }
  | .stackAlloc _ =>
    pure { effects := { ordered := true }, exceptions := { stackOverflow := true } }
  | .call _ =>
    pure { effects := { calls := true, readsGlobal := true }, exceptions := { unknown := true } }
  | _ => pure Impact.none

def impactOf (proc : Procedure) (kind : NodeKind) : Except Fault Impact := do
  let below ← proc.impactOfAll (← proc.references kind)
  let own ← proc.ownImpact kind
  pure (below.union own).closed

def noteKind (proc : Procedure) (kind : NodeKind) : Procedure :=
  { proc with allocatesStack := proc.allocatesStack || kind.isStackAlloc }

def pushNode (proc : Procedure) (node : Node) : Procedure :=
  { proc with nodes := proc.nodes.push node }

def setNode (proc : Procedure) (id : NodeId) (node : Node) : Procedure :=
  { proc with nodes := proc.nodes.setIfInBounds id node }

def addLocal (proc : Procedure) (var : LocalVar) : LocalId × Procedure :=
  (proc.locals.size, { proc with locals := proc.locals.push var })

def addCall (proc : Procedure) (call : Call) : CallId × Procedure :=
  (proc.calls.size, { proc with calls := proc.calls.push call })

def addStatement (proc : Procedure) (id : NodeId) : Procedure :=
  { proc with statements := proc.statements ++ [id] }

def setCall (proc : Procedure) (id : CallId) (call : Call) : Procedure :=
  { proc with calls := proc.calls.setIfInBounds id call }

-- Puts `new` wherever the node has `old` as a child. The cached impact stays as it is.
def swapChild (proc : Procedure) (id old new : NodeId) : Except Fault Procedure := do
  let node ← proc.node id
  let kind := node.kind.mapChildren fun child => if child = old then new else child
  pure (proc.setNode id { node with kind })

def setExposed (proc : Procedure) (id : LocalId) (exposed : Bool) : Except Fault Procedure := do
  let var ← proc.localVar id
  pure { proc with locals := proc.locals.setIfInBounds id { var with exposed } }

end Procedure

structure Program where
  types : TypeTable := {}
  procedures : Array Procedure := #[]

def Program.procedure (program : Program) (index : Nat) : Except Fault Procedure :=
  match program.procedures[index]? with
  | some proc => .ok proc
  | none => .error (.unknownProcedure index)

def Program.setProcedure (program : Program) (index : Nat) (proc : Procedure) : Program :=
  { program with procedures := program.procedures.setIfInBounds index proc }

end CallLowering
