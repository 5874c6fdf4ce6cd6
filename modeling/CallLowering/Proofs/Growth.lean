import CallLowering.Proofs.Sequencing

/-! How a procedure grows under edits. -/

namespace CallLowering

variable {p q r : Procedure} {id : CallId} {data old : Call} {index : Nat} {nodes nodes' : NodeId → Prop}
  {kind : NodeKind} {ty : ValueType} {arg : Argument} {step : Argument → Argument} {calls' : CallId → Prop}
  {var : LocalVar} {copy : Option NodeId} {call : Call}

variable (proc : Procedure)

-- A field list may come to list other nodes; every other kind stays as it is.
def NodeKind.Kept (old new : NodeKind) : Prop :=
  old = new ∨ ∃ before after, old = .fieldList before ∧ new = .fieldList after
    ∧ before.length = after.length

theorem NodeKind.kept_trans (a : NodeKind) {b c : NodeKind} (first : a.Kept b) (second : b.Kept c) : a.Kept c := by
  rcases first with rfl | ⟨u, v, rfl, rfl, same⟩
  · exact second
  · rcases second with rfl | ⟨v', w, atV, rfl, same'⟩
    · exact .inr ⟨u, v, rfl, rfl, same⟩
    · cases atV
      exact .inr ⟨u, w, rfl, rfl, same.trans same'⟩

-- Nothing changed but the nodes in `nodes`, the calls in `calls`, and what is new.
structure Extends (nodes : NodeId → Prop) (calls : CallId → Prop) (p q : Procedure) : Prop where
  statements : q.statements = p.statements
  nodeKept : ∀ id : NodeId, id < p.nodes.size → ¬ nodes id → q.nodes[id]? = p.nodes[id]?
  kindKept : ∀ (id : NodeId) (node : Node), p.nodes[id]? = some node →
    ∃ now : Node, q.nodes[id]? = some now ∧ node.kind.Kept now.kind
  varKept : ∀ (id : LocalId) (var : LocalVar), p.locals[id]? = some var → q.locals[id]? = some var
  callKept : ∀ id : CallId, ¬ calls id → q.calls[id]? = p.calls[id]?
  callCount : q.calls.size = p.calls.size

namespace Extends

theorem refl {calls : CallId → Prop} : Extends nodes calls p p where
  statements := rfl
  nodeKept := fun _ _ _ => rfl
  kindKept := fun _ node here => ⟨node, here, .inl rfl⟩
  varKept := fun _ _ here => here
  callKept := fun _ _ => rfl
  callCount := rfl

theorem size_le {calls : CallId → Prop} (grown : Extends nodes calls p q) : p.nodes.size ≤ q.nodes.size := by
  by_contra short
  have bound : q.nodes.size < p.nodes.size := Nat.lt_of_not_le short
  obtain ⟨now, here, _⟩ := grown.kindKept q.nodes.size p.nodes[q.nodes.size]
    (Array.getElem?_eq_getElem bound)
  simp at here

theorem locals_le {calls : CallId → Prop} (grown : Extends nodes calls p q) : p.locals.size ≤ q.locals.size := by
  by_contra short
  have bound : q.locals.size < p.locals.size := Nat.lt_of_not_le short
  have here := grown.varKept q.locals.size p.locals[q.locals.size]
    (Array.getElem?_eq_getElem bound)
  simp at here

theorem trans {calls : CallId → Prop} (first : Extends nodes calls p q) (second : Extends nodes' calls' q r)
    (nodesIn : ∀ id, nodes' id → id < p.nodes.size → nodes id) (callsIn : ∀ id, calls' id → calls id) :
    Extends nodes calls p r where
  statements := second.statements.trans first.statements
  nodeKept := fun id bound outside =>
    (second.nodeKept id (Nat.lt_of_lt_of_le bound first.size_le)
      (fun mem => outside (nodesIn id mem bound))).trans (first.nodeKept id bound outside)
  kindKept := fun id node here => by
    obtain ⟨middle, atMiddle, kept⟩ := first.kindKept id node here
    obtain ⟨now, atEnd, kept'⟩ := second.kindKept id middle atMiddle
    exact ⟨now, atEnd, node.kind.kept_trans kept kept'⟩
  varKept := fun id var here => second.varKept id var (first.varKept id var here)
  callKept := fun id outside =>
    (second.callKept id (fun mem => outside (callsIn id mem))).trans
      (first.callKept id outside)
  callCount := second.callCount.trans first.callCount

theorem follow {calls : CallId → Prop} (first : Extends nodes calls p q) (second : Extends nodes calls q r) :
    Extends nodes calls p r :=
  first.trans second (fun _ mem _ => mem) (fun _ mem => mem)

theorem mono {calls : CallId → Prop} (grown : Extends nodes calls p q) (nodesIn : ∀ id, nodes id → nodes' id)
    (callsIn : ∀ id, calls id → calls' id) : Extends nodes' calls' p q :=
  { grown with
    nodeKept := fun id bound outside => grown.nodeKept id bound fun mem => outside (nodesIn id mem)
    callKept := fun id outside => grown.callKept id fun mem => outside (callsIn id mem) }

theorem node {calls : CallId → Prop} (grown : Extends nodes calls p q) {id : NodeId} {node : Node}
    (here : p.nodes[id]? = some node) (outside : ¬ nodes id) : q.nodes[id]? = some node := by
  have bound : id < p.nodes.size := lt_size here
  exact (grown.nodeKept id bound outside).trans here

end Extends

abbrev Adds (p q : Procedure) : Prop := Extends (fun _ => False) (fun _ => False) p q

-- Nodes and locals were added, and of the calls one may have changed.
abbrev Reworks (call : CallId) (p q : Procedure) : Prop := Extends (fun _ => False) (· = call) p q

namespace Adds

theorem trans (first : Adds p q) (second : Adds q r) : Adds p r := Extends.follow first second

theorem anywhere {calls : CallId → Prop} (added : Adds p q) : Extends nodes calls p q :=
  added.mono (fun _ => False.elim) (fun _ => False.elim)

theorem node (added : Adds p q) {id : NodeId} {node : Node} (here : p.nodes[id]? = some node) :
    q.nodes[id]? = some node :=
  Extends.node added here not_false

theorem calls (added : Adds p q) : q.calls = p.calls :=
  Array.ext_getElem? fun id => added.callKept id not_false

end Adds

namespace Procedure

theorem addLocal_adds (p : Procedure) (var : LocalVar) : Adds p (p.addLocal var).2 where
  statements := rfl
  nodeKept := fun _ _ _ => rfl
  kindKept := fun _ node found => ⟨node, found, .inl rfl⟩
  varKept := fun other data found => by
    have bound : other < p.locals.size := lt_size found
    change (p.locals.push var)[other]? = some data
    rw [Array.getElem?_push_lt bound]
    simpa [Array.getElem?_eq_getElem bound] using found
  callKept := fun _ _ => rfl
  callCount := rfl

theorem node_ok_iff {id : NodeId} {node : Node} : proc.node id = .ok node ↔ proc.nodes[id]? = some node := by
  unfold Procedure.node
  cases proc.nodes[id]? with
  | none => simp
  | some node => simp

theorem call_ok_iff : proc.call id = .ok call ↔ proc.calls[id]? = some call := by
  unfold Procedure.call
  cases proc.calls[id]? with
  | none => simp
  | some call => simp

theorem localVar_ok_iff {id : LocalId} : proc.localVar id = .ok var ↔ proc.locals[id]? = some var := by
  unfold Procedure.localVar
  cases proc.locals[id]? with
  | none => simp
  | some var => simp

theorem setCall_here (call : Call) (here : proc.calls[id]? = some old) :
    (proc.setCall id call).calls[id]? = some call :=
  Array.getElem?_setIfInBounds_self_of_lt (lt_size here)

theorem setCall_at (here : p.calls[id]? = some old) (set : q = p.setCall id call) : q.calls[id]? = some call :=
  set ▸ p.setCall_here call here

theorem setCall_self (here : proc.calls[id]? = some data) : proc.setCall id data = proc := by
  obtain ⟨bound, rfl⟩ := Array.getElem?_eq_some_iff.mp here
  simp [setCall, Array.setIfInBounds, bound]

end Procedure

theorem ArgList.arg_ok_iff (list : ArgList) : list.arg index = .ok arg ↔ list.args[index]? = some arg := by
  unfold ArgList.arg
  cases list.args[index]? with
  | none => simp
  | some arg => simp

def Call.withArgs (data : Call) (args : List Argument) : Call :=
  { data with args := { data.args with args } }

theorem Call.withArgs_set (atIndex : data.args.args[index]? = some arg) :
    data.withArgs (data.args.args.set index arg) = data := by
  obtain ⟨bound, rfl⟩ := List.getElem?_eq_some_iff.mp atIndex
  rw [List.set_getElem_self]
  rfl

theorem modify_eq_set {α : Type} {items : List α} {item : α} (step : α → α) (here : items[index]? = some item) :
    items.modify index step = items.set index (step item) := by
  apply List.ext_getElem?
  intro other
  rw [List.getElem?_modify, List.getElem?_set]
  by_cases same : index = other
  · subst same
    obtain ⟨bound, rfl⟩ := List.getElem?_eq_some_iff.mp here
    simp [bound]
  · simp [same]

namespace Edit

theorem node_ok {id : NodeId} {node : Node} (done : Edit.node id p = .ok node q) :
    p.nodes[id]? = some node ∧ q = p := by
  obtain ⟨here, same⟩ := ask_ok_iff.mp done
  exact ⟨p.node_ok_iff.mp here, same.symm⟩

theorem call_ok (done : Edit.call id p = .ok data q) : p.calls[id]? = some data ∧ q = p := by
  obtain ⟨here, same⟩ := ask_ok_iff.mp done
  exact ⟨p.call_ok_iff.mp here, same.symm⟩

theorem call_answers {proc : Procedure} (here : proc.calls[id]? = some data) : Edit.call id proc = .ok data proc :=
  ask_ok_iff.mpr ⟨proc.call_ok_iff.mpr here, rfl⟩

theorem arg_answers {proc : Procedure} {arg : Argument} (here : proc.calls[id]? = some data)
    (atIndex : data.args.args[index]? = some arg) : Edit.arg id index proc = .ok arg proc :=
  ask_ok_iff.mpr ⟨except_bind_ok_iff.mpr
    ⟨data, proc.call_ok_iff.mpr here, data.args.arg_ok_iff.mpr atIndex⟩, rfl⟩

theorem call_first {α : Type} {f : Call → Attempt α} (here : p.calls[id]? = some data) :
    ((liftM (Edit.call id) : Attempt Call) >>= f) p = f data p :=
  bind_of_ok (lift_edit_ok_iff.mpr (call_answers here))

theorem arg_ok (done : Edit.arg id index p = .ok arg q) :
    ∃ data, p.calls[id]? = some data ∧ data.args.args[index]? = some arg ∧ q = p := by
  obtain ⟨here, same⟩ := ask_ok_iff.mp done
  obtain ⟨data, found, at_⟩ := except_bind_ok_iff.mp here
  exact ⟨data, p.call_ok_iff.mp found, data.args.arg_ok_iff.mp at_, same.symm⟩

theorem addNode_ok {id : NodeId} (done : addNode kind ty p = .ok id q) :
    ∃ impact, p.impactOf kind = .ok impact ∧ id = p.nodes.size
      ∧ q = (p.pushNode { kind, ty, impact }).noteKind kind := by
  simp only [addNode, bind_ok_iff, ask_ok_iff, get_ok_iff, modify_ok_iff, pure_ok_iff] at done
  obtain ⟨impact, _, ⟨computed, rfl⟩, _, _, ⟨rfl, rfl⟩, _, _, rfl, rfl, rfl⟩ := done
  exact ⟨impact, computed, rfl, rfl⟩

theorem addLocal_ok {id : LocalId} (done : Edit.addLocal var p = .ok id q) :
    id = p.locals.size ∧ q = { p with locals := p.locals.push var } := by
  change EStateM.Result.ok p.locals.size { p with locals := p.locals.push var } = .ok id q at done
  cases done
  exact ⟨rfl, rfl⟩

theorem replaceNode_ok {id : NodeId} (done : replaceNode id kind ty p = .ok () q) :
    ∃ impact old, p.impactOf kind = .ok impact ∧ p.nodes[id]? = some old
      ∧ q = (p.setNode id { kind, ty, impact }).noteKind kind := by
  simp only [replaceNode, bind_ok_iff, ask_ok_iff, modify_ok_iff] at done
  obtain ⟨impact, _, ⟨computed, rfl⟩, old, _, found, rfl⟩ := done
  obtain ⟨here, rfl⟩ := node_ok found
  exact ⟨impact, old, computed, here, rfl⟩

theorem refreshNode_ok {id : NodeId} (done : refreshNode id p = .ok () q) :
    ∃ node impact, p.nodes[id]? = some node ∧ p.impactOf node.kind = .ok impact
      ∧ q = p.setNode id { node with impact } := by
  simp only [refreshNode, bind_ok_iff, ask_ok_iff, modify_ok_iff] at done
  obtain ⟨node, _, found, impact, _, ⟨computed, rfl⟩, rfl⟩ := done
  obtain ⟨here, rfl⟩ := node_ok found
  exact ⟨node, impact, here, computed, rfl⟩

theorem modifyCall_ok {step : Call → Call} (done : modifyCall id step p = .ok () q) :
    ∃ data, p.calls[id]? = some data ∧ q = p.setCall id (step data) := by
  simp only [modifyCall, bind_ok_iff, modify_ok_iff] at done
  obtain ⟨data, _, found, rfl⟩ := done
  obtain ⟨here, rfl⟩ := call_ok found
  exact ⟨data, here, rfl⟩

theorem modifyArgs_ok {step : ArgList → Except Fault ArgList} (done : modifyArgs id step p = .ok () q) :
    ∃ data args, p.calls[id]? = some data ∧ step data.args = .ok args
      ∧ q = p.setCall id { data with args } := by
  simp only [modifyArgs, bind_ok_iff, ask_ok_iff, modify_ok_iff] at done
  obtain ⟨data, _, found, args, _, ⟨stepped, rfl⟩, rfl⟩ := done
  obtain ⟨here, rfl⟩ := call_ok found
  exact ⟨data, args, here, stepped, rfl⟩

theorem modifyArg_ok (done : modifyArg id index step p = .ok () q) :
    ∃ data arg, p.calls[id]? = some data ∧ data.args.args[index]? = some arg
      ∧ q = p.setCall id (data.withArgs (data.args.args.set index (step arg))) := by
  obtain ⟨data, args, here, stepped, rfl⟩ := modifyArgs_ok done
  obtain ⟨arg, found, same⟩ := except_bind_ok_iff.mp stepped
  cases same
  have atIndex := data.args.arg_ok_iff.mp found
  refine ⟨data, arg, here, atIndex, ?_⟩
  rw [Call.withArgs, ← modify_eq_set step atIndex]
  rfl

section Known

variable (here : p.calls[id]? = some data)

include here

theorem setCall_kept (atIndex : data.args.args[index]? = some arg)
    (same : step arg = arg) : p.setCall id (data.withArgs (data.args.args.modify index step)) = p := by
  have unchanged : data.args.args.modify index step = data.args.args := by
    obtain ⟨_, rfl⟩ := List.getElem?_eq_some_iff.mp atIndex
    rw [modify_eq_set _ atIndex, same, List.set_getElem_self]
  rw [unchanged]
  exact p.setCall_self here

theorem modifyCall_runs {step : Call → Call} : modifyCall id step p = .ok () (p.setCall id (step data)) :=
  bind_ok_iff.mpr ⟨data, p, call_answers here, modify_ok_iff.mpr rfl⟩

theorem modifyArgs_runs {step : ArgList → Except Fault ArgList} {args : ArgList}
    (stepped : step data.args = .ok args) : modifyArgs id step p = .ok () (p.setCall id { data with args }) := by
  refine bind_ok_iff.mpr ⟨data, p, call_answers here, ?_⟩
  refine bind_ok_iff.mpr ⟨args, p, ask_ok_iff.mpr ⟨stepped, rfl⟩, ?_⟩
  exact modify_ok_iff.mpr rfl

theorem modifyArg_runs (atIndex : data.args.args[index]? = some arg) (step : Argument → Argument) :
    modifyArg id index step p = .ok () (p.setCall id (data.withArgs (data.args.args.modify index step))) :=
  modifyArgs_runs here (except_bind_ok_iff.mpr
    ⟨arg, data.args.arg_ok_iff.mpr atIndex, rfl⟩)

end Known

theorem addNode_adds {id : NodeId} (done : addNode kind ty p = .ok id q) : Adds p q := by
  obtain ⟨impact, _, _, rfl⟩ := addNode_ok done
  have here : ∀ (other : NodeId) (node : Node), p.nodes[other]? = some node →
      (p.nodes.push { kind, ty, impact })[other]? = some node := by
    intro other node found
    have bound : other < p.nodes.size := lt_size found
    rw [Array.getElem?_push_lt bound]
    simpa [Array.getElem?_eq_getElem bound] using found
  exact {
    statements := rfl
    nodeKept := fun other bound _ => (here other _ (Array.getElem?_eq_getElem bound)).trans
      (Array.getElem?_eq_getElem bound).symm
    kindKept := fun other node found => ⟨node, here other node found, .inl rfl⟩
    varKept := fun _ _ found => found
    callKept := fun _ _ => rfl
    callCount := rfl }

theorem addNode_here {id : NodeId} (done : addNode kind ty p = .ok id q) :
    ∃ node, q.nodes[id]? = some node ∧ node.kind = kind ∧ node.ty = ty
      ∧ p.impactOf kind = .ok node.impact := by
  obtain ⟨impact, computed, rfl, rfl⟩ := addNode_ok done
  exact ⟨{ kind, ty, impact }, Array.getElem?_push_size, rfl, rfl, computed⟩

theorem addLocal_adds {id : LocalId} (done : Edit.addLocal var p = .ok id q) : Adds p q := by
  obtain ⟨_, rfl⟩ := addLocal_ok done
  exact p.addLocal_adds var

theorem setCall_extends (set : q = p.setCall id data) : Reworks id p q := by
  subst set
  exact {
    statements := rfl
    nodeKept := fun _ _ _ => rfl
    kindKept := fun _ node found => ⟨node, found, .inl rfl⟩
    varKept := fun _ _ found => found
    callKept := fun _ outside => Array.getElem?_setIfInBounds_ne (Ne.symm outside)
    callCount := Array.size_setIfInBounds }

theorem modifyArg_extends (done : modifyArg id index step p = .ok () q) : Reworks id p q := by
  obtain ⟨data, arg, _, _, set⟩ := modifyArg_ok done
  exact setCall_extends set

theorem modifyArg_slot (here : p.calls[id]? = some data)
    (atIndex : data.args.args[index]? = some arg) (done : modifyArg id index step p = .ok () q) :
    q.calls[id]? = some (data.withArgs (data.args.args.set index (step arg))) := by
  obtain ⟨same, other, atSame, atOther, rfl⟩ := modifyArg_ok done
  cases here.symm.trans atSame
  cases atIndex.symm.trans atOther
  exact p.setCall_here _ here

theorem setNode_extends {id : NodeId} {old node : Node}
    (here : p.nodes[id]? = some old) (kept : old.kind.Kept node.kind) :
    Extends (· = id) (fun _ => False) p (p.setNode id node) where
  statements := rfl
  nodeKept := fun _ _ outside => Array.getElem?_setIfInBounds_ne (Ne.symm outside)
  kindKept := fun other data found => by
    have bound : id < p.nodes.size := lt_size here
    by_cases same : id = other
    · subst same
      have unchanged : old = data := Option.some.inj (here.symm.trans found)
      exact ⟨node, Array.getElem?_setIfInBounds_self_of_lt bound, unchanged ▸ kept⟩
    · exact ⟨data, (Array.getElem?_setIfInBounds_ne same).trans found, .inl rfl⟩
  varKept := fun _ _ found => found
  callKept := fun _ _ => rfl
  callCount := rfl

theorem replaceNode_extends {id : NodeId} {old : Node} (here : p.nodes[id]? = some old)
    (kept : old.kind.Kept kind) (done : replaceNode id kind ty p = .ok () q) :
    Extends (· = id) (fun _ => False) p q := by
  obtain ⟨impact, _, _, _, rfl⟩ := replaceNode_ok done
  exact { setNode_extends here kept with }

theorem refreshNode_extends {id : NodeId} (done : refreshNode id p = .ok () q) :
    Extends (· = id) (fun _ => False) p q := by
  obtain ⟨node, impact, here, _, rfl⟩ := refreshNode_ok done
  exact setNode_extends here (.inl rfl)

-- The ways in which cloning ends well. Arithmetic is copied after its operands; the first part that may
-- not be evaluated twice ends it without a copy.
inductive Cloned : Nat → NodeId → Procedure → Option NodeId → Procedure → Prop where
  | raising {depth : Nat} {id lhs rhs : NodeId} {op : BinaryOp} {node : Node} {p : Procedure}
      (here : p.nodes[id]? = some node) (isBinary : node.kind = .binary op lhs rhs)
      (raises : op.exceptions.isEmpty = false) : Cloned (depth + 1) id p none p
  | noLeft {depth : Nat} {id lhs rhs : NodeId} {op : BinaryOp} {node : Node} {p q : Procedure}
      (here : p.nodes[id]? = some node) (isBinary : node.kind = .binary op lhs rhs)
      (quiet : op.exceptions.isEmpty = true) (left : Cloned depth lhs p none q) :
      Cloned (depth + 1) id p none q
  | noRight {depth : Nat} {id lhs rhs leftCopy : NodeId} {op : BinaryOp} {node : Node} {p m q : Procedure}
      (here : p.nodes[id]? = some node) (isBinary : node.kind = .binary op lhs rhs)
      (quiet : op.exceptions.isEmpty = true) (left : Cloned depth lhs p (some leftCopy) m)
      (right : Cloned depth rhs m none q) : Cloned (depth + 1) id p none q
  | arithmetic {depth : Nat} {id lhs rhs leftCopy rightCopy copy : NodeId} {op : BinaryOp} {node : Node}
      {p m n q : Procedure} (here : p.nodes[id]? = some node) (isBinary : node.kind = .binary op lhs rhs)
      (quiet : op.exceptions.isEmpty = true) (left : Cloned depth lhs p (some leftCopy) m)
      (right : Cloned depth rhs m (some rightCopy) n)
      (made : addNode (.binary op leftCopy rightCopy) node.ty n = .ok copy q) :
      Cloned (depth + 1) id p (some copy) q
  | other {depth : Nat} {id : NodeId} {node : Node} {p : Procedure} (here : p.nodes[id]? = some node)
      (noBinary : ∀ op lhs rhs, node.kind ≠ .binary op lhs rhs) (noLeaf : isSimpleLeaf node.kind = false) :
      Cloned (depth + 1) id p none p
  | leaf {depth : Nat} {id copy : NodeId} {node : Node} {p q : Procedure} (here : p.nodes[id]? = some node)
      (isLeaf : isSimpleLeaf node.kind = true) (made : addNode node.kind node.ty p = .ok copy q) :
      Cloned (depth + 1) id p (some copy) q

variable {depth : Nat}

theorem cloneWithin_ok {id : NodeId}
    (done : cloneWithin depth id p = .ok copy q) : Cloned depth id p copy q := by
  induction depth generalizing id p q copy with
  | zero => exact (throw_ok_iff.mp done).elim
  | succ depth ih =>
    simp only [cloneWithin, bind_ok_iff] at done
    obtain ⟨node, _, found, rest⟩ := done
    obtain ⟨here, rfl⟩ := node_ok found
    cases kindEq : node.kind with
    | binary op lhs rhs =>
      simp only [kindEq] at rest
      by_cases quiet : op.exceptions.isEmpty = true
      · simp only [quiet, if_true, bind_ok_iff] at rest
        obtain ⟨leftCopy, m, atLeft, rest⟩ := rest
        have left := ih atLeft
        cases leftCopy with
        | none =>
          obtain ⟨rfl, rfl⟩ := pure_ok_iff.mp rest
          exact .noLeft here kindEq quiet left
        | some leftCopy =>
          simp only [bind_ok_iff] at rest
          obtain ⟨rightCopy, n, atRight, rest⟩ := rest
          have right := ih atRight
          cases rightCopy with
          | none =>
            obtain ⟨rfl, rfl⟩ := pure_ok_iff.mp rest
            exact .noRight here kindEq quiet left right
          | some rightCopy =>
            simp only [bind_ok_iff, pure_ok_iff] at rest
            obtain ⟨_, _, made, rfl, rfl⟩ := rest
            exact .arithmetic here kindEq quiet left right made
      · simp only [quiet] at rest
        obtain ⟨rfl, rfl⟩ := pure_ok_iff.mp rest
        exact .raising here kindEq (by simpa using quiet)
    | _ =>
      simp only [kindEq] at rest
      split at rest
      · rename_i isLeaf
        simp only [bind_ok_iff, pure_ok_iff] at rest
        obtain ⟨_, _, made, rfl, rfl⟩ := rest
        exact .leaf here (kindEq ▸ isLeaf) (kindEq ▸ made)
      · rename_i noLeaf
        obtain ⟨rfl, rfl⟩ := pure_ok_iff.mp rest
        exact .other here (by simp [kindEq]) (by simpa [kindEq] using noLeaf)

theorem cloneSimple_cloned {id : NodeId} (done : cloneSimple id p = .ok copy q) :
    Cloned (p.nodes.size + 1) id p copy q := by
  simp only [cloneSimple, bind_ok_iff, get_ok_iff] at done
  obtain ⟨_, _, ⟨rfl, rfl⟩, cloned⟩ := done
  exact cloneWithin_ok cloned

theorem Cloned.related (related : Procedure → Procedure → Prop) (refl : ∀ p, related p p)
    (trans : ∀ p q r, related p q → related q r → related p r)
    (node : ∀ kind ty p q id, (∀ uses, kind ≠ .fieldList uses) → addNode kind ty p = .ok id q →
      related p q) {id : NodeId} (cloned : Cloned depth id p copy q) : related p q := by
  induction cloned with
  | raising | other => exact refl _
  | noLeft _ _ _ _ left => exact left
  | noRight _ _ _ _ _ left right => exact trans _ _ _ left right
  | arithmetic _ _ _ _ _ made left right =>
    exact trans _ _ _ (trans _ _ _ left right) (node _ _ _ _ _ (by simp) made)
  | leaf _ isLeaf made =>
    refine node _ _ _ _ _ (fun uses isList => ?_) made
    rw [isList] at isLeaf
    cases isLeaf

theorem Cloned.adds {id : NodeId} (cloned : Cloned depth id p copy q) : Adds p q :=
  cloned.related Adds (fun _ => Extends.refl) (fun _ _ _ => Adds.trans) fun _ _ _ _ _ _ => addNode_adds

theorem cloneSimple_adds {id : NodeId} (done : cloneSimple id p = .ok copy q) : Adds p q :=
  (cloneSimple_cloned done).adds

theorem cloneSimple_locals {id : NodeId} (done : cloneSimple id p = .ok copy q) : q.locals = p.locals := by
  apply (cloneSimple_cloned done).related (fun p q => q.locals = p.locals) (fun _ => rfl)
    fun _ _ _ first second => second.trans first
  intro kind ty p q id _ added
  obtain ⟨_, _, _, rfl⟩ := addNode_ok added
  rfl

end Edit

end CallLowering
