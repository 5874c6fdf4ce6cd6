import CallLowering.Proofs.Holding

/-!
Trees that may be evaluated twice. Cloning makes a copy of exactly these, and what it decided about a
tree once it decides about it again, however the procedure has grown in between.
-/

namespace CallLowering

open Procedure

variable {id : NodeId} {kind : NodeKind} {p proc q : Procedure} {calls : CallId → Prop}

-- Constants, reads of locals and their addresses, under arithmetic that cannot raise.
inductive Procedure.Simple (proc : Procedure) : NodeId → Prop where
  | leaf {id : NodeId} {kind : NodeKind} (here : proc.kindAt id = some kind)
      (isLeaf : Edit.isSimpleLeaf kind = true) : proc.Simple id
  | arithmetic {id lhs rhs : NodeId} {op : BinaryOp} (here : proc.kindAt id = some (.binary op lhs rhs))
      (quiet : op.exceptions.isEmpty = true) (left : proc.Simple lhs) (right : proc.Simple rhs) :
      proc.Simple id

namespace Procedure

theorem simple_arithmetic_iff {lhs rhs : NodeId} {op : BinaryOp} (here : proc.kindAt id = some (.binary op lhs rhs)) :
    proc.Simple id ↔ op.exceptions.isEmpty = true ∧ proc.Simple lhs ∧ proc.Simple rhs := by
  constructor
  · intro simple
    cases simple with
    | leaf atLeaf isLeaf =>
      cases here.symm.trans atLeaf
      cases isLeaf
    | arithmetic atId quiet left right =>
      cases here.symm.trans atId
      exact ⟨quiet, left, right⟩
  · rintro ⟨quiet, left, right⟩
    exact .arithmetic here quiet left right

theorem simple_other_iff (here : proc.kindAt id = some kind) (other : ∀ op lhs rhs, kind ≠ .binary op lhs rhs) :
    proc.Simple id ↔ Edit.isSimpleLeaf kind = true := by
  constructor
  · intro simple
    cases simple with
    | leaf atLeaf isLeaf =>
      cases here.symm.trans atLeaf
      exact isLeaf
    | arithmetic atId =>
      cases here.symm.trans atId
      exact absurd rfl (other _ _ _)
  · exact .leaf here

theorem kindAt_later (grown : Extends (fun _ => False) calls p q) (here : p.kindAt id = some kind) :
    q.kindAt id = some kind := by
  rw [grown.kindAt_outside (p.kindAt_lt here) not_false, here]

theorem Simple.later (simple : p.Simple id) (grown : Extends (fun _ => False) calls p q) : q.Simple id := by
  induction simple with
  | leaf here isLeaf => exact .leaf (kindAt_later grown here) isLeaf
  | arithmetic here quiet _ _ left right => exact .arithmetic (kindAt_later grown here) quiet left right

theorem impactOf_known (proc : Procedure) (noCall : kind.call? = none)
    (children : ∀ id ∈ kind.children, ∃ node, proc.nodes[id]? = some node)
    (vars : ∀ var, kind.mentionsLocal? = some var ∨ kind.storesLocal? = some var →
      ∃ data, proc.locals[var]? = some data) : ∃ impact, proc.impactOf kind = .ok impact := by
  have below : ∀ (ids : List NodeId) (start : Impact),
      (∀ id ∈ ids, ∃ node, proc.nodes[id]? = some node) → ∃ total, ids.foldlM
        (fun impact id => do pure (impact.union (← proc.node id).impact)) start = Except.ok total := by
    intro ids
    induction ids with
    | nil => exact fun start _ => ⟨start, rfl⟩
    | cons id rest ih =>
      intro start each
      obtain ⟨⟨node, here⟩, later⟩ := List.forall_mem_cons.mp each
      obtain ⟨total, summed⟩ := ih (start.union node.impact) later
      refine ⟨total, ?_⟩
      rw [List.foldlM_cons, proc.node_ok_iff.mpr here]
      exact summed
  obtain ⟨total, summed⟩ := below kind.children Impact.none children
  obtain ⟨own, found⟩ : ∃ own, proc.ownImpact kind = .ok own := by
    cases kind with
    | readLocal var | readField var _ =>
      obtain ⟨data, here⟩ := vars var (.inl rfl)
      simp only [ownImpact, proc.localVar_ok_iff.mpr here]
      exact ⟨_, rfl⟩
    | storeLocal var _ =>
      obtain ⟨data, here⟩ := vars var (.inr rfl)
      simp only [ownImpact, proc.localVar_ok_iff.mpr here]
      exact ⟨_, rfl⟩
    | binary op lhs rhs =>
      obtain ⟨divisor, here⟩ := children rhs (by simp [NodeKind.children])
      simp only [ownImpact, proc.node_ok_iff.mpr here]
      exact ⟨_, rfl⟩
    | _ => exact ⟨_, rfl⟩
  exact ⟨_, proc.impactOf_ok_iff.mpr
    ⟨kind.children, total, own, proc.references_of_plain noCall, summed, found, rfl⟩⟩

end Procedure

namespace Edit

theorem node_runs {node : Node} (here : p.nodes[id]? = some node) : Edit.node id p = .ok node p :=
  ask_ok_iff.mpr ⟨p.node_ok_iff.mpr here, rfl⟩

theorem addNode_runs (ty : ValueType) {impact : Impact} (computed : p.impactOf kind = .ok impact) :
    ∃ id q, addNode kind ty p = .ok id q := by
  refine ⟨p.nodes.size, (p.pushNode { kind, ty, impact }).noteKind kind, ?_⟩
  simp only [addNode, bind_ok_iff, ask_ok_iff, get_ok_iff, modify_ok_iff, pure_ok_iff]
  exact ⟨impact, p, ⟨computed, rfl⟩, p, p, ⟨rfl, rfl⟩, (), _, rfl, rfl, rfl⟩

theorem addNode_known (kind : NodeKind) (ty : ValueType) (noCall : kind.call? = none)
    (children : ∀ id ∈ kind.children, ∃ node, p.nodes[id]? = some node)
    (vars : ∀ var, kind.mentionsLocal? = some var ∨ kind.storesLocal? = some var →
      ∃ data, p.locals[var]? = some data) : ∃ id q, addNode kind ty p = .ok id q := by
  obtain ⟨impact, computed⟩ := p.impactOf_known noCall children vars
  exact addNode_runs ty computed

namespace Cloned

variable {calls : CallId → Prop} {depth : Nat} {id : NodeId} {p q r : Procedure} {copy : Option NodeId}

section Run

variable (cloned : Cloned depth id p copy q)

include cloned

theorem source : ∃ node, p.nodes[id]? = some node := by
  cases cloned with
  | raising here | noLeft here | noRight here | arithmetic here | other here | leaf here => exact ⟨_, here⟩

theorem known {made : NodeId} (isCopy : copy = some made) : ∃ node, q.nodes[made]? = some node := by
  cases cloned with
  | raising | noLeft | noRight | other => cases isCopy
  | arithmetic _ _ _ _ _ added | leaf _ _ added =>
    cases isCopy
    obtain ⟨node, here, _⟩ := addNode_here added
    exact ⟨node, here⟩

theorem isSome_iff (grown : Extends (fun _ => False) calls q r) : copy.isSome = true ↔ r.Simple id := by
  have kindIn : ∀ {a b : Procedure} {id : NodeId} {node : Node}, Adds a b →
      Extends (fun _ => False) calls b r → a.nodes[id]? = some node → r.kindAt id = some node.kind := by
    intro a b id node added later here
    exact r.kindAt_of (later.node (added.node here) not_false) rfl
  induction cloned with
  | raising here isBinary raises =>
    have there := kindIn Extends.refl grown here
    rw [isBinary] at there
    rw [simple_arithmetic_iff there, raises]
    simp
  | noLeft here isBinary quiet left ih =>
    have there := kindIn left.adds grown here
    rw [isBinary] at there
    have notSimple := (ih grown).not.mp (by simp)
    simp [simple_arithmetic_iff there, notSimple]
  | noRight here isBinary quiet left right _ ih =>
    have there := kindIn (left.adds.trans right.adds) grown here
    rw [isBinary] at there
    have notSimple := (ih grown).not.mp (by simp)
    simp [simple_arithmetic_iff there, notSimple]
  | arithmetic here isBinary quiet left right made ihLeft ihRight =>
    have last := addNode_adds made
    have there := kindIn ((left.adds.trans right.adds).trans last) grown here
    rw [isBinary] at there
    have afterRight := last.anywhere.follow grown
    have afterLeft := right.adds.anywhere.follow afterRight
    exact ⟨fun _ => .arithmetic there quiet ((ihLeft afterLeft).mp rfl) ((ihRight afterRight).mp rfl),
      fun _ => rfl⟩
  | other here noBinary noLeaf =>
    have there := kindIn Extends.refl grown here
    rw [simple_other_iff there noBinary, noLeaf]
    simp
  | leaf here isLeaf made =>
    have there := kindIn (addNode_adds made) grown here
    exact ⟨fun _ => .leaf there isLeaf, fun _ => rfl⟩

theorem agree {more : Nat} {s : Procedure} {other : Option NodeId}
    (grown : Extends (fun _ => False) calls q r) (later : Cloned more id r other s) : other.isSome = copy.isSome := by
  have first := cloned.isSome_iff (grown.follow later.adds.anywhere)
  have second : other.isSome = true ↔ s.Simple id := later.isSome_iff (Extends.refl : Extends _ calls s s)
  exact Bool.eq_iff_iff.mpr (second.trans first.symm)

theorem again (grown : Extends (fun _ => False) calls q r) (more : Nat) :
    ∃ other s, Cloned (more + depth) id r other s := by
  have later : ∀ {a b c : Procedure}, Adds a b → Extends (fun _ => False) calls b c →
      Extends (fun _ => False) calls a c := fun added further =>
    added.anywhere.follow further
  have noCopy : ∀ {other : Option NodeId}, other.isSome = false → other = none := by simp
  induction cloned generalizing r with
  | raising here isBinary raises =>
    exact ⟨none, r, .raising (grown.node here not_false) isBinary raises⟩
  | noLeft here isBinary quiet left ih =>
    obtain ⟨other, s, leftAgain⟩ := ih grown
    cases noCopy (left.agree grown leftAgain)
    exact ⟨none, s, .noLeft ((later left.adds grown).node here not_false) isBinary quiet leftAgain⟩
  | noRight here isBinary quiet left right ihLeft ihRight =>
    have afterLeft := later right.adds grown
    obtain ⟨other, s, leftAgain⟩ := ihLeft afterLeft
    obtain ⟨leftCopy, rfl⟩ := Option.isSome_iff_exists.mp (left.agree afterLeft leftAgain)
    have atRight := grown.follow leftAgain.adds.anywhere
    obtain ⟨other, t, rightAgain⟩ := ihRight atRight
    cases noCopy (right.agree atRight rightAgain)
    exact ⟨none, t, .noRight ((later left.adds afterLeft).node here not_false) isBinary quiet leftAgain
      rightAgain⟩
  | arithmetic here isBinary quiet left right made ihLeft ihRight =>
    have afterRight := later (addNode_adds made) grown
    have afterLeft := later right.adds afterRight
    obtain ⟨other, s, leftAgain⟩ := ihLeft afterLeft
    obtain ⟨leftCopy, rfl⟩ := Option.isSome_iff_exists.mp (left.agree afterLeft leftAgain)
    have atRight := afterRight.follow leftAgain.adds.anywhere
    obtain ⟨other, t, rightAgain⟩ := ihRight atRight
    obtain ⟨rightCopy, rfl⟩ := Option.isSome_iff_exists.mp (right.agree atRight rightAgain)
    obtain ⟨leftNode, atLeft⟩ := leftAgain.known rfl
    have operands : ∀ child ∈ [leftCopy, rightCopy], ∃ node, t.nodes[child]? = some node := by
      simp only [List.forall_mem_cons]
      exact ⟨⟨leftNode, rightAgain.adds.node atLeft⟩, rightAgain.known rfl, by simp⟩
    obtain ⟨copy, u, added⟩ := addNode_known (.binary _ leftCopy rightCopy) _ rfl operands
      (by simp [NodeKind.mentionsLocal?, NodeKind.storesLocal?])
    exact ⟨some copy, u, .arithmetic ((later left.adds afterLeft).node here not_false) isBinary quiet
      leftAgain rightAgain added⟩
  | other here noBinary noLeaf =>
    exact ⟨none, r, .other (grown.node here not_false) noBinary noLeaf⟩
  | @leaf _ _ _ node _ _ here isLeaf made =>
    have fromStart := later (addNode_adds made) grown
    obtain ⟨impact, computed, _⟩ := addNode_ok made
    have noCall : ∀ call, node.kind.call? = some call → ¬ calls call := fun call isCall => by
      rw [(node.kind.call?_eq_some_iff call).mp isCall] at isLeaf
      cases isLeaf
    obtain ⟨copy, s, added⟩ := addNode_runs _
      (impactOf_frame fromStart computed noCall fun _ _ _ _ => not_false)
    exact ⟨some copy, s, .leaf (fromStart.node here not_false) isLeaf added⟩

theorem runs : cloneWithin depth id p = .ok copy q := by
  induction cloned with
  | raising here isBinary raises =>
    refine bind_ok_iff.mpr ⟨_, _, node_runs here, ?_⟩
    simp [isBinary, raises]
  | noLeft here isBinary quiet _ left =>
    refine bind_ok_iff.mpr ⟨_, _, node_runs here, ?_⟩
    simp only [isBinary, quiet, if_true]
    exact bind_ok_iff.mpr ⟨_, _, left, pure_ok_iff.mpr ⟨rfl, rfl⟩⟩
  | noRight here isBinary quiet _ _ left right =>
    refine bind_ok_iff.mpr ⟨_, _, node_runs here, ?_⟩
    simp only [isBinary, quiet, if_true]
    refine bind_ok_iff.mpr ⟨_, _, left, ?_⟩
    exact bind_ok_iff.mpr ⟨_, _, right, pure_ok_iff.mpr ⟨rfl, rfl⟩⟩
  | arithmetic here isBinary quiet _ _ made left right =>
    refine bind_ok_iff.mpr ⟨_, _, node_runs here, ?_⟩
    simp only [isBinary, quiet, if_true]
    refine bind_ok_iff.mpr ⟨_, _, left, bind_ok_iff.mpr ⟨_, _, right, ?_⟩⟩
    exact bind_ok_iff.mpr ⟨_, _, made, pure_ok_iff.mpr ⟨rfl, rfl⟩⟩
  | @other _ _ node _ here noBinary noLeaf =>
    refine bind_ok_iff.mpr ⟨_, _, node_runs here, ?_⟩
    cases kindEq : node.kind with
    | binary op lhs rhs => exact absurd kindEq (noBinary op lhs rhs)
    | _ =>
      rw [kindEq] at noLeaf
      simp [noLeaf]
  | @leaf _ _ _ node _ _ here isLeaf made =>
    refine bind_ok_iff.mpr ⟨_, _, node_runs here, ?_⟩
    cases kindEq : node.kind with
    | binary op lhs rhs =>
      rw [kindEq] at isLeaf
      cases isLeaf
    | _ =>
      rw [kindEq] at isLeaf made
      simp only [isLeaf, if_true]
      exact bind_ok_iff.mpr ⟨_, _, made, pure_ok_iff.mpr ⟨rfl, rfl⟩⟩

end Run

end Cloned

theorem cloneSimple_ok_iff {copy : Option NodeId} :
    cloneSimple id p = .ok copy q ↔ Cloned (p.nodes.size + 1) id p copy q := by
  refine ⟨cloneSimple_cloned, fun cloned => ?_⟩
  simp only [cloneSimple, bind_ok_iff, get_ok_iff]
  exact ⟨p, p, ⟨rfl, rfl⟩, cloned.runs⟩

section Later

variable {calls : CallId → Prop} {id : NodeId} {p q r : Procedure} {copy : Option NodeId}

theorem cloneSimple_isSome_iff (done : cloneSimple id p = .ok copy q)
    (grown : Extends (fun _ => False) calls q r) : copy.isSome = true ↔ r.Simple id :=
  (cloneSimple_ok_iff.mp done).isSome_iff grown

theorem cloneSimple_again (done : cloneSimple id p = .ok copy q)
    (grown : Extends (fun _ => False) calls q r) : ∃ other s, cloneSimple id r = .ok other s := by
  have cloned := cloneSimple_ok_iff.mp done
  obtain ⟨more, size⟩ := Nat.exists_eq_add_of_le' (Nat.le_trans cloned.adds.size_le grown.size_le)
  obtain ⟨other, s, again⟩ := cloned.again grown more
  exact ⟨other, s, cloneSimple_ok_iff.mpr (size ▸ again)⟩

end Later

end Edit

end CallLowering
