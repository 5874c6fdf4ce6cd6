import CallLowering.Proofs.Span

/-! Cached impacts. -/

namespace CallLowering

open List

variable {id : NodeId} {node : Node} {seen ids roots : List NodeId} {a b : Impact} {kind : NodeKind}

theorem Exceptions.union_isEmpty_iff (a b : Exceptions) :
    (a.union b).isEmpty = true ↔ a.isEmpty = true ∧ b.isEmpty = true := by
  cases a
  cases b
  simp only [isEmpty, union, none, beq_iff_eq, Exceptions.mk.injEq, Bool.or_eq_false_iff]
  grind

namespace Impact

-- Every effect and exception of `a` is one of `b`.
def Within (a b : Impact) : Prop := a.union b = b

theorem union_assoc (a b c : Impact) : (a.union b).union c = a.union (b.union c) := by
  simp [union, Effects.union, Exceptions.union, Bool.or_assoc]

theorem within_refl (a : Impact) : a.Within a := by
  simp [Within, union, Effects.union, Exceptions.union]

theorem within_trans {c : Impact} (first : a.Within b) (second : b.Within c) : a.Within c := by
  have left : a.union b = b := first
  have right : b.union c = c := second
  change a.union c = c
  rw [← right, ← union_assoc, left]

theorem within_union_left (a b : Impact) : a.Within (a.union b) := by
  change a.union (a.union b) = a.union b
  rw [← union_assoc]
  exact congrArg (·.union b) (within_refl a)

theorem union_comm (a b : Impact) : a.union b = b.union a := by
  simp [union, Effects.union, Exceptions.union, Bool.or_comm]

theorem within_union_right : b.Within (a.union b) :=
  union_comm b a ▸ within_union_left b a

theorem within_closed (a : Impact) : a.Within a.closed := by
  unfold closed
  split
  · exact within_refl a
  · simp [Within, union, Effects.union, Exceptions.union]

theorem Within.raises (within : a.Within b) (has : a.effects.raises = true) : b.effects.raises = true := by
  have same : (a.effects.raises || b.effects.raises) = b.effects.raises :=
    congrArg (fun impact => impact.effects.raises) within
  rw [← same, has, Bool.true_or]

theorem closed_raises (a : Impact) (some_ : a.exceptions.isEmpty = false) : a.closed.effects.raises = true := by
  simp [closed, some_]

-- An effect or an exception that closing an impact adds nothing to.
structure IsSign (sign : Impact → Bool) : Prop where
  ofNone : sign none = false
  ofUnion : ∀ a b, sign (a.union b) = (sign a || sign b)
  ofClosed : ∀ a, sign a.closed = sign a

variable {sign : Impact → Bool}

namespace IsSign

theorem assigns : IsSign fun impact => impact.effects.assigns :=
  ⟨rfl, fun _ _ => rfl, fun a => by unfold closed; split <;> rfl⟩

theorem calls : IsSign fun impact => impact.effects.calls :=
  ⟨rfl, fun _ _ => rfl, fun a => by unfold closed; split <;> rfl⟩

theorem readsGlobal : IsSign fun impact => impact.effects.readsGlobal :=
  ⟨rfl, fun _ _ => rfl, fun a => by unfold closed; split <;> rfl⟩

theorem ordered : IsSign fun impact => impact.effects.ordered :=
  ⟨rfl, fun _ _ => rfl, fun a => by unfold closed; split <;> rfl⟩

theorem isPersistent : IsSign fun impact => impact.effects.isPersistent where
  ofNone := rfl
  ofUnion a b := by simp [union, Effects.union, Effects.isPersistent, Bool.or_assoc, Bool.or_left_comm]
  ofClosed a := by unfold closed; split <;> rfl

theorem within (isSign : IsSign sign) (within : a.Within b) (shown : sign a = true) : sign b = true := by
  have same : sign (a.union b) = sign b := congrArg sign within
  rw [← same, isSign.ofUnion, shown, Bool.true_or]

end IsSign

-- Nothing is stored, called or raised.
def Calm (impact : Impact) : Prop :=
  impact.effects.isSideEffect = false ∧ impact.exceptions.isEmpty = true

theorem Calm.union (first : a.Calm) (second : b.Calm) : (a.union b).Calm := by
  obtain ⟨silent, none_⟩ := first
  obtain ⟨silent', none_'⟩ := second
  simp only [Effects.isSideEffect, Effects.isPersistent, Bool.or_eq_false_iff] at silent silent'
  refine ⟨?_, (Exceptions.union_isEmpty_iff _ _).mpr ⟨none_, none_'⟩⟩
  simp [Impact.union, Effects.union, Effects.isSideEffect, Effects.isPersistent, silent, silent']

theorem Calm.closed (calm : a.Calm) : a.closed.Calm := by
  rw [Impact.closed, if_pos calm.2]
  exact calm

end Impact

structure NodeKind.Signs (kind : NodeKind) (own : Impact) : Prop where
  assigns : own.effects.assigns = kind.isStore
  calls : own.effects.calls = kind.call?.isSome
  ordered : own.effects.ordered = kind.isStackAlloc
  raises : own.effects.raises = false

namespace Procedure

variable (proc : Procedure) {sign : Impact → Bool} {total : Impact}

include proc

theorem ownImpact_signs {own : Impact} (found : proc.ownImpact kind = .ok own) : kind.Signs own := by
  cases kind with
  | readLocal var | readField var _ | storeLocal var _ =>
    obtain ⟨data, _, same⟩ := except_bind_ok_iff.mp found
    cases same
    exact ⟨rfl, rfl, rfl, rfl⟩
  | binary op lhs rhs =>
    obtain ⟨divisor, _, same⟩ := except_bind_ok_iff.mp found
    cases same
    exact ⟨rfl, rfl, rfl, rfl⟩
  | _ =>
    cases found
    exact ⟨rfl, rfl, rfl, rfl⟩

theorem impactOfAll_ok (holds : Impact → Prop) (none_ : holds Impact.none)
    (union : ∀ a b, holds a → holds b → holds (a.union b))
    (each : ∀ id ∈ ids, ∀ node, proc.nodes[id]? = some node → holds node.impact)
    (done : proc.impactOfAll ids = .ok total) : holds total := by
  unfold impactOfAll at done
  generalize Impact.none = start at done none_
  induction ids generalizing start with
  | nil =>
    cases done
    exact none_
  | cons id rest ih =>
    simp only [foldlM_cons, except_bind_ok_iff] at done
    obtain ⟨next, ⟨node, found, same⟩, done⟩ := done
    cases same
    have here := proc.node_ok_iff.mp found
    exact ih (fun other member => each other (by simp [member])) _ done
      (union start node.impact none_ (each id (by simp) node here))

theorem impactOfAll_within (done : proc.impactOfAll ids = .ok total) (member : id ∈ ids) :
    ∃ node, proc.nodes[id]? = some node ∧ node.impact.Within total := by
  have grows : ∀ (rest : List NodeId) (start : Impact),
      rest.foldlM (fun impact id => do pure (impact.union (← proc.node id).impact)) start
        = Except.ok total →
      start.Within total ∧ ∀ id ∈ rest, ∃ node, proc.nodes[id]? = some node
        ∧ node.impact.Within total := by
    intro rest
    induction rest with
    | nil =>
      intro start done
      cases done
      exact ⟨Impact.within_refl _, by simp⟩
    | cons first rest ih =>
      intro start done
      simp only [foldlM_cons, except_bind_ok_iff] at done
      obtain ⟨next, ⟨node, found, same⟩, done⟩ := done
      cases same
      obtain ⟨here, later⟩ := ih _ done
      refine ⟨Impact.within_trans (Impact.within_union_left _ _) here, ?_⟩
      intro id member
      rcases mem_cons.mp member with rfl | inRest
      · exact ⟨node, proc.node_ok_iff.mp found, Impact.within_trans (Impact.within_union_right) here⟩
      · exact later id inRest
  exact (grows ids Impact.none done).2 id member

theorem impactOf_ok_iff {impact : Impact} :
    proc.impactOf kind = .ok impact
      ↔ ∃ ids below own, proc.references kind = .ok ids ∧ proc.impactOfAll ids = .ok below
        ∧ proc.ownImpact kind = .ok own ∧ impact = (below.union own).closed := by
  simp only [impactOf, except_bind_ok_iff]
  constructor
  · rintro ⟨ids, atIds, below, atBelow, own, atOwn, same⟩
    cases same
    exact ⟨ids, below, own, atIds, atBelow, atOwn, rfl⟩
  · rintro ⟨ids, below, own, atIds, atBelow, atOwn, rfl⟩
    exact ⟨ids, atIds, below, atBelow, own, atOwn, rfl⟩

-- The cached impact is the one a refresh would compute.
def Exact (proc : Procedure) (id : NodeId) : Prop :=
  ∃ node, proc.nodes[id]? = some node ∧ proc.impactOf node.kind = .ok node.impact

variable {proc} in
theorem Exact.parts (exact_ : proc.Exact id) (here : proc.nodes[id]? = some node) :
    ∃ ids below own, proc.references node.kind = .ok ids ∧ proc.impactOfAll ids = .ok below
      ∧ proc.ownImpact node.kind = .ok own ∧ node.impact = (below.union own).closed := by
  obtain ⟨same, atSame, computed⟩ := exact_
  cases here.symm.trans atSame
  exact proc.impactOf_ok_iff.mp computed

instance (proc : Procedure) (id : NodeId) : Decidable (proc.Exact id) :=
  decidable_of_iff (proc.nodes[id]?.any fun node =>
    decide (proc.impactOf node.kind = .ok node.impact)) (by
      rw [Option.any_eq_true]
      simp only [decide_eq_true_eq, Exact])

theorem inputs_references (here : proc.nodes[id]? = some node) (found : proc.references node.kind = .ok ids)
    (child : NodeId) (linked : child ∈ proc.inputs id) : child ∈ ids := by
  unfold inputs links at linked
  rw [here] at linked
  cases kindEq : node.kind with
  | call call =>
    simp only [kindEq, references, except_bind_ok_iff] at found
    obtain ⟨data, atData, same⟩ := found
    cases same
    simp only [kindEq, proc.call_ok_iff.mp atData, Option.map_some, Option.getD_some,
      Call.inputs, mem_append, mem_filterMap] at linked
    simp only [Call.references, mem_append, mem_flatMap, Option.mem_toList]
    rcases linked with (⟨arg, mem, early⟩ | late) | target
    · exact .inl ⟨arg, mem, .inl early⟩
    · unfold Call.lateNodes at late
      split at late
      · obtain ⟨index, _, found⟩ := mem_filterMap.mp late
        obtain ⟨arg, atIndex, isLate⟩ := Option.bind_eq_some_iff.mp found
        exact .inl ⟨arg, mem_of_getElem? atIndex, .inr isLate⟩
      · obtain ⟨arg, mem, isLate⟩ := mem_filterMap.mp late
        exact .inl ⟨arg, mem, .inr isLate⟩
    · exact .inr (Option.mem_toList.mp target)
  | _ =>
    simp only [kindEq] at linked found
    cases found
    exact linked

-- By induction over the nodes: what holds of no impact, and of a node's if it does so of what the node
-- refers to, holds of every cached one.
theorem exact_each (holds : Impact → Prop) (none_ : holds Impact.none)
    (union : ∀ a b, holds a → holds b → holds (a.union b)) (spans : Spans proc.inputs roots seen)
    (exact_ : ∀ id ∈ seen, proc.Exact id)
    (step : ∀ id ∈ seen, ∀ (node : Node) (ids : List NodeId) (below own : Impact), proc.nodes[id]? = some node →
      proc.references node.kind = .ok ids → proc.ownImpact node.kind = .ok own →
      ((∀ child ∈ ids, child ∈ proc.inputs id) → holds below) → holds (below.union own).closed) :
    ∀ id ∈ seen, ∀ node, proc.nodes[id]? = some node → holds node.impact := by
  refine spans.each fun id met children node here => ?_
  obtain ⟨ids, below, own, refers, atBelow, atOwn, impactEq⟩ := (exact_ id met).parts here
  rw [impactEq]
  exact step id met node ids below own here refers atOwn fun linked => proc.impactOfAll_ok holds none_
    union (fun child mem => children child (linked child mem)) atBelow

theorem exact_child {child : NodeId} (here : proc.nodes[id]? = some node)
    (exact_ : proc.Exact id) (linked : child ∈ proc.inputs id) :
    ∃ below, proc.nodes[child]? = some below ∧ below.impact.Within node.impact := by
  obtain ⟨ids, total, own, atIds, atTotal, _, impactEq⟩ := exact_.parts here
  have member := proc.inputs_references here atIds child linked
  obtain ⟨below, atBelow, within⟩ := proc.impactOfAll_within atTotal member
  refine ⟨below, atBelow, impactEq ▸ ?_⟩
  exact Impact.within_trans (Impact.within_trans within (Impact.within_union_left _ _))
    (Impact.within_closed _)

theorem exact_within (spans : Spans proc.inputs roots seen)
    (exact_ : ∀ id ∈ seen, proc.Exact id) (met : id ∈ seen) :
    ∃ root ∈ roots, ∃ above below, proc.nodes[root]? = some above ∧ proc.nodes[id]? = some below
      ∧ below.impact.Within above.impact := by
  induction spans with
  | nil => simp at met
  | cons first rest below after under _ ihUnder ihBehind =>
    obtain ⟨top, atTop, _⟩ := exact_ first (by simp)
    rcases mem_append.mp met with early | late
    · obtain ⟨child, linked, between, node, atBetween, atNode, within⟩ :=
        ihUnder (fun other mem => exact_ other (by simp [mem])) early
      obtain ⟨same, atSame, more⟩ := proc.exact_child atTop (exact_ first (by simp)) linked
      cases atBetween.symm.trans atSame
      exact ⟨first, by simp, top, node, atTop, atNode, Impact.within_trans within more⟩
    · rcases mem_cons.mp late with rfl | later
      · exact ⟨id, by simp, top, top, atTop, atTop, Impact.within_refl _⟩
      · obtain ⟨root, isRoot, rest⟩ :=
          ihBehind (fun other mem => exact_ other (by simp [mem])) later
        exact ⟨root, mem_cons_of_mem _ isRoot, rest⟩

section Node

variable (here : proc.nodes[id]? = some node)

include here

theorem exact_shows (isSign : Impact.IsSign sign) (exact_ : proc.Exact id)
    (shown : ∀ own, proc.ownImpact node.kind = .ok own → sign own = true) : sign node.impact = true := by
  obtain ⟨_, _, own, _, _, atOwn, impactEq⟩ := exact_.parts here
  rw [impactEq, isSign.ofClosed, isSign.ofUnion, shown own atOwn, Bool.or_true]

theorem exact_store (exact_ : proc.Exact id) (stores : node.kind.isStore = true) : node.effects.assigns = true :=
  proc.exact_shows here .assigns exact_ fun _ found => (proc.ownImpact_signs found).assigns.trans stores

theorem exact_exceptions_raise (exact_ : proc.Exact id)
    (some_ : node.exceptions.isEmpty = false) : node.effects.raises = true := by
  obtain ⟨same, atSame, computed⟩ := exact_
  cases here.symm.trans atSame
  obtain ⟨_, total, own, _, _, _, impactEq⟩ := proc.impactOf_ok_iff.mp computed
  change node.impact.exceptions.isEmpty = false at some_
  change node.impact.effects.raises = true
  rw [impactEq] at some_ ⊢
  apply Impact.closed_raises
  unfold Impact.closed at some_
  split at some_
  · exact some_
  · exact some_

theorem exact_assigns {root : NodeId} {top : Node} (spans : Spans proc.inputs [root] seen)
    (exact_ : ∀ id ∈ seen, proc.Exact id) (atRoot : proc.nodes[root]? = some top) (met : id ∈ seen)
    (stores : node.kind.isStore = true) : top.effects.assigns = true := by
  have assigns := proc.exact_store here (exact_ id met) stores
  obtain ⟨first, isRoot, above, below, atAbove, atBelow, within⟩ := proc.exact_within spans exact_ met
  cases mem_singleton.mp isRoot
  cases atRoot.symm.trans atAbove
  cases here.symm.trans atBelow
  exact Impact.IsSign.assigns.within within assigns

theorem exact_intConst (exact_ : proc.Exact id) (constant : node.kind.isIntConst = true) :
    node.impact = Impact.none := by
  obtain ⟨same, atSame, computed⟩ := exact_
  cases here.symm.trans atSame
  cases kindEq : node.kind with
  | intConst value =>
    rw [kindEq] at computed
    exact (Except.ok.inj computed).symm
  | _ => simp [kindEq, NodeKind.isIntConst] at constant

end Node

section Exact

variable (exact_ : ∀ id ∈ seen, proc.Exact id) (spans : Spans proc.inputs roots seen)

include exact_ spans

-- What no node shows by itself, no cache does.
theorem exact_hidden (isSign : Impact.IsSign sign)
    (hidden : ∀ id ∈ seen, ∀ node own, proc.nodes[id]? = some node → proc.ownImpact node.kind = .ok own →
      sign own = false ∧ ∀ ids, proc.references node.kind = .ok ids → ∀ child ∈ ids, child ∈ proc.inputs id) :
    ∀ id ∈ seen, ∀ node, proc.nodes[id]? = some node → sign node.impact = false := by
  refine proc.exact_each (fun impact => sign impact = false) isSign.ofNone (fun a b left right => ?_) spans exact_
    fun id met node ids below own here refers atOwn silent => ?_
  · rw [isSign.ofUnion, left, right, Bool.or_self]
  · obtain ⟨alone, linked⟩ := hidden id met node own here atOwn
    rw [isSign.ofClosed, isSign.ofUnion, silent (linked ids refers), alone, Bool.or_self]

theorem exact_sign_raises (isSign : Impact.IsSign sign)
    (own_ : ∀ kind own, kind.call? = none → proc.ownImpact kind = .ok own → sign own = true →
      own.exceptions.isEmpty = false) :
    ∀ id ∈ seen, ∀ node, proc.nodes[id]? = some node →
      sign node.impact = true → node.effects.raises = true := by
  refine proc.exact_each (fun impact => sign impact = true → impact.effects.raises = true) (by simp [isSign.ofNone])
    (fun a b left right shown => ?_) spans exact_ fun id _ node ids total own here refers atOwn covered shows => ?_
  · rw [isSign.ofUnion, Bool.or_eq_true] at shown
    exact Bool.or_eq_true_iff.mpr (shown.imp left right)
  have raised : own.exceptions.isEmpty = false → (total.union own).closed.effects.raises = true := by
    intro some_
    apply Impact.closed_raises
    refine Bool.eq_false_iff.mpr fun empty => ?_
    exact absurd ((Exceptions.union_isEmpty_iff _ _).mp empty).2 (by simp [some_])
  cases kindEq : node.kind.call? with
  | some call =>
    rw [(node.kind.call?_eq_some_iff call).mp kindEq] at atOwn
    cases atOwn
    exact raised rfl
  | none =>
    have linked := proc.inputs_of_references here kindEq refers
    rw [isSign.ofClosed, isSign.ofUnion, Bool.or_eq_true] at shows
    rcases shows with below | alone
    · exact (Impact.within_trans (Impact.within_union_left total own)
        (Impact.within_closed _)).raises (covered (fun _ mem => linked ▸ mem) below)
    · exact raised (own_ node.kind own kindEq atOwn alone)

-- A call may throw anything, and every node above it says so.
theorem exact_calls_raise (met : id ∈ seen) (here : proc.nodes[id]? = some node)
    (calls : node.effects.calls = true) : node.effects.raises = true := by
  refine proc.exact_sign_raises exact_ spans .calls (fun kind own plain found shown => ?_) id met node
    here calls
  simp [(proc.ownImpact_signs found).calls, plain] at shown

end Exact

end Procedure

end CallLowering
