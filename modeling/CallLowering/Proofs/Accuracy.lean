import CallLowering.Proofs.LoweredProcedures
import CallLowering.Proofs.NestedCalls

/-! What cached impacts tell about a tree. -/

namespace CallLowering

open List

variable {id : NodeId} {data : Call} {proc : Procedure} {seen roots : List NodeId} {a own : Impact}
  {sign : Impact → Bool} {name : String}

namespace Exceptions

def kinds : List (Exceptions → Bool) :=
  [nullReference, indexOutOfRange, overflow, divideByZero, stackOverflow, unknown]

theorem eq_of_kinds {a b : Exceptions} (same : ∀ kind ∈ kinds, kind a = kind b) : a = b := by
  cases a
  cases b
  simpa [kinds] using same

variable {kind : Exceptions → Bool}

theorem kind_union (isKind : kind ∈ kinds) (a b : Exceptions) : kind (a.union b) = (kind a || kind b) := by
  simp only [kinds, mem_cons, not_mem_nil, or_false] at isKind
  rcases isKind with rfl | rfl | rfl | rfl | rfl | rfl <;> rfl

theorem kind_none (isKind : kind ∈ kinds) : kind none = false := by
  simp only [kinds, mem_cons, not_mem_nil, or_false] at isKind
  rcases isKind with rfl | rfl | rfl | rfl | rfl | rfl <;> rfl

def unionAll (sets : List Exceptions) : Exceptions := sets.foldr union none

theorem kind_unionAll (isKind : kind ∈ kinds) (sets : List Exceptions) :
    kind (unionAll sets) = sets.any kind := by
  induction sets with
  | nil => exact kind_none isKind
  | cons first rest ih =>
    rw [any_cons, ← ih]
    exact kind_union isKind first (unionAll rest)

end Exceptions

namespace Impact

theorem IsSign.kind (kind : Exceptions → Bool) (isKind : kind ∈ Exceptions.kinds) :
    IsSign fun impact => kind impact.exceptions :=
  ⟨Exceptions.kind_none isKind, fun a b => Exceptions.kind_union isKind a.exceptions b.exceptions,
    fun a => by unfold closed; split <;> rfl⟩

-- What is said to raise has an exception to raise.
def Warranted (impact : Impact) : Prop :=
  impact.effects.raises = true → impact.exceptions.isEmpty = false

theorem none_warranted : none.Warranted := nofun

theorem Warranted.union {b : Impact} (left : a.Warranted) (right : b.Warranted) : (a.union b).Warranted := by
  intro either
  by_contra empty
  obtain ⟨noLeft, noRight⟩ := (Exceptions.union_isEmpty_iff _ _).mp (eq_true_of_ne_false empty)
  rcases Bool.or_eq_true _ _ ▸ either with raises | raises
  · cases (left raises).symm.trans noLeft
  · cases (right raises).symm.trans noRight

theorem Warranted.closed (warranted : a.Warranted) : a.closed.Warranted := by
  unfold Impact.closed
  split
  · exact warranted
  · rename_i nonempty
    exact fun _ => eq_false_of_ne_true nonempty

end Impact

-- A walk meets whatever the call refers to.
structure Call.Open (data : Call) : Prop where
  evaluates : data.evaluated = .ok data.inputs
  meets : ∀ id ∈ data.references, id ∈ data.inputs

theorem Call.Settled.isOpen (settled : data.Settled) : data.Open where
  evaluates := data.settled_evaluated settled
  meets := fun id referred => data.settled_inputs settled ▸ data.settled_references settled id referred

theorem Call.open_of_stage (early : data.args.isMaterialized = false) : data.Open where
  evaluates := by
    simp only [Call.evaluated, Call.inputs, Call.lateNodes, early, Bool.false_eq_true, if_false]
    rfl
  meets := fun id referred => by
    simp only [Call.references, mem_append, mem_flatMap, Option.mem_toList] at referred
    simp only [Call.inputs, Call.lateNodes, early, Bool.false_eq_true, if_false, mem_append,
      mem_filterMap, Option.mem_toList]
    rcases referred with ⟨arg, mem, isEarly | isLate⟩ | target
    · exact .inl (.inl ⟨arg, mem, isEarly⟩)
    · exact .inl (.inr ⟨arg, mem, isLate⟩)
    · exact .inr target

namespace Procedure

variable {proc : Procedure} {roots seen : List NodeId} {node : Node}

theorem inputs_of_call (proc : Procedure) {call : CallId} (here : proc.kindAt id = some (.call call))
    (found : proc.calls[call]? = some data) : proc.inputs id = data.inputs := by
  obtain ⟨node, atNode, kind⟩ := proc.kindAt_some_iff.mp here
  simp only [inputs, links, atNode, kind, found, Option.map_some, Option.getD_some]

-- What a call evaluates is its own, and so is its cookie.
theorem inputs_sublist_owned (proc : Procedure) (id : NodeId) : (proc.inputs id).Sublist (proc.owned id) := by
  unfold inputs owned links
  split
  · exact List.Sublist.refl _
  · split
    · rename_i call _
      cases proc.calls[call]? with
      | none => exact List.Sublist.refl _
      | some data =>
        simp only [Option.map_some, Option.getD_some, Call.inputs, Call.owned]
        exact (sublist_append_left _ _).append (List.Sublist.refl _)
    · exact List.Sublist.refl _

def ownAt (proc : Procedure) (id : NodeId) : Impact :=
  match proc.kindAt id with
  | some kind =>
    match proc.ownImpact kind with
    | .ok own => own
    | .error _ => Impact.none
  | none => Impact.none

theorem ownAt_eq {kind : NodeKind} (here : proc.kindAt id = some kind)
    (found : proc.ownImpact kind = .ok own) : proc.ownAt id = own := by
  simp only [ownAt, here, found]

theorem Exact.shows (exact_ : proc.Exact id) : ∃ node refs below,
    proc.nodes[id]? = some node ∧ proc.references node.kind = .ok refs ∧ proc.impactOfAll refs = .ok below
      ∧ proc.ownImpact node.kind = .ok (proc.ownAt id)
      ∧ node.impact = (below.union (proc.ownAt id)).closed := by
  obtain ⟨node, here, computed⟩ := exact_
  obtain ⟨refs, below, own, atRefs, atBelow, atOwn, impactEq⟩ := proc.impactOf_ok_iff.mp computed
  have same := ownAt_eq (proc.kindAt_of here rfl) atOwn
  exact ⟨node, refs, below, here, atRefs, atBelow, same.symm ▸ atOwn, same.symm ▸ impactEq⟩

-- Every node under the roots is met once and exact, and no call of theirs keeps anything from a walk.
structure Covered (proc : Procedure) (roots visited : List NodeId) : Prop where
  spans : Spans proc.inputs roots visited
  once : visited.Nodup
  upToDate : ∀ id ∈ visited, proc.Exact id
  calls : ∀ call ∈ proc.callsIn visited, ∃ data, proc.calls[call]? = some data ∧ data.Open

namespace Covered

theorem member (covered : proc.Covered roots seen) (met : id ∈ seen) :
    ∃ part, proc.Covered [id] part ∧ part <:+: seen := by
  obtain ⟨part, spans, mem⟩ := covered.spans.member met
  refine ⟨part, ⟨spans, covered.once.sublist mem.sublist, ?_, ?_⟩, mem⟩
  · exact fun other at_ => covered.upToDate other (mem.subset at_)
  · exact fun call named => covered.calls call (filterMap_subset _ mem.subset named)

theorem links (covered : proc.Covered roots seen) (met : id ∈ seen)
    (here : proc.nodes[id]? = some node) : proc.evaluated node.kind = .ok (proc.inputs id)
      ∧ ∀ refs, proc.references node.kind = .ok refs → ∀ child ∈ refs, child ∈ proc.inputs id := by
  have atKind := proc.kindAt_of here rfl
  cases isCall : node.kind.call? with
  | none =>
    rw [proc.inputs_of_kind atKind isCall]
    have refers := proc.references_of_plain isCall
    refine ⟨?_, fun refs found child mem => ?_⟩
    · cases kind : node.kind with
      | call call => simp [kind, NodeKind.call?] at isCall
      | _ => rfl
    · cases refers.symm.trans found
      exact mem
  | some call =>
    have named := (proc.callAt_eq atKind).trans isCall
    have kind := Option.some.inj (atKind.symm.trans (proc.callAt_some_iff.mp named))
    obtain ⟨data, atCall, isOpen⟩ := covered.calls call (mem_filterMap.mpr ⟨id, met, named⟩)
    have found := proc.call_ok_iff.mpr atCall
    rw [kind, proc.inputs_of_call (proc.callAt_some_iff.mp named) atCall]
    refine ⟨?_, fun refs refers child mem => ?_⟩
    · rw [evaluated, found]
      exact isOpen.evaluates
    · rw [references, found] at refers
      cases refers
      exact isOpen.meets child mem

theorem walks (covered : proc.Covered roots seen) :
    ∃ parts, roots.mapM proc.walk = .ok parts ∧ seen = parts.flatten := by
  have known : ∀ id ∈ seen, ∃ node, proc.nodes[id]? = some node := fun id met => by
    obtain ⟨node, here, _⟩ := covered.upToDate id met
    exact ⟨node, here⟩
  apply proc.spans_mapM_walk covered.spans
  · intro id met
    obtain ⟨node, here⟩ := known id met
    exact ⟨node, here, (covered.links met here).1⟩
  · refine Nat.le_succ_of_le (length_le_of_bounded covered.once fun id met => ?_)
    obtain ⟨node, here⟩ := known id met
    exact lt_size here

theorem walk (covered : proc.Covered [id] seen) : proc.walk id = .ok seen := by
  obtain ⟨parts, walked, same⟩ := covered.walks
  simp only [mapM_cons, mapM_nil, except_bind_ok_iff] at walked
  obtain ⟨part, atRoot, _, rest, last⟩ := walked
  cases rest
  cases last
  rw [same, atRoot, flatten_singleton]

theorem shows_iff (covered : proc.Covered roots seen) (isSign : Impact.IsSign sign) :
    (∃ root ∈ roots, ∃ node, proc.nodes[root]? = some node ∧ sign node.impact = true)
      ↔ ∃ id ∈ seen, sign (proc.ownAt id) = true := by
  constructor
  · rintro ⟨root, isRoot, top, atRoot, shown⟩
    by_contra none_
    -- where no node shows it by itself, no cache does
    have hidden : ∀ id ∈ seen, ∀ node, proc.nodes[id]? = some node → sign node.impact = false := by
      refine proc.exact_hidden covered.upToDate covered.spans isSign fun id met node own here atOwn =>
        ⟨Bool.eq_false_iff.mpr fun shown => none_ ⟨id, met, ?_⟩, (covered.links met here).2⟩
      rw [ownAt_eq (proc.kindAt_of here rfl) atOwn, shown]
    exact Bool.false_ne_true ((hidden root (covered.spans.root_mem isRoot) top atRoot).symm.trans shown)
  · rintro ⟨id, met, shown⟩
    obtain ⟨root, isRoot, above, node, atRoot, atId, within⟩ := proc.exact_within covered.spans covered.upToDate met
    obtain ⟨same, _, total, atSame, _, _, _, impactEq⟩ := (covered.upToDate id met).shows
    cases atId.symm.trans atSame
    refine ⟨root, isRoot, above, atRoot, isSign.within within ?_⟩
    rw [impactEq, isSign.ofClosed, isSign.ofUnion, shown, Bool.or_true]

theorem root_shows_iff (covered : proc.Covered [id] seen)
    (here : proc.nodes[id]? = some node) (isSign : Impact.IsSign sign) :
    sign node.impact = true ↔ ∃ other ∈ seen, sign (proc.ownAt other) = true := by
  rw [← covered.shows_iff isSign]
  constructor
  · intro shown
    exact ⟨id, by simp, node, here, shown⟩
  · intro ⟨root, isRoot, same, atRoot, shown⟩
    cases mem_singleton.mp isRoot
    cases here.symm.trans atRoot
    exact shown

theorem raises_iff (covered : proc.Covered roots seen) : ∀ id ∈ seen, ∀ node, proc.nodes[id]? = some node →
    (node.effects.raises = true ↔ node.exceptions.isEmpty = false) := by
  have warranted := proc.exact_each Impact.Warranted Impact.none_warranted (fun a b left right => left.union right)
    covered.spans covered.upToDate fun id met node refs below own here atRefs atOwn fromBelow => by
      refine ((fromBelow ((covered.links met here).2 refs atRefs)).union fun raises => ?_).closed
      cases (proc.ownImpact_signs atOwn).raises.symm.trans raises
  exact fun id met node here =>
    ⟨warranted id met node here, proc.exact_exceptions_raise here (covered.upToDate id met)⟩

end Covered

-- The cached impact of a node says what the nodes visited under it do, and nothing else.
structure Tells (proc : Procedure) (id : NodeId) (node : Node) (under : List NodeId) : Prop where
  here : proc.nodes[id]? = some node
  computed : proc.impactOf node.kind = .ok node.impact
  walked : proc.walk id = .ok under
  assigns : node.effects.assigns = true
    ↔ ∃ other ∈ under, (proc.kindAt other).any NodeKind.isStore = true
  calls : node.effects.calls = true ↔ ∃ other ∈ under, (proc.callAt other).isSome = true
  ordered : node.effects.ordered = true
    ↔ ∃ other ∈ under, (proc.kindAt other).any NodeKind.isStackAlloc = true
  readsGlobal : node.effects.readsGlobal = true
    ↔ ∃ other ∈ under, (proc.ownAt other).effects.readsGlobal = true
  raises : node.effects.raises = true ↔ node.exceptions ≠ Exceptions.none
  exceptions : node.exceptions = Exceptions.unionAll (under.map fun other => (proc.ownAt other).exceptions)

def Accurate (proc : Procedure) (id : NodeId) : Prop := ∃ node under, proc.Tells id node under

theorem Covered.tells (covered : proc.Covered [id] seen) : ∃ node, proc.Tells id node seen := by
  have root : id ∈ seen := covered.spans.root_mem (by simp)
  obtain ⟨node, here, computed⟩ := covered.upToDate id root
  have signs : ∀ other ∈ seen, ∃ kind, proc.kindAt other = some kind
      ∧ kind.Signs (proc.ownAt other) := fun other met => by
    obtain ⟨data, _, _, atOther, _, _, atOwn, _⟩ := (covered.upToDate other met).shows
    exact ⟨data.kind, proc.kindAt_of atOther rfl,
      proc.ownImpact_signs atOwn⟩
  have shown := fun {sign} (isSign : Impact.IsSign sign) => covered.root_shows_iff here isSign
  refine ⟨node, here, computed, covered.walk, ?_, ?_, ?_, shown .readsGlobal, ?_, ?_⟩
  · refine (shown .assigns).trans (exists_congr fun other => and_congr_right fun met => ?_)
    obtain ⟨kind, atKind, sign⟩ := signs other met
    rw [atKind, sign.assigns, Option.any_some]
  · refine (shown .calls).trans (exists_congr fun other => and_congr_right fun met => ?_)
    obtain ⟨kind, atKind, sign⟩ := signs other met
    rw [proc.callAt_eq atKind, sign.calls]
  · refine (shown .ordered).trans (exists_congr fun other => and_congr_right fun met => ?_)
    obtain ⟨kind, atKind, sign⟩ := signs other met
    rw [atKind, sign.ordered, Option.any_some]
  · rw [covered.raises_iff id root node here, Exceptions.isEmpty, beq_eq_false_iff_ne]
  · refine Exceptions.eq_of_kinds fun kind isKind => ?_
    rw [Exceptions.kind_unionAll isKind, Bool.eq_iff_iff, any_map, any_eq_true]
    exact shown (.kind kind isKind)

theorem Covered.accurate (covered : proc.Covered roots seen) (id : NodeId) (met : id ∈ seen) :
    proc.Accurate id := by
  obtain ⟨part, under, _⟩ := covered.member met
  obtain ⟨node, tells⟩ := under.tells
  exact ⟨node, part, tells⟩

end Procedure

theorem Done.covered (done : Done proc seen) (forest : Forest proc roots seen) :
    proc.Covered roots seen where
  spans := done.inputs forest
  once := forest.once
  upToDate := done.upToDate
  calls := fun call named => by
    obtain ⟨data, here, settled, _⟩ := done.settled call named
    exact ⟨data, here, settled.isOpen⟩

theorem Holds.argumentCovered {id : CallId} (holds : Holds proc id data seen) (done : Done proc seen)
    (isOpen : data.args.isMaterialized = false) {arg : Argument} (mem : arg ∈ data.args.args)
    {root : NodeId} (isRoot : arg.early = some root ∨ arg.late = some root) :
    ∃ part, proc.Covered [root] part ∧ part <:+: seen := by
  have owned : root ∈ data.owned := by
    simp only [Call.owned, Call.lateNodes, isOpen, Bool.false_eq_true, if_false, mem_append,
      mem_filterMap]
    rcases isRoot with early | late
    · exact .inl (.inl (.inl ⟨arg, mem, early⟩))
    · exact .inl (.inl (.inr ⟨arg, mem, late⟩))
  exact (done.covered holds.forest).member (Spans.root_mem holds.forest.spans owned)

structure Procedure.Keeps (p q : Procedure) : Prop where
  node : ∀ (id : NodeId) (node : Node), p.nodes[id]? = some node → q.nodes[id]? = some node
  var : ∀ (id : LocalId) (var : LocalVar), p.locals[id]? = some var → q.locals[id]? = some var
  call : ∀ (id : CallId) (data : Call), p.calls[id]? = some data → q.calls[id]? = some data

namespace Procedure.Keeps

variable {p q : Procedure} {kind : NodeKind}

theorem ownImpact (keeps : p.Keeps q) (found : p.ownImpact kind = .ok own) : q.ownImpact kind = .ok own := by
  cases kind with
  | readLocal var | readField var _ | storeLocal var _ =>
    obtain ⟨data, here, same⟩ := except_bind_ok_iff.mp found
    exact except_bind_ok_iff.mpr
      ⟨data, q.localVar_ok_iff.mpr (keeps.var var data (p.localVar_ok_iff.mp here)), same⟩
  | binary op lhs rhs =>
    obtain ⟨divisor, here, same⟩ := except_bind_ok_iff.mp found
    exact except_bind_ok_iff.mpr
      ⟨divisor, q.node_ok_iff.mpr (keeps.node rhs divisor (p.node_ok_iff.mp here)),
        same⟩
  | _ => exact found

theorem references (keeps : p.Keeps q) {refs : List NodeId}
    (found : p.references kind = .ok refs) : q.references kind = .ok refs := by
  cases kind with
  | call call =>
    obtain ⟨data, here, same⟩ := except_bind_ok_iff.mp found
    exact except_bind_ok_iff.mpr
      ⟨data, q.call_ok_iff.mpr (keeps.call call data (p.call_ok_iff.mp here)), same⟩
  | _ => exact found

theorem impactOf (keeps : p.Keeps q) {impact : Impact}
    (computed : p.impactOf kind = .ok impact) : q.impactOf kind = .ok impact := by
  obtain ⟨refs, below, own, atRefs, atBelow, atOwn, same⟩ := p.impactOf_ok_iff.mp computed
  refine q.impactOf_ok_iff.mpr
    ⟨refs, below, own, keeps.references atRefs, ?_, keeps.ownImpact atOwn, same⟩
  rw [← atBelow]
  apply p.impactOfAll_congr q
  intro id mem
  obtain ⟨node, here, _⟩ := p.impactOfAll_within atBelow mem
  rw [keeps.node id node here, here]

theorem exact_ (keeps : p.Keeps q) (upToDate : p.Exact id) : q.Exact id := by
  obtain ⟨node, here, computed⟩ := upToDate
  exact ⟨node, keeps.node id node here, keeps.impactOf computed⟩

end Procedure.Keeps

theorem BuildStep.keeps {p q : Procedure} (step : BuildStep p q) :
    p.Keeps q ∧ ∀ id, p.nodes.size ≤ id → id < q.nodes.size → q.Exact id := by
  have pushed : ∀ {α : Type} (items : Array α) (item : α) (id : Nat) (here : α), items[id]? = some here →
      (items.push item)[id]? = some here := fun items item id here found => by
    rw [Array.getElem?_push, if_neg (Nat.ne_of_lt (lt_size found)), found]
  have made : ∀ {kind : NodeKind} {ty : ValueType} {p q : Procedure} {id : NodeId},
      Edit.addNode kind ty p = .ok id q →
      p.Keeps q ∧ ∀ id, p.nodes.size ≤ id → id < q.nodes.size → q.Exact id := fun {kind ty p q id} added => by
    have exact_ := Edit.addNode_exact added
    obtain ⟨impact, _, rfl, rfl⟩ := Edit.addNode_ok added
    refine ⟨⟨fun id node here => pushed p.nodes _ id node here, fun _ _ here => here, fun _ _ here => here⟩,
      fun id old new => ?_⟩
    have last : id = p.nodes.size := by
      have new : id < (p.nodes.push { kind, ty, impact }).size := new
      rw [Array.size_push] at new
      omega
    exact last ▸ exact_
  cases step with
  | declare ty exposed =>
    exact ⟨⟨fun _ _ here => here, fun id var here => pushed p.locals _ id var here, fun _ _ here => here⟩,
      fun id old new => absurd new (Nat.not_lt_of_le old)⟩
  | statement id =>
    exact ⟨⟨fun _ _ here => here, fun _ _ here => here, fun _ _ here => here⟩,
      fun id old new => absurd new (Nat.not_lt_of_le old)⟩
  | node kind ty id q isPlain added => exact made added
  | call spec id q added =>
    obtain ⟨keeps, exact_⟩ := made added
    exact ⟨⟨keeps.node, keeps.var, fun call data here => keeps.call call data (pushed p.calls _ call data here)⟩,
      exact_⟩

theorem Built.exact_ (built : Built { name } proc) : ∀ id < proc.nodes.size, proc.Exact id := by
  induction built with
  | refl =>
    intro id bound
    cases bound
  | tail _ step ih =>
    intro id bound
    obtain ⟨keeps, new⟩ := step.keeps
    rename_i p q _
    by_cases old : id < p.nodes.size
    · exact keeps.exact_ (ih id old)
    · exact new id (Nat.le_of_not_lt old) bound

theorem Spans.fewer {links other : Links} (spans : Spans links roots seen)
    (sub : ∀ id ∈ seen, (other id).Sublist (links id)) (some_ : List NodeId) (among : some_.Sublist roots) :
    ∃ part, Spans other some_ part ∧ part.Sublist seen := by
  induction spans generalizing some_ with
  | nil =>
    rw [sublist_nil.mp among]
    exact ⟨[], .nil, List.Sublist.refl []⟩
  | cons id rest below after _ _ ihUnder ihBehind =>
    have later := ihBehind fun other mem => sub other (by simp [mem])
    rcases sublist_cons_iff.mp among with without | ⟨others, rfl, inRest⟩
    · obtain ⟨part, spans, within⟩ := later some_ without
      exact ⟨part, spans, within.trans ((sublist_cons_self id after).trans (sublist_append_right _ _))⟩
    · obtain ⟨part, spans, within⟩ := later others inRest
      obtain ⟨under, spansUnder, withinUnder⟩ := ihUnder (fun other mem => sub other (by simp [mem])) _
        (sub id (by simp))
      exact ⟨under ++ id :: part, .cons id others under part spansUnder spans,
        withinUnder.append (within.cons_cons id)⟩

theorem Procedure.Unshared.covered (unshared : proc.Unshared seen) (built : Built { name } proc) :
    ∃ part, proc.Covered proc.statements part ∧ part.Sublist seen := by
  obtain ⟨part, spans, within⟩ := Spans.fewer unshared.spans
    (fun id _ => proc.inputs_sublist_owned id) _ (List.Sublist.refl _)
  refine ⟨part, ⟨spans, unshared.once.sublist within, ?_, ?_⟩, within⟩
  · exact fun id met => built.exact_ id (unshared.valid id (within.subset met))
  · intro call named
    obtain ⟨id, _, isCall⟩ := mem_filterMap.mp named
    obtain ⟨spec, same⟩ := built.asBuilt.calls call _
      (Array.getElem?_eq_getElem (built.asBuilt.namedCalls id call isCall))
    refine ⟨_, Array.getElem?_eq_getElem (built.asBuilt.namedCalls id call isCall), ?_⟩
    rw [same]
    exact Call.open_of_stage rfl

end CallLowering
