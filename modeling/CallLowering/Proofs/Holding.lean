import CallLowering.Proofs.Exactness
import CallLowering.Proofs.Ledger

/-!
What a call holds on to while it is lowered: the trees of its arguments and its target. A step that
rewrites the tree of one argument is a step on everything the call holds.
-/

namespace CallLowering

open Option

open List

variable {p q : Procedure} {call : CallId} {data after : Call} {calls : CallId → Prop} {kind : NodeKind}
  {nodes : NodeId → Prop} {seen a b : List NodeId} {id child : NodeId} {ty : ValueType} {refs : List NodeId}

-- Every late node has its turn in the late order, and no cookie is left over.
structure Call.Settled (call : Call) : Prop where
  materialized : call.args.stage = .materialized
  noCookie : call.ownCookie = []
  covered : ∀ (index : Nat) (arg : Argument), call.args.args[index]? = some arg →
    arg.late.isSome = true → index ∈ call.args.lateOrder
  bounded : ∀ index ∈ call.args.lateOrder, index < call.args.args.length

namespace Call

theorem settled_references (call : Call) (settled : call.Settled) (id : NodeId)
    (referred : id ∈ call.references) : id ∈ call.owned := by
  simp only [references, mem_append, mem_flatMap, mem_toList] at referred
  simp only [owned, mem_append, mem_filterMap]
  rcases referred with ⟨arg, mem, early | late⟩ | target
  · exact .inl (.inl (.inl ⟨arg, mem, early⟩))
  · refine .inl (.inl (.inr ?_))
    obtain ⟨index, bound, rfl⟩ := getElem_of_mem mem
    have atIndex := getElem?_eq_getElem bound
    have isMaterialized : call.args.isMaterialized = true := by
      simp [ArgList.isMaterialized, settled.materialized]
    rw [lateNodes, if_pos isMaterialized]
    refine mem_filterMap.mpr ⟨index, settled.covered index _ atIndex (by rw [late]; rfl), ?_⟩
    rw [atIndex, bind_some, late]
  · exact .inr (mem_toList.mpr target)

theorem settled_inputs (call : Call) (settled : call.Settled) : call.owned = call.inputs := by
  simp [owned, inputs, settled.noCookie]

theorem settled_evaluated (call : Call) (settled : call.Settled) : call.evaluated = .ok call.inputs := by
  have isMaterialized : call.args.isMaterialized = true := by
    simp [ArgList.isMaterialized, settled.materialized]
  obtain ⟨args, found⟩ : ∃ args, call.args.lateOrder.mapM call.args.arg = .ok args := by
    have bounded := settled.bounded
    generalize call.args.lateOrder = order at bounded
    induction order with
    | nil => exact ⟨[], rfl⟩
    | cons index rest ih =>
      obtain ⟨others, found⟩ := ih fun other mem => bounded other (by simp [mem])
      have here := call.args.arg_ok_iff.mpr
        (getElem?_eq_getElem (bounded index (by simp)))
      simp only [mapM_cons, except_bind_ok_iff]
      exact ⟨_, _, here, others, found, rfl⟩
  obtain ⟨nodes, done⟩ : ∃ nodes, call.evaluated = .ok nodes := by
    simp only [evaluated, if_pos isMaterialized, except_bind_ok_iff]
    exact ⟨_, args, found, rfl⟩
  rw [done, call.evaluated_ok done]

end Call

-- The temp of an argument is one for arguments, or a copy of the argument's type to which its early
-- node stores.
def Argument.OwnsTemp (proc : Procedure) (arg : Argument) : Prop :=
  ∀ var, arg.temp = some var → proc.isArgTemp var = true
    ∨ proc.IsCopy var arg.ty ∧ ∃ store, arg.early = some store ∧ proc.storeAt store = some var

theorem Argument.OwnsTemp.kept {arg : Argument} (owns : arg.OwnsTemp p) (grown : Extends nodes calls p q) :
    arg.OwnsTemp q := by
  intro var held
  rcases owns var held with isTemp | ⟨isCopy, store, isEarly, stores⟩
  · exact .inl ((grown.isArgTemp (p.isArgTemp_bound isTemp)).trans isTemp)
  · refine .inr ⟨isCopy.kept grown, store, isEarly, ?_⟩
    obtain ⟨kind, here, _⟩ := bind_eq_some_iff.mp stores
    rw [grown.storeAt (p.kindAt_lt here), stores]

-- Below these nodes the work is finished: impacts are up to date, calls are settled, and their
-- arguments own their temps.
structure Done (proc : Procedure) (visited : List NodeId) : Prop where
  upToDate : ∀ id ∈ visited, proc.Exact id
  settled : ∀ call ∈ proc.callsIn visited, ∃ data, proc.calls[call]? = some data ∧ data.Settled
    ∧ ∀ arg ∈ data.args.args, arg.OwnsTemp proc

namespace Procedure

theorem impactOfAll_congr (p q : Procedure) {ids : List NodeId}
    (same : ∀ id ∈ ids, q.nodes[id]? = p.nodes[id]?) : q.impactOfAll ids = p.impactOfAll ids := by
  unfold impactOfAll
  generalize Impact.none = start
  induction ids generalizing start with
  | nil => rfl
  | cons id rest ih =>
    have sameNode : q.node id = p.node id := by rw [node, node, same id (by simp)]
    simp only [foldlM_cons, sameNode]
    cases p.node id with
    | error fault => rfl
    | ok node => exact ih (fun other mem => same other (by simp [mem])) _

theorem references_congr (p : Procedure) {q : Procedure}
    (same : ∀ call, kind.call? = some call → q.calls[call]? = p.calls[call]?) :
    q.references kind = p.references kind := by
  cases kind with
  | call id =>
    have sameCall : q.call id = p.call id := by rw [call, call, same id rfl]
    simp only [references, sameCall]
  | _ => rfl

theorem references_owned (proc : Procedure) (here : proc.kindAt id = some kind)
    (settled : ∀ call, proc.callAt id = some call → ∃ data, proc.calls[call]? = some data ∧ data.Settled)
    (found : proc.references kind = .ok refs) (referred : child ∈ refs) : child ∈ proc.owned id := by
  cases isCall : kind.call? with
  | none =>
    rw [proc.owned_of_kind here isCall]
    cases (proc.references_of_plain isCall).symm.trans found
    exact referred
  | some call =>
    have named : proc.callAt id = some call := (proc.callAt_eq here).trans isCall
    obtain ⟨data, atCall, settled⟩ := settled call named
    rw [proc.owned_of_call (proc.callAt_some_iff.mp named) atCall]
    apply data.settled_references settled
    cases kind with
    | call other =>
      cases isCall
      simp only [references, except_bind_ok_iff] at found
      obtain ⟨same, atSame, last⟩ := found
      cases (proc.call_ok_iff.mp atSame).symm.trans atCall
      cases last
      exact referred
    | _ => cases isCall

theorem ownImpact_frame (grown : Extends nodes calls p q) {own : Impact} (found : p.ownImpact kind = .ok own)
    (same : ∀ id ∈ kind.children, q.nodes[id]? = p.nodes[id]?) : q.ownImpact kind = .ok own := by
  have sameVar : ∀ var data, p.localVar var = .ok data → q.localVar var = .ok data := fun var data atVar =>
    q.localVar_ok_iff.mpr (grown.varKept var data (p.localVar_ok_iff.mp atVar))
  cases kind with
  | readLocal var | readField var _ | storeLocal var _ =>
    simp only [ownImpact, except_bind_ok_iff] at found ⊢
    obtain ⟨data, atVar, last⟩ := found
    exact ⟨data, sameVar var data atVar, last⟩
  | binary op lhs rhs =>
    have sameNode : q.node rhs = p.node rhs := by rw [node, node, same rhs (by simp [NodeKind.children])]
    simp only [ownImpact, sameNode] at found ⊢
    exact found
  | _ => exact found

theorem impactOf_frame (grown : Extends nodes calls p q) {impact : Impact}
    (computed : p.impactOf kind = .ok impact) (callOutside : ∀ call, kind.call? = some call → ¬ calls call)
    (outside : ∀ refs, p.references kind = .ok refs → ∀ id ∈ refs, ¬ nodes id) : q.impactOf kind = .ok impact := by
  obtain ⟨refs, below, own, atRefs, atBelow, atOwn, same⟩ := p.impactOf_ok_iff.mp computed
  have sameNodes : ∀ id ∈ refs, q.nodes[id]? = p.nodes[id]? := by
    intro id mem
    obtain ⟨node, here, _⟩ := p.impactOfAll_within atBelow mem
    exact (grown.node here (outside refs atRefs id mem)).trans here.symm
  have sameRefs := references_congr p fun call named =>
    grown.callKept call (callOutside call named)
  refine q.impactOf_ok_iff.mpr ⟨refs, below, own, sameRefs.trans atRefs,
    (impactOfAll_congr p q sameNodes).trans atBelow, ownImpact_frame grown atOwn ?_, same⟩
  intro id child
  apply sameNodes
  cases kind with
  | call id => simp [NodeKind.children] at child
  | _ =>
    cases atRefs
    exact child

end Procedure

namespace Done

variable {p q : Procedure} {roots seen : List NodeId}

theorem nil (proc : Procedure) : Done proc [] := ⟨by simp, by simp [Procedure.callsIn]⟩

theorem append (left : Done p a) (right : Done p b) : Done p (a ++ b) where
  upToDate := fun id met => (mem_append.mp met).elim (left.upToDate id) (right.upToDate id)
  settled := fun call named => by
    rw [p.callsIn_append] at named
    exact (mem_append.mp named).elim (left.settled call) (right.settled call)

theorem subset {some_ : List NodeId} (done : Done p seen) (mem : ∀ id ∈ some_, id ∈ seen) :
    Done p some_ where
  upToDate := fun id met => done.upToDate id (mem id met)
  settled := fun call named => done.settled call (filterMap_subset _ mem named)

variable (done : Done p seen) (forest : Forest p roots seen)

include done forest

theorem references (met : id ∈ seen) (here : p.kindAt id = some kind)
    (found : p.references kind = .ok refs) (referred : child ∈ refs) : child ∈ seen := by
  apply Spans.closed forest.spans met
  refine p.references_owned here (fun call named => ?_) found referred
  obtain ⟨data, atCall, settled, _⟩ := done.settled call (mem_filterMap.mpr ⟨id, met, named⟩)
  exact ⟨data, atCall, settled⟩

theorem frame (grown : Extends nodes calls p q)
    (apart : ∀ id ∈ seen, ¬ nodes id) (callsApart : ∀ call ∈ p.callsIn seen, ¬ calls call) :
    Done q seen where
  upToDate := fun id met => by
    obtain ⟨node, here, computed⟩ := done.upToDate id met
    refine ⟨node, grown.node here (apart id met), ?_⟩
    have atKind := p.kindAt_of here rfl
    apply Procedure.impactOf_frame grown computed
    · intro call named
      exact callsApart call
        (mem_filterMap.mpr ⟨id, met, (p.callAt_eq atKind).trans named⟩)
    · intro refs found child referred
      exact apart child (done.references forest met atKind found referred)
  settled := fun call named => by
    rw [grown.callsIn forest.valid] at named
    obtain ⟨data, here, settled, owns⟩ := done.settled call named
    exact ⟨data, (grown.callKept call (callsApart call named)).trans here, settled,
      fun arg mem => (owns arg mem).kept grown⟩

theorem added (grown : Adds p q) : Done q seen :=
  done.frame forest grown (fun _ _ => not_false) (fun _ _ => not_false)

theorem inputs : Spans p.inputs roots seen := by
  apply Spans.frame forest.spans
  intro id met
  obtain ⟨kind, here⟩ := p.kindAt_of_lt (forest.valid id met)
  obtain ⟨node, atNode, rfl⟩ := p.kindAt_some_iff.mp here
  unfold Procedure.inputs Procedure.owned Procedure.links
  rw [atNode]
  cases kindEq : node.kind with
  | call call =>
    have named : p.callAt id = some call := by rw [p.callAt_eq here, kindEq]; rfl
    obtain ⟨data, atCall, settled, _⟩ := done.settled call (mem_filterMap.mpr ⟨id, met, named⟩)
    simp only [kindEq, atCall, map_some, data.settled_inputs settled]
  | _ => simp only [kindEq]

end Done

theorem Edit.addNode_exact (done : addNode kind ty p = .ok id q) : q.Exact id := by
  obtain ⟨node, here, kindEq, _, computed⟩ := addNode_here done
  exact ⟨node, here, kindEq ▸ Procedure.impactOf_frame (addNode_adds done) computed
    (fun _ _ => not_false) (fun _ _ _ _ => not_false)⟩

theorem Edit.addNode_done {roots below : List NodeId} (made : addNode kind ty p = .ok id q)
    (isPlain : kind.call? = none) (under : Forest p roots below) (done : Done p below) : Done q (below ++ [id]) := by
  obtain ⟨_, here⟩ := addNode_kindAt made
  refine (done.added under (addNode_adds made)).append ⟨?_, ?_⟩
  · intro other met
    cases mem_singleton.mp met
    exact addNode_exact made
  · rw [q.callsIn_single here, isPlain]
    simp

-- The call and the trees it owns, in none of which it occurs itself.
structure Holds (proc : Procedure) (call : CallId) (data : Call) (visited : List NodeId) : Prop where
  here : proc.calls[call]? = some data
  forest : Forest proc data.owned visited
  apart : call ∉ proc.callsIn visited

theorem Call.owned_slot (data : Call) (front rest : List Argument) (arg : Argument)
    (isOpen : data.args.isMaterialized = false) :
    (data.withArgs (front ++ arg :: rest)).owned = front.filterMap Argument.early ++ arg.early.toList
        ++ (rest.filterMap Argument.early ++ front.filterMap Argument.late) ++ arg.late.toList
        ++ (rest.filterMap Argument.late ++ data.ownCookie ++ data.target.node?.toList) := by
  have stillOpen : (data.withArgs (front ++ arg :: rest)).args.isMaterialized = false := isOpen
  have sameCookie : (data.withArgs (front ++ arg :: rest)).ownCookie = data.ownCookie := rfl
  have sameTarget : (data.withArgs (front ++ arg :: rest)).target = data.target := rfl
  rw [owned, lateNodes, stillOpen, sameCookie, sameTarget]
  have argsEq : (data.withArgs (front ++ arg :: rest)).args.args = front ++ arg :: rest := rfl
  have consed : ∀ f : Argument → Option NodeId,
      (arg :: rest).filterMap f = (f arg).toList ++ rest.filterMap f := by
    intro f
    cases value : f arg <;> simp [value]
  rw [argsEq]
  simp [filterMap_append, consed]

-- The tree of an argument is rewritten to an early and a late part.
structure SlotStep (call : CallId) (p q : Procedure) (tree : List NodeId) (after : Argument)
    (early late : List NodeId) (copies : List LocalId) : Prop where
  grown : Extends (· ∈ tree) (· = call) p q
  atEarly : Forest q after.early.toList early
  atLate : Forest q after.late.toList late
  once : (early ++ late).Nodup
  carries : Carries p q tree (early ++ late) copies
  done : Done p tree → Done q (early ++ late)

-- A stretch of the way of a call: what it held in `p`, it holds rewritten in `q`.
structure Passage (call : CallId) (p q : Procedure) (data : Call) (visited visited' : List NodeId)
    (copies : List LocalId) : Prop where
  holds : Holds q call data visited'
  carries : Carries p q visited visited' copies
  grown : Extends (· ∈ visited) (· = call) p q
  done : Done p visited → Done q visited'

namespace Passage

theorem refl (holds : Holds p call data seen) : Passage call p p data seen seen [] where
  holds := holds
  carries := Carries.refl p seen
  grown := Extends.refl
  done := fun done => done

theorem trans {r : Procedure} {data' : Call} {c : List NodeId} {copies copies' : List LocalId}
    (first : Passage call p q data a b copies) (second : Passage call q r data' b c copies')
    (validA : ∀ id ∈ a, id < p.nodes.size) :
    Passage call p r data' a c (copies ++ copies') where
  holds := second.holds
  carries := first.carries.trans second.carries first.grown second.grown validA
    first.holds.forest.valid
  grown := by
    refine first.grown.trans second.grown (fun id mem bound => ?_) (fun _ same => same)
    rcases first.carries.new id mem with old | new
    · exact old
    · exact absurd bound (Nat.not_lt.mpr new)
  done := fun done => second.done (first.done done)

theorem unused (holds : Holds p call data seen) (added : Adds p q) (sameLocals : q.locals = p.locals) :
    Passage call p q data seen seen [] where
  holds := {
    here := added.calls ▸ holds.here
    forest := holds.forest.added added
    apart := by
      rw [added.callsIn holds.forest.valid]
      exact holds.apart }
  carries := Carries.still sameLocals seen
  grown := added.anywhere
  done := fun done => done.added holds.forest added

theorem relabel {seen' : List NodeId} (holds : Holds p call data seen) (set : q = p.setCall call after)
    (forest : Forest p after.owned seen') (carries : Carries p p seen seen' [])
    (subset : ∀ id ∈ seen', id ∈ seen) : Passage call p q after seen seen' [] := by
  have apart : call ∉ p.callsIn seen' := fun named => holds.apart (carries.callsIn.mem_iff.mp named)
  have outside : ∀ other ∈ p.callsIn seen', ¬ other = call := fun other named same =>
    apart (same ▸ named)
  have grown := Edit.setCall_extends set
  refine {
    holds := {
      here := Procedure.setCall_at holds.here set
      forest := forest.frame grown (fun _ _ => not_false) outside
      apart := by rwa [grown.callsIn forest.valid] }
    carries := carries.later (by rw [set]; rfl) (by rw [set]; rfl)
    grown := grown.mono (fun _ => False.elim) (fun _ same => same)
    done := fun done => ?_ }
  exact (done.subset subset).frame forest grown (fun _ _ => not_false) outside

theorem rewritten (holds : Holds p call data seen) (set : q = p.setCall call after)
    (isOpen : data.args.isMaterialized = false) (stillOpen : after.args.isMaterialized = false)
    (sameEarly : after.args.args.map Argument.early = data.args.args.map Argument.early)
    (sameLate : after.args.args.map Argument.late = data.args.args.map Argument.late)
    (sameCookie : after.ownCookie = data.ownCookie) (sameTarget : after.target = data.target) :
    Passage call p q after seen seen [] := by
  have nodes : ∀ f : Argument → Option NodeId, after.args.args.map f = data.args.args.map f →
      after.args.args.filterMap f = data.args.args.filterMap f := fun f same => by
    have filtered := congrArg (List.filterMap id) same
    rwa [filterMap_map, filterMap_map] at filtered
  have sameOwned : after.owned = data.owned := by
    rw [Call.owned, Call.owned, Call.lateNodes, Call.lateNodes, isOpen, stillOpen, nodes _ sameEarly,
      sameCookie, sameTarget, if_neg Bool.false_ne_true, if_neg Bool.false_ne_true, nodes _ sameLate]
  exact relabel holds set (sameOwned ▸ holds.forest) (Carries.refl p seen) (fun _ met => met)

end Passage

structure Holds.Around (p : Procedure) (call : CallId) (data : Call) (front rest : List Argument)
    (visited tree before between behind : List NodeId) : Prop where
  parts : visited = before ++ tree ++ between ++ behind
  atBefore : Forest p (front.filterMap Argument.early) before
  atBetween : Forest p (rest.filterMap Argument.early ++ front.filterMap Argument.late) between
  atBehind : Forest p (rest.filterMap Argument.late ++ data.ownCookie ++ data.target.node?.toList) behind
  apart : ∀ id ∈ before ++ between ++ behind, id ∉ tree
  callsApart : ∀ other ∈ p.callsIn (before ++ between ++ behind), ¬ other = call

section Slots

variable {p q : Procedure} {call : CallId} {data : Call} {front rest : List Argument}
  {arg after : Argument} {seen tree early late : List NodeId} {copies : List LocalId}

variable (holds : Holds p call (data.withArgs (front ++ arg :: rest)) seen)
  (isOpen : data.args.isMaterialized = false) (loose : arg.late = none)
  (atTree : Forest p arg.early.toList tree)

include holds isOpen loose atTree

theorem Holds.around :
    ∃ before between behind, Holds.Around p call data front rest seen tree before between behind := by
  have forest := holds.forest
  rw [data.owned_slot front rest arg isOpen, loose, toList_none, append_nil] at forest
  have parts := forest
  obtain ⟨abc, behind, rfl, parts, atBehind, _⟩ := parts.split _ _
  obtain ⟨ab, between, rfl, parts, atBetween, _⟩ := parts.split _ _
  obtain ⟨before, same, rfl, atBefore, atSame, _⟩ := parts.split _ _
  cases Spans.unique atSame.spans atTree.spans
  refine ⟨before, between, behind, rfl, atBefore, atBetween, atBehind, ?_, ?_⟩
  · intro id inOthers inTree
    have counts := nodup_iff_count_le_one.mp forest.once id
    have here := count_pos_iff.mpr inTree
    have there := count_pos_iff.mpr inOthers
    simp only [count_append] at counts there
    omega
  · rintro other inOthers rfl
    apply holds.apart
    simp only [p.callsIn_append, mem_append] at inOthers ⊢
    grind

theorem Holds.others {other : Argument} (beside : other ∈ front ++ rest) {root : NodeId}
    (isNode : other.early = some root ∨ other.late = some root) {part : List NodeId}
    (atPart : Forest p [root] part) : (∀ id ∈ part, id ∉ tree) ∧ ∀ named ∈ p.callsIn part, ¬ named = call := by
  obtain ⟨before, between, behind, around⟩ := holds.around isOpen loose atTree
  have mem : ∀ id ∈ part, id ∈ before ++ between ++ behind := by
    have within : ∀ (roots part' : List NodeId), Forest p roots part' → root ∈ roots →
        ∀ id ∈ part, id ∈ part' := fun roots part' forest isRoot =>
      Spans.root_part forest.spans isRoot atPart.spans
    intro id met
    rcases mem_append.mp beside with inFront | inRest
    · rcases isNode with isEarly | isLate
      · have := within _ _ around.atBefore (mem_filterMap.mpr ⟨other, inFront, isEarly⟩) id met
        simp [this]
      · have := within _ _ around.atBetween
          (mem_append_right _ (mem_filterMap.mpr ⟨other, inFront, isLate⟩)) id met
        simp [this]
    · rcases isNode with isEarly | isLate
      · have := within _ _ around.atBetween
          (mem_append_left _ (mem_filterMap.mpr ⟨other, inRest, isEarly⟩)) id met
        simp [this]
      · have := within _ _ around.atBehind (mem_append_left _ (mem_append_left _
          (mem_filterMap.mpr ⟨other, inRest, isLate⟩))) id met
        simp [this]
  exact ⟨fun id met => around.apart id (mem id met),
    fun named met => around.callsApart named (filterMap_subset _ mem met)⟩

theorem Holds.slot (step : SlotStep call p q tree after early late copies)
    (now : q.calls[call]? = some (data.withArgs (front ++ after :: rest)))
    (inFront : front = [] ∧ rest = [] ∨ ∀ var ∈ q.storedIn tree, var ∈ q.storedIn early) :
    ∃ seen', Passage call p q (data.withArgs (front ++ after :: rest)) seen seen' copies := by
  obtain ⟨before, between, behind, around⟩ := holds.around isOpen loose atTree
  have forest := holds.forest
  rw [data.owned_slot front rest arg isOpen, loose, toList_none, append_nil,
    around.parts] at forest
  have valid := holds.forest.valid
  have spread := forest.spread around.atBefore.spans around.atBetween.spans around.atBehind.spans
    step.grown (fun _ mem => mem) around.callsApart step.atEarly step.atLate step.once step.carries
  have inFront : between = [] ∨ ∀ var ∈ q.storedIn tree, var ∈ q.storedIn early := by
    rcases inFront with ⟨rfl, rfl⟩ | inFront
    · cases around.atBetween.spans
      exact .inl rfl
    · exact .inr inFront
  have carries := step.carries.spread before between behind inFront
  rw [← around.parts] at carries
  refine ⟨before ++ early ++ between ++ late ++ behind, ⟨now, ?_, ?_⟩, carries, ?_, ?_⟩
  · rw [data.owned_slot front rest after isOpen]
    exact spread
  · rw [carries.callsIn.mem_iff, step.grown.callsIn valid]
    exact holds.apart
  · rw [around.parts]
    exact step.grown.mono (fun id mem => by simp [mem]) (fun _ same => same)
  · intro doneBefore
    rw [around.parts] at doneBefore
    have doneAfter := step.done (doneBefore.subset fun id met => by simp [met])
    have framed : ∀ (roots part : List NodeId), Forest p roots part →
        (∀ id ∈ part, id ∈ before ++ between ++ behind) → Done q part := by
      intro roots part under mem
      refine (doneBefore.subset fun id met => ?_).frame under step.grown
        (fun id met => around.apart id (mem id met)) ?_
      · have := mem id met
        simp only [mem_append] at this ⊢
        grind
      · exact fun other named => around.callsApart other (filterMap_subset _ mem named)
    refine (((((framed _ _ around.atBefore ?_).append ?_).append
      (framed _ _ around.atBetween ?_)).append ?_).append (framed _ _ around.atBehind ?_))
    · intro id met
      simp [met]
    · exact doneAfter.subset fun id met => mem_append_left _ met
    · intro id met
      simp [met]
    · exact doneAfter.subset fun id met => mem_append_right _ met
    · intro id met
      simp [met]

end Slots

end CallLowering
