import CallLowering.Proofs.AddressStores
import CallLowering.Proofs.Duplicates
import CallLowering.Proofs.OutgoingSlots

/-! Late nodes without side effects. -/

namespace CallLowering

open List

variable {index : Nat} {impact : Impact} {uses : List FieldUse} {arg : Argument}

namespace Impact

-- What impacts keep as they are combined.
structure Lasting (holds : Impact → Prop) : Prop where
  none_ : holds none
  union : ∀ a b, holds a → holds b → holds (a.union b)
  closed : ∀ a, holds a → holds a.closed

-- What calls or has exceptions is said to raise.
structure Candid (impact : Impact) : Prop where
  exceptions : impact.exceptions.isEmpty = false → impact.effects.raises = true
  calls : impact.effects.calls = true → impact.effects.raises = true

theorem Candid.of_closed {a : Impact} (calls : a.effects.calls = true → a.effects.raises = true) : a.closed.Candid := by
  refine ⟨fun some_ => a.closed_raises ?_, fun shown => ?_⟩
  · by_contra none_
    rw [closed, if_pos (eq_true_of_ne_false none_)] at some_
    exact none_ some_
  · exact (within_closed a).raises (calls (IsSign.calls.ofClosed a ▸ shown))

theorem candid_lasting : Lasting Candid where
  none_ := by constructor <;> (intro shown; cases shown)
  union a b first second := by
    obtain ⟨exceptions, calls⟩ := first
    obtain ⟨exceptions', calls'⟩ := second
    have none_ := Exceptions.union_isEmpty_iff a.exceptions b.exceptions
    constructor <;> simp only [union, Effects.union] <;> grind
  closed a candid := .of_closed candid.calls

-- Nothing is called or raised, and nothing stored where `strict` asks for that.
structure Tame (strict : Prop) (impact : Impact) : Prop where
  calls : impact.effects.calls = false
  raises : impact.effects.raises = false
  exceptions : impact.exceptions.isEmpty = true
  assigns : strict → impact.effects.assigns = false

variable {strict : Prop}

theorem tame_lasting : Lasting (Tame strict) where
  none_ := ⟨rfl, rfl, rfl, fun _ => rfl⟩
  union a b first second := ⟨Bool.or_eq_false_iff.mpr ⟨first.calls, second.calls⟩,
    Bool.or_eq_false_iff.mpr ⟨first.raises, second.raises⟩,
    (Exceptions.union_isEmpty_iff _ _).mpr ⟨first.exceptions, second.exceptions⟩,
    fun asked => Bool.or_eq_false_iff.mpr ⟨first.assigns asked, second.assigns asked⟩⟩
  closed a tame := by
    rw [Impact.closed, if_pos tame.exceptions]
    exact tame

theorem Calm.tame (calm : impact.Calm) : impact.Tame strict := by
  obtain ⟨silent, none_⟩ := calm
  simp only [Effects.isSideEffect, Effects.isPersistent, Bool.or_eq_false_iff] at silent
  exact ⟨silent.1.2, silent.2, none_, fun _ => silent.1.1⟩

theorem Calm.candid (calm : impact.Calm) : impact.Candid := by
  have tame : impact.Tame True := calm.tame
  constructor
  · simp [tame.exceptions]
  · simp [tame.calls]

end Impact

namespace Procedure

def ImpactAt (holds : Impact → Prop) (proc : Procedure) (id : NodeId) : Prop :=
  ∃ node, proc.nodes[id]? = some node ∧ holds node.impact

end Procedure

namespace Impact.Lasting

variable {holds : Impact → Prop} {p q : Procedure} {kind : NodeKind}

theorem computed (lasting : Lasting holds) (plain : kind.call? = .none)
    (own : ∀ below own, p.ownImpact kind = .ok own → holds below → holds (below.union own).closed)
    (each : ∀ child ∈ kind.children, p.ImpactAt holds child)
    (computed : p.impactOf kind = .ok impact) : holds impact := by
  obtain ⟨_, below, _, refers, atBelow, atOwn, rfl⟩ := p.impactOf_ok_iff.mp computed
  cases refers.symm.trans (p.references_of_plain plain)
  refine own below _ atOwn (p.impactOfAll_ok holds lasting.none_ lasting.union (fun child mem node here => ?_) atBelow)
  obtain ⟨same, atSame, one⟩ := each child mem
  cases here.symm.trans atSame
  exact one

theorem list (lasting : Lasting holds) (each : ∀ use ∈ uses, p.ImpactAt holds use.node)
    (computed : p.impactOf (.fieldList uses) = .ok impact) : holds impact := by
  refine lasting.computed rfl (fun below own found holds => ?_) (fun child mem => ?_) computed
  · cases found
    exact lasting.closed _ (lasting.union _ _ holds lasting.none_)
  · obtain ⟨use, inUses, rfl⟩ := mem_map.mp mem
    exact each use inUses

theorem durable (lasting : Lasting holds) (leaf : ∀ impact : Impact, impact.Calm → holds impact) :
    Durable (Procedure.ImpactAt holds) where
  kept := by
    rintro p q nodes calls id ⟨node, here, holds⟩ grown changed
    by_cases mem : nodes id
    · exact changed id mem
    · exact ⟨node, grown.node here mem, holds⟩
  reread := by
    intro p q kind ty id mentions added
    obtain ⟨node, here, _, _, computed⟩ := Edit.addNode_here added
    refine ⟨node, here, leaf _ (Procedure.calm_leaf ?_ computed)⟩
    cases kind with
    | readLocal | readField | localAddr => rfl
    | _ => cases mentions
  list := by
    intro p q uses ty id added each
    obtain ⟨node, here, _, _, computed⟩ := Edit.addNode_here added
    exact ⟨node, here, lasting.list each computed⟩
  relist := by
    intro p q uses ty id replaced _ each
    obtain ⟨impact, old, computed, atOld, rfl⟩ := Edit.replaceNode_ok replaced
    exact ⟨_, Array.getElem?_setIfInBounds_self_of_lt (lt_size atOld),
      lasting.list (fun use mem => (each use mem).1) computed⟩

end Impact.Lasting

namespace Procedure

variable {proc : Procedure} {value : NodeId} {node : Node}

abbrev CandidAt := ImpactAt Impact.Candid

theorem candid_durable : Durable CandidAt := Impact.candid_lasting.durable fun _ => Impact.Calm.candid

theorem ExactUnder.candid (exact_ : proc.ExactUnder value) :
    ∃ node, proc.nodes[value]? = some node ∧ node.impact.Candid
      ∧ (node.kind.call? = none → ∀ child ∈ node.kind.children, proc.CandidAt child) := by
  obtain ⟨seen, walked, each⟩ := exact_
  have spans := proc.walk_spans walked
  have candid (id : NodeId) (met : id ∈ seen) : proc.CandidAt id := by
    obtain ⟨node, here, _⟩ := each id met
    exact ⟨node, here, proc.exact_exceptions_raise here (each id met), proc.exact_calls_raise each spans met here⟩
  have met := proc.root_visited walked
  obtain ⟨node, here, atValue⟩ := candid value met
  refine ⟨node, here, atValue, fun plain child mem => candid child (spans.closed met ?_)⟩
  rwa [inputs, proc.links_of_plain Call.inputs here plain]

end Procedure

namespace Edit

variable {p q : Procedure} {kind : NodeKind} {ty : ValueType} {id : NodeId}

theorem addNode_candid (added : addNode kind ty p = .ok id q) (plain : kind.call? = none)
    (each : ∀ child ∈ kind.children, p.CandidAt child) : q.CandidAt id := by
  obtain ⟨node, here, _, _, computed⟩ := addNode_here added
  refine ⟨node, here, Impact.candid_lasting.computed plain
    (fun below own found candid => .of_closed fun calls => ?_) each
    computed⟩
  have calls : below.effects.calls = true := by
    simpa [Impact.union, Effects.union, (p.ownImpact_signs found).calls, plain] using calls
  exact (Impact.within_union_left below own).raises (candid.calls calls)

theorem Cloned.candid {depth : Nat} {copy : Option NodeId} (cloned : Cloned depth id p copy q) {top : NodeId}
    (isCopy : copy = some top) : q.CandidAt top := by
  induction cloned generalizing top with
  | raising | noLeft | noRight | other => cases isCopy
  | arithmetic _ _ _ _ right made ihLeft ihRight =>
    cases isCopy
    refine addNode_candid made rfl fun child mem => ?_
    rcases mem_pair.mp mem with rfl | rfl
    · exact Procedure.candid_durable.still right.adds (ihLeft rfl)
    · exact ihRight rfl
  | leaf _ isLeaf made =>
    cases isCopy
    obtain ⟨found, atCopy, _, _, computed⟩ := addNode_here made
    exact ⟨found, atCopy, (Procedure.calm_leaf isLeaf computed).candid⟩

end Edit

namespace Shape

open Edit

variable {p q : Procedure} {id : CallId} {kind : NodeKind} {pieces : List Piece} {addr base list : NodeId}
  {nonFaulting : Bool}

theorem fieldAddr_candid {offset : Nat} (candid : p.CandidAt base) (done : fieldAddr base offset p = .ok addr q) :
    q.CandidAt addr := by
  unfold fieldAddr at done
  split at done
  · obtain ⟨rfl, rfl⟩ := pure_ok_iff.mp done
    exact candid
  · obtain ⟨amount, m, first, second⟩ := bind_ok_iff.mp done
    refine addNode_candid second rfl fun child mem => ?_
    rcases mem_pair.mp mem with rfl | rfl
    · exact Procedure.candid_durable.still (addNode_adds first) candid
    · exact addNode_candid first rfl (by simp [NodeKind.children])

theorem loadPiece_candid {piece : Piece} {field : FieldUse} (candid : p.CandidAt base)
    (done : loadPiece id base nonFaulting index piece p = .ok field q) : q.CandidAt field.node := by
  obtain ⟨start, m, addr, m', from_, atAddr, added, _⟩ := loadPiece_ok done
  have candid : m.CandidAt start := by
    rcases from_ with ⟨_, rfl, rfl⟩ | ⟨_, cloned⟩
    · exact candid
    · exact (cloneSimple_cloned cloned).candid rfl
  refine addNode_candid added rfl fun child mem => ?_
  cases mem_singleton.mp mem
  exact fieldAddr_candid candid atAddr

theorem loadPieces_candid (candid : p.CandidAt base)
    (done : (pieces.zipIdx.mapM (fun (piece, index) => loadPiece id base nonFaulting index piece) :
      Attempt (List FieldUse)) p = .ok uses q) : Adds p q ∧ ∀ use ∈ uses, q.CandidAt use.node := by
  obtain ⟨grown, uses, rfl, each, _⟩ := mapM_adds (fun use : FieldUse => use) (fun _ q _ use => q.CandidAt use.node)
    (fun _ _ => True) (fun _ _ u _ v reached ran =>
      ⟨loadPiece_adds ran, _, rfl, loadPiece_candid (Procedure.candid_durable.still reached candid) ran⟩)
    (fun _ _ _ _ _ _ _ one back => Procedure.candid_durable.still back one) (fun _ _ _ _ _ _ _ _ _ => trivial)
    Extends.refl done
  refine ⟨grown, fun use mem => ?_⟩
  rw [map_id'] at mem
  obtain ⟨_, _, one⟩ := forall₂_partner each.flip mem
  exact one

theorem loadFields_candid (candid : p.CandidAt addr) (done : loadFields id addr nonFaulting pieces p = .ok list q) :
    q.CandidAt list := by
  obtain ⟨hoisted, base, m, uses, m', fields, atBase, atUses, last⟩ := loadFields_ok done
  obtain ⟨_, _, ⟨_, rfl, rfl, rfl⟩ | ⟨_, temp, store, n, n', atTemp, atStore, atRead, rfl⟩⟩ := hoistAddr_ok atBase
  · obtain ⟨_, candid⟩ := loadPieces_candid candid atUses
    rcases last with ⟨_, rfl, added⟩ | ⟨_, _, none_, _⟩
    · exact Procedure.candid_durable.list added candid
    · cases none_
  · have kept := Procedure.candid_durable.still (addLocal_adds atTemp) candid
    have atStore : n'.CandidAt store := addNode_candid atStore rfl (by simpa [NodeKind.children] using kept)
    obtain ⟨grown, candid⟩ := loadPieces_candid (Procedure.candid_durable.reread rfl atRead) atUses
    rcases last with ⟨none_, _⟩ | ⟨_, n'', same, added, joined⟩
    · cases none_
    · cases same
      refine addNode_candid joined rfl fun child mem => ?_
      rcases mem_pair.mp mem with rfl | rfl
      · exact Procedure.candid_durable.still (((addNode_adds atRead).trans grown).trans (addNode_adds added)) atStore
      · exact Procedure.candid_durable.list added candid

theorem TakenApart.plain (taken : TakenApart id pieces p list q kind) : kind.call? = none := by
  cases taken with
  | reads _ _ _ isRead => rcases isRead with ⟨rfl, _⟩ | rfl <;> rfl
  | loads => rfl

theorem TakenApart.candid (taken : TakenApart id pieces p list q kind)
    (each : ∀ child ∈ kind.children, p.CandidAt child) : q.CandidAt list := by
  cases taken with
  | reads _ _ _ _ done => exact Procedure.candid_durable.localFields done
  | loads addr _ done => exact loadFields_candid (each addr (mem_singleton_self addr)) done

-- What shaping makes of an argument whose value was exact.
structure LeftCandid (proc : Procedure) (arg after : Argument) : Prop where
  role : after.role = arg.role
  placement : after.placement = arg.placement
  flags : after.flags.needsPlace = arg.flags.needsPlace
  copied : after.late.isSome = true → after.early.isSome = true
  value : after.late = none → ∀ value, after.early = some value → proc.ImpactAt Impact.Candid value

theorem shapeArgs_candid {settings : Settings} {s t : LoweringState} {data : Call}
    (here : s.proc.calls[id]? = some data) (loose : ∀ arg ∈ data.args.args, arg.late = none)
    (values : ∀ arg ∈ data.args.args, ∀ value, arg.early = some value → s.proc.ExactUnder value)
    (done : shapeArgs settings id s = .ok () t) :
    ∃ args, t.proc.calls[id]? = some (data.withArgs args) ∧ List.Forall₂ (LeftCandid t.proc) data.args.args args := by
  have run := shapeArgs_each (fun arg after proc => arg.late = none →
    (∀ value, arg.early = some value → s.proc.ExactUnder value) → LeftCandid proc arg after) here ?_ ?_ done
  · obtain ⟨_, args, atEnd, sameLength, each⟩ := run
    refine ⟨args, atEnd, List.forall₂_iff_get.mpr ⟨sameLength.symm, fun index inData inArgs => ?_⟩⟩
    obtain ⟨after, atAfter, left⟩ := each index _ (getElem?_eq_getElem inData)
    obtain ⟨_, rfl⟩ := List.getElem?_eq_some_iff.mp atAfter
    exact left (loose _ (List.getElem_mem _)) (values _ (List.getElem_mem _))
  · intro index arg after data u v grown here atIndex ran atEnd shaped loose exact_
    cases shapeArg_by here atIndex ran with
    | unchanged _ same =>
      subst same
      cases Call.slot_inj atIndex atEnd (by rw [Call.withArgs_set atIndex, here])
      refine ⟨rfl, rfl, rfl, by simp [loose], fun _ value early => ?_⟩
      obtain ⟨node, atValue, candid, _⟩ := (exact_ value early).candid
      exact ⟨node, grown.node atValue not_false, candid⟩
    | apart value node _ _ _ _ _ fits _ taken set same =>
      subst same
      cases Call.slot_inj atIndex atEnd (modifyArg_slot (taken.adds.calls ▸ here) atIndex set)
      refine ⟨rfl, rfl, rfl, by simp [loose], fun _ value early => ?_⟩
      cases early
      obtain ⟨old, atOld, _, below⟩ := (exact_ _ fits.early).candid
      cases fits.here.symm.trans (grown.node atOld not_false)
      exact Procedure.candid_durable.still (modifyArg_extends set) (taken.candid fun child mem =>
        Procedure.candid_durable.still grown (below taken.plain child mem))
    | copied _ _ _ _ _ _ _ _ _ _ _ taken stored passes set same =>
      subst same
      have added := ((Step.structCopy_adds taken).trans (addNode_adds stored)).trans passes.adds
      cases Call.slot_inj atIndex atEnd (modifyArg_slot (added.calls ▸ here) atIndex set)
      exact ⟨rfl, rfl, rfl, fun _ => rfl, fun none_ => by cases none_⟩
  · intro p q arg after grown left loose exact_
    refine { left loose exact_ with value := fun none_ value early => ?_ }
    obtain ⟨node, atValue, candid⟩ := (left loose exact_).value none_ value early
    exact ⟨node, grown.node atValue not_false, candid⟩

end Shape

namespace Interference.Analysis

variable {settings : Settings} {proc : Procedure} {data : Call} {marks : List Mark}

theorem pinned_of_dispatch (analysis : Analysis settings proc data marks) (guarded : isGuarded settings data = true) :
    ∃ this, data.args.thisIndex = some this ∧ ∀ (index : Nat) (profile : Profile),
      analysis.list[index]? = some profile → profile.arg.value.isSome = true →
      index = this ∨ profile.arg.effects.isSideEffect = true → analysis.pinned[index]? = some true := by
  have dispatches := analysis.dispatches
  rw [if_pos guarded] at dispatches
  obtain ⟨this, atThis, same⟩ := dispatches
  refine ⟨this, atThis, fun index profile here hasValue asks => ?_⟩
  have asked : analysis.dispatched[index]? = some true := by
    rw [same, dispatchRequests, getElem?_map, getElem?_zipIdx, here]
    simpa using asks
  exact (analysis.pinned_reached.2 index).mpr
    ⟨profile, here, hasValue, .inl ((analysis.requested_iff index).mpr (.inr (.inr asked)))⟩

-- Arguments are pushed, and the call has one on the stack.
structure Pushes (settings : Settings) (data : Call) : Prop where
  pushed : settings.target.fixedOut = false
  whole : settings.target.splitNeedsPlace = false
  strict : settings.target.faultRule = .raises
  hasStack : data.args.hasStackArgs = true

-- Where stores are kept out of the late list as well.
def Storeless (settings : Settings) (data : Call) : Prop :=
  isGuarded settings data = true ∨ 1 < data.args.size ∨ ∀ arg ∈ data.args.args, arg.placement.hasReg = false

theorem moved_tame (analysis : Analysis settings proc data marks) {mark : Mark}
    {value : NodeId} (atArg : data.args.args[index]? = some arg) (early : arg.early = some value)
    {node : Node} (atNode : proc.nodes[value]? = some node) (candid : node.impact.Candid)
    (atMark : marks[index]? = some mark) (unpinned : mark.pinned = false)
    (deferred : arg.placement.hasReg = true ∨ mark.placed = true)
    (strict : isGuarded settings data = true ∨ Pushes settings data) : node.impact.Tame (Storeless settings data) := by
  obtain ⟨profile, here, described, _⟩ := analysis.profile_at atArg
  obtain ⟨same, atSame, atPinned, atPlaced⟩ := analysis.mark_at here
  cases atMark.symm.trans atSame
  rw [unpinned] at atPinned
  obtain ⟨_, found, sameEffects, _⟩ := described.node value early
  cases atNode.symm.trans found
  have hasValue : profile.arg.value.isSome = true := by rw [described.value, early, Option.isSome_some]
  have silent (guarded : isGuarded settings data = true) :
      node.effects.assigns = false ∧ node.effects.raises = false := by
    obtain ⟨_, _, asks⟩ := analysis.pinned_of_dispatch guarded
    have acts : node.effects.isSideEffect = false := by
      by_contra acts
      have pinned := asks index profile here hasValue (.inr (sameEffects ▸ eq_true_of_ne_false acts))
      cases atPinned.symm.trans pinned
    simp only [Effects.isSideEffect, Effects.isPersistent, Bool.or_eq_false_iff] at acts
    exact ⟨acts.1.1, acts.2⟩
  have inReg (pushes : Pushes settings data) : arg.placement.hasReg = true := by
    refine deferred.resolve_right fun placed => ?_
    rw [placed] at atPlaced
    obtain ⟨_, _, _, risk, _⟩ := (placesFrom_true_iff).mp atPlaced
    simp [slotAtRisk, rules, pushes.pushed, pushes.whole] at risk
  have raises : node.effects.raises = false := by
    rcases strict with guarded | pushes
    · exact (silent guarded).2
    · by_contra raises
      have pinned := analysis.pinned_of_fault pushes.hasStack pushes.strict here (described.value.trans early)
        (described.inReg.trans (inReg pushes)) atNode (eq_true_of_ne_false raises)
      cases atPinned.symm.trans pinned
  have unraised {fact : Prop} (shown : fact → node.effects.raises = true) : ¬ fact := fun holds =>
    Bool.false_ne_true (raises.symm.trans (shown holds))
  refine ⟨eq_false_of_ne_true (unraised candid.calls), raises, eq_true_of_ne_false (unraised candid.exceptions), ?_⟩
  rintro (guarded | several | noReg)
  · exact (silent guarded).1
  · have assigns := analysis.late_assigns_nothing here described hasValue several (atPinned.trans (by rw [unpinned]))
      atPlaced unpinned deferred
    rwa [sameEffects] at assigns
  · rcases strict with guarded | pushes
    · exact (silent guarded).1
    · cases (inReg pushes).symm.trans (noReg arg (mem_of_getElem? atArg))

abbrev TameAt (settings : Settings) (data : Call) : Procedure → NodeId → Prop :=
  Procedure.ImpactAt (Impact.Tame (Storeless settings data))

theorem Storeless.shaped {args : List Argument} (asked : Storeless settings data)
    (left : List.Forall₂ (Shape.LeftCandid proc) data.args.args args) : Storeless settings (data.withArgs args) := by
  refine asked.imp_right (Or.imp (fun several => ?_) fun noReg arg mem => ?_)
  · exact Nat.lt_of_lt_of_eq several left.length_eq
  · obtain ⟨before, inData, one⟩ := forall₂_partner left.flip mem
    exact one.placement ▸ noReg before inData

end Interference.Analysis

open Interference

namespace Passed

variable {settings : Settings} {id : CallId} {order : List Nat} {data : Call} {args : List Argument} {p m q : Procedure}
  (passed : Passed settings id order (data.withArgs args) p m q)
  (left : List.Forall₂ (Shape.LeftCandid p) data.args.args args)

include left

theorem late_tame (unplaced : ∀ arg ∈ data.args.args, arg.flags.needsPlace = false)
    (strict : isGuarded settings data = true ∨ Analysis.Pushes settings data)
    (kept : ∀ node, Analysis.TameAt settings data p node → Analysis.TameAt settings data q node)
    (reads : passed.after.ReadsBack (Analysis.TameAt settings data) q) (mem : arg ∈ passed.after.args.args)
    {late : NodeId} (isLate : arg.late = some late) : Analysis.TameAt settings data q late := by
  obtain ⟨index, atLast⟩ := mem_iff_getElem?.mp mem
  have bound : index < args.length := Nat.lt_of_lt_of_eq (List.getElem?_eq_some_iff.mp atLast).1 passed.sameSize
  have atArg := List.getElem?_eq_getElem bound
  obtain ⟨mark, _, atMark, atSame, settled⟩ := passed.slots index _ atArg
  cases atLast.symm.trans atSame
  obtain ⟨before, inData, one⟩ := forall₂_partner left.flip (getElem_mem bound)
  cases settled with
  | ready isReady => exact reads _ mem (one.copied isReady) late isLate
  | pinned => exact reads _ mem rfl late isLate
  | moved value has loose unmarked deferred =>
    cases isLate
    simp only [applyMark, Bool.or_eq_true, Bool.or_eq_false_iff, one.flags, unplaced before inData] at unmarked deferred
    obtain ⟨node, atNode, candid⟩ := one.value loose _ has
    have tame := passed.analysis.moved_tame atArg has atNode candid atMark unmarked.2 (by simpa using deferred)
      (strict.imp_right fun pushes => { pushes with })
    exact kept _ ⟨node, atNode, { tame with assigns := fun asked => tame.assigns (asked.shaped left) }⟩
  | kept _ _ loose => cases loose.symm.trans isLate

theorem this_in_both (guarded : isGuarded settings data = true) :
    ∃ index this, data.args.thisIndex = some index ∧ passed.after.args.args[index]? = some this
      ∧ this.early.isSome = true ∧ this.late.isSome = true := by
  obtain ⟨index, atThis, asks⟩ := passed.analysis.pinned_of_dispatch guarded
  have sameThis : (data.withArgs args).args.thisIndex = data.args.thisIndex := by
    have roles : args.map Argument.role = data.args.args.map Argument.role :=
      List.forall₂_eq_eq_eq ▸ List.forall₂_map_left_iff.mpr (List.forall₂_map_right_iff.mpr
        (left.flip.imp fun _ _ one => one.role))
    rw [ArgList.thisIndex, ArgList.findRole_eq, ArgList.thisIndex, ArgList.findRole_eq, ← roles]
    rfl
  obtain ⟨bound, _⟩ := findIdx?_eq_some_iff_getElem.mp atThis
  have atArg := getElem?_eq_getElem bound
  obtain ⟨mark, last, atMark, atLast, settled⟩ := passed.slots index _ atArg
  refine ⟨index, last, sameThis ▸ atThis, atLast, ?_⟩
  have pinned (value : NodeId) (has : (data.withArgs args).args.args[index].early = some value) :
      mark.pinned = true := by
    obtain ⟨profile, atProfile, described, _⟩ := passed.analysis.profile_at atArg
    obtain ⟨_, atSame, atPinned, _⟩ := passed.analysis.mark_at atProfile
    cases atMark.symm.trans atSame
    have asked := asks index profile atProfile (by rw [described.value, has, Option.isSome_some]) (.inl rfl)
    exact Option.some.inj (atPinned.symm.trans asked)
  cases settled with
  | ready isReady =>
    obtain ⟨_, _, one⟩ := forall₂_partner left.flip (getElem_mem bound)
    exact ⟨one.copied isReady, isReady⟩
  | pinned => exact ⟨rfl, rfl⟩
  | moved value has _ unmarked => simp [applyMark, pinned value has] at unmarked
  | kept value has _ unmarked => simp [applyMark, pinned value has] at unmarked

end Passed

-- Arguments that are pushed, as on x86, and a checked dispatch leave nothing for the late list that calls or
-- raises, and nothing that stores unless the call has a single argument with a part in a register and is not
-- checked. A checked dispatch has `this` in both lists.
theorem late_nodes_without_side_effects (triple : Triple) (settings : Settings) (cost : CostModel) (id : CallId)
    (order : List Nat) (data : Call) (s t : LoweringState) (p q r : Procedure)
    (shipped : settings.target = Target.ofTriple triple) (here : s.proc.calls[id]? = some data)
    (fresh : ∀ arg ∈ data.args.args, arg.late = none ∧ arg.flags.needsPlace = false)
    (values : ∀ arg ∈ data.args.args, ∀ value, arg.early = some value → s.proc.ExactUnder value)
    (strict : triple.architecture = .x86 ∧ data.args.hasStackArgs = true ∨ isGuarded settings data = true)
    (shapes : Shape.shapeArgs settings id s = .ok () t) (completes : complete settings id t.proc = .ok () p)
    (schedules : Schedule.schedule cost id p = .ok order q)
    (settles : Materialize.materialize settings id order q = .ok () r) :
    ∃ after, r.calls[id]? = some after
      ∧ (∀ arg ∈ after.args.args, ∀ late, arg.late = some late →
        ∃ node, r.nodes[late]? = some node ∧ node.effects.calls = false ∧ node.effects.raises = false
          ∧ (isGuarded settings data = true ∨ 1 < data.args.size
              ∨ (∀ arg ∈ data.args.args, arg.placement.hasReg = false) →
            node.effects.assigns = false))
      ∧ (isGuarded settings data = true → ∃ index this, data.args.thisIndex = some index
        ∧ after.args.args[index]? = some this ∧ this.early.isSome = true ∧ this.late.isSome = true) := by
  have loose : ∀ arg ∈ data.args.args, arg.late = none := fun arg inside => (fresh arg inside).1
  obtain ⟨args, atShaped, left⟩ := Shape.shapeArgs_candid here loose values shapes
  obtain ⟨passed⟩ := passed atShaped completes schedules settles
  obtain ⟨kept, after, atEnd, reads⟩ := (Impact.tame_lasting.durable fun _ => Impact.Calm.tame).lowered here loose
    shapes completes schedules settles
  cases passed.atEnd.symm.trans atEnd
  have strict : isGuarded settings data = true ∨ Analysis.Pushes settings data := by
    rcases strict with ⟨isX86, hasStack⟩ | guarded
    · obtain ⟨architecture, os⟩ := triple
      cases isX86
      exact .inr ⟨by rw [shipped]; rfl, by rw [shipped]; rfl, by rw [shipped]; rfl, hasStack⟩
    · exact .inl guarded
  refine ⟨passed.after, passed.atEnd, fun arg inside late isLate => ?_, passed.this_in_both left⟩
  obtain ⟨node, atNode, tame⟩ := passed.late_tame left (fun arg inside => (fresh arg inside).2) strict kept reads
    inside isLate
  exact ⟨node, atNode, tame.calls, tame.raises, tame.assigns⟩

def storesFirst (flags : CallFlags) (args : List Argument) : Procedure where
  name := "stores"
  nodes := #[⟨.intConst 5, .i32, {}⟩, ⟨.storeLocal 0 0, .void, { effects := { assigns := true } }⟩,
    ⟨.intConst 7, .i32, {}⟩, ⟨.comma 1 2, .i32, { effects := { assigns := true } }⟩, ⟨.call 0, .void, {}⟩]
  locals := #[{ ty := .i32 }]
  calls := #[{ target := .method "callee", flags, returnType := .void
               args := { args, stage := .finalized, hasStackArgs := true, stackSize := 4 } }]
  statements := [4]

def inRegister : Placement := { segments := [⟨.reg (.int 1), 0, 4⟩] }

def pushed : Placement := { segments := [⟨.stack 0, 0, 4⟩] }

def checking : Settings := { target := .ofTriple ⟨.x64, .windows⟩, options := { guardDispatch := true } }

def storesThis : Procedure :=
  storesFirst { virtualVtable := true }
    [{ early := some 3, role := .thisPointer, ty := .i32, placement := inRegister },
      { early := some 0, ty := .i32, placement := pushed }]

theorem checked_this_in_both : ∃ (r : Procedure) (after : Call) (this : Argument),
    r.calls[0]? = some after ∧ after.args.args[0]? = some this ∧ this.early.isSome = true ∧ this.late.isSome = true
      ∧ ∀ arg ∈ after.args.args, ∀ late, arg.late = some late →
        ∃ node : Node, r.nodes[late]? = some node ∧ node.effects.calls = false ∧ node.effects.raises = false
          ∧ node.effects.assigns = false := by
  obtain ⟨after, atEnd, tame, both⟩ := late_nodes_without_side_effects ⟨.x64, .windows⟩ checking Cost.tree 0 [0, 1] _
    { proc := storesThis } _ _ _ _ rfl rfl (by decide +kernel) (by decide +kernel) (.inr rfl)
    (ok_of_answerOf _ () (by decide +kernel)) (ok_of_answerOf _ () (by decide +kernel))
    (ok_of_answerOf _ _ (by decide +kernel)) (ok_of_answerOf _ () (by decide +kernel))
  obtain ⟨index, this, atThis, atLast, early, late⟩ := both rfl
  cases atThis
  refine ⟨_, after, this, atEnd, atLast, early, late, fun arg inside node isLate => ?_⟩
  obtain ⟨found, atNode, calls, raises, assigns⟩ := tame arg inside node isLate
  exact ⟨found, atNode, calls, raises, assigns (.inl rfl)⟩

-- An argument split between a register and the stack, one that is marked to wait for its slot, and one that
-- is late from the start.
def lateStores : List Argument := [
  { early := some 3, ty := .i32, placement := { segments := [⟨.reg (.int 1), 0, 2⟩, ⟨.stack 0, 2, 2⟩] } },
  { early := some 3, ty := .i32, placement := pushed, flags := { needsPlace := true } },
  { late := some 3, ty := .i32, placement := pushed }]

-- As the only argument of a call on x86, each of them leaves its store to the late list.
theorem store_left_late : lateStores.Forall fun arg => (storesFirst {} [arg]).ExactUnder 3
    ∧ ∃ (outcome : Lowering.Outcome) (data : Call) (last : Argument) (node : Node),
      (storesFirst {} [arg]).lower { target := .ofTriple ⟨.x86, .linux⟩ } Transform.identity = .ok outcome
      ∧ outcome.refusal = none ∧ outcome.proc.calls[0]? = some data ∧ data.args.args[0]? = some last
      ∧ last.late = some 3 ∧ outcome.proc.nodes[3]? = some node ∧ node.effects.assigns = true := by
  have checked : ∀ arg ∈ lateStores, (storesFirst {} [arg]).ExactUnder 3
      ∧ ((storesFirst {} [arg]).lower { target := .ofTriple ⟨.x86, .linux⟩ } Transform.identity).toOption.any
        (fun outcome : Lowering.Outcome => outcome.refusal.isNone
          && (outcome.proc.calls[0]?.any fun data : Call => data.args.args[0]?.any fun last : Argument =>
            last.late == some 3)
          && outcome.proc.nodes[3]?.any fun node : Node => node.effects.assigns) = true := by
    decide +kernel
  refine forall_iff_forall_mem.mpr fun arg inside => ?_
  obtain ⟨exact_, lowers⟩ := checked arg inside
  obtain ⟨outcome, done, checks⟩ := except_ok_of_any _ _ lowers
  simp only [Bool.and_eq_true, Option.isNone_iff_eq_none, Option.any_eq_true, beq_iff_eq] at checks
  obtain ⟨⟨unrefused, data, here, last, atLast, isLate⟩, node, atNode, stores⟩ := checks
  exact ⟨exact_, outcome, data, last, node, done, unrefused, here, atLast, isLate, atNode, stores⟩

end CallLowering
