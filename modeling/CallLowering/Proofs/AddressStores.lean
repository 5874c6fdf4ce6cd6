import CallLowering.Proofs.RaisingOrder
import CallLowering.Proofs.Verifying

/-! Stores through the address of a local. The analysis knows the locals that a value stores to by name. -/

namespace CallLowering

open List

variable {var : LocalId} {index k later : Nat} {other : NodeId} {profile : Profile}

namespace Procedure

def StoresThrough (proc : Procedure) (root : NodeId) (var : LocalId) : Prop :=
  ∃ nodes, proc.visited root = .ok nodes
    ∧ ∃ node ∈ nodes, ∃ addr value, node.kind = .storeInd addr value
      ∧ proc.kindAt addr = some (.localAddr var)

section Exact

variable {proc : Procedure} {root : NodeId} {top : Node}

section Root

variable (exact_ : proc.ExactUnder root) (atRoot : proc.nodes[root]? = some top)

include exact_ atRoot

theorem ExactUnder.covers {nodes : List Node} (collected : proc.visited root = .ok nodes) {node : Node}
    (mem : node ∈ nodes) : ∃ own, proc.ownImpact node.kind = .ok own ∧ own.Within top.impact := by
  obtain ⟨seen, walked, each⟩ := exact_
  simp only [Procedure.visited, walked, except_bind_ok_iff] at collected
  obtain ⟨_, same, collected⟩ := collected
  cases same
  cases collected
  obtain ⟨id, met, here⟩ := mem_filterMap.mp mem
  obtain ⟨first, isRoot, above, below, atAbove, atBelow, within⟩ :=
    proc.exact_within (proc.walk_spans walked) each met
  cases mem_singleton.mp isRoot
  cases atRoot.symm.trans atAbove
  cases here.symm.trans atBelow
  obtain ⟨same, atSame, computed⟩ := each id met
  cases here.symm.trans atSame
  obtain ⟨_, total, own, _, _, atOwn, impactEq⟩ := proc.impactOf_ok_iff.mp computed
  refine ⟨own, atOwn, Impact.within_trans ?_ within⟩
  rw [impactEq]
  exact Impact.within_trans (Impact.within_union_right) (Impact.within_closed _)

theorem StoresThrough.assigns (stores : proc.StoresThrough root var) : top.effects.assigns = true := by
  obtain ⟨nodes, collected, node, mem, addr, value, kind, _⟩ := stores
  obtain ⟨own, atOwn, within⟩ := exact_.covers atRoot collected mem
  rw [kind] at atOwn
  cases atOwn
  exact Impact.IsSign.assigns.within within rfl

theorem ReadsFrom.global {data : LocalVar} (reads : proc.ReadsFrom root var)
    (atVar : proc.locals[var]? = some data) (exposed : data.exposed = true) : top.effects.isGlobal = true := by
  obtain ⟨nodes, collected, node, mem, kind⟩ := reads
  obtain ⟨own, atOwn, within⟩ := exact_.covers atRoot collected mem
  have readsGlobal : own.effects.readsGlobal = true := by
    cases isKind : node.kind with
    | readLocal other | readField other _ =>
      rw [isKind] at kind atOwn
      cases kind
      simp only [ownImpact, except_bind_ok_iff] at atOwn
      obtain ⟨same, atSame, made⟩ := atOwn
      cases atVar.symm.trans (proc.localVar_ok_iff.mp atSame)
      cases made
      exact exposed
    | _ =>
      rw [isKind] at kind
      cases kind
  exact Bool.or_eq_true_iff.mpr (.inr (Impact.IsSign.readsGlobal.within within readsGlobal))

theorem ExactUnder.ordered_raises (ordered : top.effects.ordered = true) : top.effects.raises = true := by
  obtain ⟨seen, walked, each⟩ := exact_
  refine proc.exact_sign_raises each (proc.walk_spans walked) .ordered
    (fun kind own _ found shown => ?_) root (proc.root_visited walked) top atRoot ordered
  rw [(proc.ownImpact_signs found).ordered] at shown
  cases kind with
  | stackAlloc size =>
    cases found
    rfl
  | _ => cases shown

theorem ExactUnder.contains_raises (found : proc.contains root NodeKind.isStackAlloc = .ok true) :
    top.effects.raises = true := by
  obtain ⟨nodes, collected, node, mem, kind⟩ := (Verifier.contains_iff found).mp rfl
  obtain ⟨own, atOwn, within⟩ := exact_.covers atRoot collected mem
  exact exact_.ordered_raises atRoot
    (Impact.IsSign.ordered.within within ((proc.ownImpact_signs atOwn).ordered.trans kind))

end Root

end Exact

end Procedure

namespace Interference

namespace Analysis

variable {settings : Settings} {proc : Procedure} {data : Call} {marks : List Mark}

variable (analysis : Analysis settings proc data marks)

include analysis

theorem blocked_true {value : NodeId} (here : analysis.list[index]? = some profile)
    (hasValue : profile.arg.value = some value) (asked : analysis.blocked[index]? = some true) :
    faultBlocks settings.target.faultRule proc value = .ok true := by
  have blocks := analysis.blocks
  split at blocks
  · have pairs := mapM_except_ok_iff.mp blocks
    obtain ⟨mem, isTrue⟩ := List.getElem?_eq_some_iff.mp asked
    have bound := pairs.length_eq ▸ mem
    have answer := pairs.get bound mem
    rw [List.get_eq_getElem, List.get_eq_getElem, isTrue, List.getElem_zip] at answer
    obtain ⟨_, atProfile⟩ := List.getElem?_eq_some_iff.mp here
    simp only [atProfile, hasValue] at answer
    split at answer
    · exact answer
    · cases answer
  · rw [blocks, Interference.unpinned, getElem?_map, here] at asked
    cases asked

theorem dispatched_iff (here : analysis.list[index]? = some profile)
    (harmless : profile.arg.effects.isSideEffect = false) :
    analysis.dispatched[index]? = some true
      ↔ isGuarded settings data = true ∧ data.args.thisIndex = some index := by
  have dispatches := analysis.dispatches
  by_cases guarded : isGuarded settings data = true
  · rw [if_pos guarded] at dispatches
    obtain ⟨this, atThis, same⟩ := dispatches
    rw [same, dispatchRequests, getElem?_map, getElem?_zipIdx, here, atThis]
    simp only [Option.map_some, Nat.zero_add, harmless, Bool.or_false, Option.some.injEq, beq_iff_eq,
      guarded, true_and]
    exact eq_comm
  · rw [if_neg guarded] at dispatches
    rw [dispatches, Interference.unpinned, getElem?_map, here]
    simp [guarded]

end Analysis

end Interference

namespace CallRun

open Interference

variable {settings : Settings} {id : CallId} {run : CallRun settings id}

-- Nothing holds the value at an index back: it has no global effect, reads no local that a later value
-- stores to by name, and is no `this` of a checked dispatch. So it waits in the late list, in a register
-- or for a slot that a call might overwrite.
structure Overlooked (run : CallRun settings id) (list : ArgList) (index : Nat) (value : NodeId) :
    Prop where
  harmless : ∃ node, run.shaped.proc.nodes[value]? = some node ∧ node.effects.isGlobal = false
  unstored : ∀ (later : Nat) (arg : Argument) (other : NodeId) (var : LocalId), index < later →
    list.args[later]? = some arg → arg.early = some other → run.shaped.proc.StoresTo other var →
    ¬ run.shaped.proc.ReadsFrom value var
  unchecked : ∀ data, run.shaped.proc.calls[id]? = some data → isGuarded settings data = true →
    data.args.thisIndex ≠ some index
  moves : ∃ arg, list.args[index]? = some arg ∧ (arg.placement.hasReg = true
    ∨ settings.target.fixedOut = true ∧ arg.placement.isStackOnly = true
      ∧ ∃ (k : Nat) (other : Argument) (root : NodeId) (node : Node), k ≠ index
        ∧ list.args[k]? = some other ∧ other.early = some root
        ∧ run.shaped.proc.nodes[root]? = some node
        ∧ (node.effects.calls = true ∨ settings.options.debugCode = true
          ∧ (node.exceptions.indexOutOfRange || node.exceptions.overflow) = true))

namespace Outcome

variable {before : Call} {outcome : run.Outcome before} {index : Nat} {value : NodeId}

theorem profile_slot (outcome : run.Outcome before)
    (values : run.ExactValues before.args) (atProfile : outcome.analysis.list[k]? = some profile) :
    ∃ root, ∃ slot : outcome.Slot k root, slot.profile = profile ∧ run.shaped.proc.ExactUnder root := by
  have bound : k < before.args.args.length := by
    rw [← outcome.analysis.list_length]
    exact lt_length atProfile
  obtain ⟨root, early, exact_⟩ := values _ (List.getElem_mem bound)
  obtain ⟨slot⟩ := outcome.slot (List.getElem?_eq_getElem bound) early
  exact ⟨root, slot, Option.some.inj (slot.atProfile.symm.trans atProfile), exact_⟩

namespace Slot

theorem pins_harmless (first : outcome.Slot index value) (second : outcome.Slot later other) (beyond : index < later)
    (harmless : first.node.effects.isGlobal = false) (asks : pins second.profile first.profile = true) :
    ∃ var, run.shaped.proc.StoresTo other var ∧ run.shaped.proc.ReadsFrom value var := by
  have silent : first.node.effects.raises = false := by
    simp only [Effects.isGlobal, Effects.isSideEffect, Bool.or_eq_false_iff] at harmless
    exact harmless.1.2
  simp only [pins, first.effects, second.effects, harmless, silent, Bool.false_or, Bool.and_false,
    Bool.or_false, Bool.and_eq_true] at asks
  obtain ⟨⟨assigns, _⟩, crosses⟩ := asks
  obtain ⟨var, stored, read⟩ := any_eq_true.mp crosses
  obtain ⟨node, atNode, _, _, known, _⟩ := second.described.node other second.early
  cases second.atNode.symm.trans atNode
  have reads := ArgSummary.ofArguments_known outcome.analysis.summarized beyond
    (outcome.analysis.summary_at first.atProfile)
    (outcome.analysis.summary_at second.atProfile) (first.described.value.trans first.early)
    (ne_nil_of_mem stored)
  refine ⟨var, ?_, ?_⟩
  · obtain ⟨nodes, collected, store, mem, _, kind⟩ :=
      (Verifier.mem_storedLocals_iff var (known assigns)).mp stored
    exact ⟨nodes, collected, store, mem, by rw [kind]; rfl⟩
  · simp only [Procedure.localsRead, except_bind_ok_iff, except_pure_ok_iff] at reads
    obtain ⟨nodes, collected, same⟩ := reads
    rw [← same] at read
    obtain ⟨node, mem, kind⟩ := mem_filterMap.mp (by simpa using read)
    exact ⟨nodes, collected, node, mem, kind⟩

theorem late_overlooked (first : outcome.Slot index value) (second : outcome.Slot later other)
    (beyond : index < later) (late : first.IsLate) (values : run.ExactValues before.args)
    (assigns : second.node.effects.assigns = true) : run.Overlooked before.args index value := by
  obtain ⟨_, _, unpinned, deferred⟩ := first.late_cases late
  have harmless : first.node.effects.isGlobal = false := by
    by_contra global
    have spares := (first.late_global second beyond late (eq_true_of_ne_false global)).1
    simp [Effects.isPersistent, assigns] at spares
  refine ⟨⟨first.node, first.atNode, harmless⟩, ?_, ?_, first.arg, first.here, ?_⟩
  · intro k arg root var behind atArg early stores reads
    obtain ⟨⟨slot⟩, exact_⟩ := outcome.exact_slot values atArg early
    have pinned := first.pins_stored slot behind exact_ stores reads
    rw [first.late_unasked late behind slot.atProfile] at pinned
    cases pinned
  · intro data atData guarded isThis
    cases outcome.atShaped.symm.trans atData
    have acts : first.profile.arg.effects.isSideEffect = false := by
      rw [first.effects]
      simp only [Effects.isGlobal, Bool.or_eq_false_iff] at harmless
      exact harmless.1
    have asked := (outcome.analysis.dispatched_iff first.atProfile acts).mpr
      ⟨guarded, isThis⟩
    have pinned := (outcome.analysis.pinned_reached.2 index).mpr
      ⟨first.profile, first.atProfile, first.present,
        .inl ((outcome.analysis.requested_iff index).mpr (.inr (.inr asked)))⟩
    have open_ := first.atPinned
    rw [unpinned] at open_
    cases open_.symm.trans pinned
  · by_cases inReg : first.arg.placement.hasReg = true
    · exact .inl inReg
    · have waits := first.atPlaced
      rw [deferred.resolve_left inReg] at waits
      obtain ⟨profile, atProfile, _, risk, call⟩ := (placesFrom_true_iff).mp waits
      cases first.atProfile.symm.trans atProfile
      simp only [slotAtRisk, rules, first.described.stackOnly, first.described.isSplit, Placement.isSplit,
        eq_false_of_ne_true inReg, Bool.false_and, Bool.or_false, Bool.and_eq_true] at risk
      obtain ⟨k, caller, apart, atCaller, like⟩ : ∃ k caller, k ≠ index
          ∧ outcome.analysis.list[k]? = some caller ∧ caller.likeCall = true := by
        rcases call with before | ⟨k, caller, front, atCaller, like⟩ | ⟨_, k, caller, behind, atCaller, like⟩
        · cases before
        · exact ⟨k, caller, Nat.ne_of_lt front, atCaller, like⟩
        · exact ⟨k, caller, Nat.ne_of_gt behind, atCaller, like⟩
      obtain ⟨root, slot, rfl, _⟩ := outcome.profile_slot values atCaller
      refine .inr ⟨risk.1, risk.2, k, slot.arg, root, slot.node, apart, slot.here, slot.early, slot.atNode, ?_⟩
      by_cases calls : slot.node.effects.calls = true
      · exact .inl calls
      · obtain ⟨debug, _, checks, _⟩ := slot.late_checked like (eq_false_of_ne_true calls)
        exact .inr ⟨debug, checks⟩

theorem overlooked_unpinned (first : outcome.Slot index value) (values : run.ExactValues before.args)
    (several : 1 < before.args.size) (exact_ : run.shaped.proc.ExactUnder value)
    (overlooked : run.Overlooked before.args index value) : first.mark.pinned = false := by
  obtain ⟨node, atNode, harmless⟩ := overlooked.harmless
  cases first.atNode.symm.trans atNode
  have quiet := harmless
  simp only [Effects.isGlobal, Effects.isSideEffect, Effects.isPersistent, Bool.or_eq_false_iff] at quiet
  obtain ⟨⟨⟨storeless, _⟩, silent⟩, _⟩ := quiet
  have acts : first.profile.arg.effects.isSideEffect = false := by
    rw [first.effects]
    simp only [Effects.isGlobal, Bool.or_eq_false_iff] at harmless
    exact harmless.1
  have unordered : first.node.effects.ordered = false := by
    by_contra ordered
    cases silent.symm.trans (exact_.ordered_raises first.atNode (eq_true_of_ne_false ordered))
  by_contra pinned
  have atPinned := first.atPinned
  rw [eq_true_of_ne_false pinned] at atPinned
  obtain ⟨profile, atProfile, _, asked⟩ :=
    (outcome.analysis.pinned_reached.2 index).mp atPinned
  cases first.atProfile.symm.trans atProfile
  rcases asked with asked | ⟨isSideEffect, _⟩
  · rcases (outcome.analysis.requested_iff index).mp asked with own | blocked | dispatched
    · obtain ⟨same, atSame, wanted⟩ := (requests_true_iff index).mp own
      cases first.atProfile.symm.trans atSame
      rcases wanted with itself | ⟨later, other, beyond, atOther, asks⟩
      · simp [pinsItself, first.effects, storeless, Effects.isAny, harmless, unordered, rules, several] at itself
      · obtain ⟨root, slot, rfl, _⟩ := outcome.profile_slot values atOther
        obtain ⟨var, stores, reads⟩ := first.pins_harmless slot beyond harmless asks
        exact overlooked.unstored later slot.arg root var beyond slot.here slot.early stores reads
    · have blocks := outcome.analysis.blocked_true first.atProfile
        (first.described.value.trans first.early) blocked
      unfold faultBlocks at blocks
      split at blocks
      · rw [run.shaped.proc.node_ok_iff.mpr first.atNode] at blocks
        cases silent.symm.trans (Except.ok.inj blocks)
      · split at blocks
        · cases silent.symm.trans (exact_.contains_raises first.atNode blocks)
        · cases blocks
    · obtain ⟨guarded, isThis⟩ :=
        (outcome.analysis.dispatched_iff first.atProfile acts).mp dispatched
      exact overlooked.unchecked before outcome.atShaped guarded isThis
  · cases acts.symm.trans isSideEffect

theorem checked_like (slot : outcome.Slot index value) (debug : settings.options.debugCode = true)
    (fixed : settings.target.fixedOut = true) (several : 1 < before.args.size)
    (exact_ : run.shaped.proc.Exact value)
    (checks : (slot.node.exceptions.indexOutOfRange || slot.node.exceptions.overflow) = true) {other : Profile}
    (apart : k ≠ index) (atOther : outcome.analysis.list[k]? = some other)
    (hasStack : other.arg.hasStack = true) : slot.profile.likeCall = true := by
  have raises : slot.node.effects.raises = true := by
    apply run.shaped.proc.exact_exceptions_raise slot.atNode exact_
    by_contra empty
    have none_ : slot.node.exceptions = Exceptions.none := by simpa [Exceptions.isEmpty] using empty
    simp [none_, Exceptions.none] at checks
  exact (profiles_like_iff (outcome.analysis.profiled ▸ slot.atProfile)).mpr (.inr ⟨debug, fixed,
    decide_eq_true several, by rw [slot.effects, raises], by rw [slot.exceptions, checks], k, other.arg, apart,
    outcome.analysis.summary_at atOther, hasStack⟩)

theorem overlooked_late (first : outcome.Slot index value) (values : run.ExactValues before.args)
    (several : 1 < before.args.size) (exact_ : run.shaped.proc.ExactUnder value)
    (overlooked : run.Overlooked before.args index value) : first.IsLate := by
  have unpinned := first.overlooked_unpinned values several exact_ overlooked
  obtain ⟨node, atNode, harmless⟩ := overlooked.harmless
  cases first.atNode.symm.trans atNode
  by_contra early
  rcases first.early_cases early with copied | pinned | ⟨noReg, unplaced⟩
  · -- the early node of a copied struct stores
    obtain ⟨store, node, atStore, atNode, stores⟩ :=
      (outcome.undecided first.arg (mem_of_getElem? first.here)).copied copied
    cases first.early.symm.trans atStore
    cases first.atNode.symm.trans atNode
    obtain ⟨seen, walked, each⟩ := exact_
    have assigns := run.shaped.proc.exact_store first.atNode
      (each value (run.shaped.proc.root_visited walked)) stores
    simp [Effects.isGlobal, Effects.isSideEffect, Effects.isPersistent, assigns] at harmless
  · cases unpinned.symm.trans pinned
  · obtain ⟨arg, here, moves⟩ := overlooked.moves
    cases first.here.symm.trans here
    rcases moves with inReg | ⟨fixed, stackOnly, k, other, root, caller, apart, atOther, early', atCaller, calls⟩
    · cases noReg.symm.trans inReg
    · obtain ⟨slot⟩ := outcome.slot atOther early'
      cases slot.atNode.symm.trans atCaller
      have like : slot.profile.likeCall = true := by
        rcases calls with calls | ⟨debug, checks⟩
        · exact slot.called calls
        · obtain ⟨_, has, seen, walked, each⟩ := values slot.arg (mem_of_getElem? slot.here)
          cases slot.early.symm.trans has
          exact slot.checked_like debug fixed several
            (each root (run.shaped.proc.root_visited walked)) checks
            apart.symm first.atProfile (first.described.hasStack.trans
              (first.arg.placement.hasStack_of_stackOnly stackOnly))
      have waits : outcome.analysis.placed[index]? = some true := by
        refine (placesFrom_true_iff).mpr ⟨first.profile, first.atProfile, first.present, ?_, .inr ?_⟩
        · simp [slotAtRisk, rules, fixed, first.described.stackOnly, stackOnly]
        · rcases Nat.lt_or_gt_of_ne apart with front | behind
          · exact .inl ⟨k, slot.profile, front, slot.atProfile, like⟩
          · exact .inr ⟨first.effects ▸ harmless, k, slot.profile, behind, slot.atProfile, like⟩
      rw [first.atPlaced, unplaced] at waits
      cases waits

end Slot

end Outcome

-- A store through the address of a local is computed behind every earlier read of it that is not
-- overlooked, and behind every earlier read of an exposed local.
theorem address_store_keeps_order_iff (run : CallRun settings id) (list : ArgList)
    (atShaped : run.shaped.proc.calls[id]?.map Call.args = some list)
    (values : ∀ arg ∈ list.args, ∃ value, arg.early = some value
      ∧ run.shaped.proc.ExactUnder value)
    (i j : Nat) (first second : Argument) (v w : NodeId) (inFront : i < j)
    (atFirst : list.args[i]? = some first) (atSecond : list.args[j]? = some second)
    (hasV : first.early = some v) (hasW : second.early = some w) (var : LocalId)
    (reads : run.shaped.proc.ReadsFrom v var) (stores : run.shaped.proc.StoresThrough w var) :
    ∃ after, run.settled.calls[id]?.map Call.args = some after
      ∧ ((run.shaped.proc.locals[var]?.any fun data => data.exposed) = true → after.RunsBefore i j)
      ∧ (after.RunsBefore i j ↔ ¬ run.Overlooked list i v) := by
  obtain ⟨before, outcome, rfl, atSettled⟩ := run.outcome_of atShaped
  obtain ⟨⟨slotI⟩, exactV⟩ := outcome.exact_slot values atFirst hasV
  obtain ⟨⟨slotJ⟩, exactW⟩ := outcome.exact_slot values atSecond hasW
  have several : 1 < before.args.size :=
    Nat.lt_of_le_of_lt (Nat.succ_le_of_lt (Nat.zero_lt_of_lt inFront)) (List.getElem?_eq_some_iff.mp atSecond).1
  have assigns := stores.assigns exactW slotJ.atNode
  have earlyJ : ¬ slotJ.IsLate := fun late => by
    cases assigns.symm.trans (slotJ.late_assigns several late)
  have overlooked : ¬ outcome.after.args.RunsBefore i j → run.Overlooked before.args i v := by
    intro behind
    apply slotI.late_overlooked slotJ inFront _ values assigns
    by_contra early
    exact behind (slotI.early_runsBefore slotJ inFront early)
  refine ⟨outcome.after.args, atSettled, fun exposed => ?_, ?_⟩
  · by_contra behind
    obtain ⟨node, atNode, harmless⟩ := (overlooked behind).harmless
    obtain ⟨data, atVar, isExposed⟩ := (Option.any_eq_true _ _).mp exposed
    cases harmless.symm.trans (reads.global exactV atNode atVar isExposed)
  · refine ⟨fun before isOverlooked => ?_, fun seen => by_contra fun behind => seen (overlooked behind)⟩
    -- the store is in the early list, in front of everything late
    have late := slotI.overlooked_late values several exactV isOverlooked
    have after := ArgList.early_runsBefore_late _ (slotJ.mem_earlyIndices.mpr earlyJ)
      (fun inside => slotI.mem_earlyIndices.mp inside late) (slotI.late_mem late)
    exact Nat.lt_asymm before.2.2 after.2.2

def readBeforeAddressStore : List Instruction :=
  [.declare .i32, .readLocal 0, .localAddr 0, .intConst 5 .i32, .storeInd 1 2, .intConst 7 .i32,
    .comma 3 4, .call { target := .method "taker", args := [(0, .i32), (5, .i32)] }, .statement 6]

def readBeforeAddressStoreRun : CallRun onLinux 0 :=
  (CallRun.ofBody? onLinux 0 readBeforeAddressStore).get (by decide +kernel)

theorem read_before_address_store_iff :
    readBeforeAddressStoreRun.shaped.proc.ReadsFrom 0 0
      ∧ readBeforeAddressStoreRun.shaped.proc.StoresThrough 5 0
      ∧ ∃ list after, readBeforeAddressStoreRun.shaped.proc.calls[0]?.map Call.args = some list
        ∧ readBeforeAddressStoreRun.settled.calls[0]?.map Call.args = some after
        ∧ (after.RunsBefore 0 1 ↔ ¬ readBeforeAddressStoreRun.Overlooked list 0 0) := by
  have reads : readBeforeAddressStoreRun.shaped.proc.ReadsFrom 0 0 := by
    obtain ⟨nodes, collected, found⟩ := except_ok_of_any (readBeforeAddressStoreRun.shaped.proc.visited 0)
      (fun nodes => nodes.any fun node => node.kind.readsLocal? == some 0) (by decide +kernel)
    simp only [List.any_eq_true, beq_iff_eq] at found
    exact ⟨nodes, collected, found⟩
  have stores : readBeforeAddressStoreRun.shaped.proc.StoresThrough 5 0 := by
    obtain ⟨nodes, collected, found⟩ := except_ok_of_any (readBeforeAddressStoreRun.shaped.proc.visited 5)
      (fun nodes => nodes.any fun node => node.kind == .storeInd 1 2) (by decide +kernel)
    simp only [List.any_eq_true, beq_iff_eq] at found
    obtain ⟨node, inside, kind⟩ := found
    exact ⟨nodes, collected, node, inside, 1, 2, kind, by decide +kernel⟩
  obtain ⟨list, atShaped, _, values, slots⟩ := readBeforeAddressStoreRun.list_of_check [(0, 0), (1, 5)]
    (by decide +kernel)
  obtain ⟨first, atFirst, hasRead⟩ := slots (0, 0) (by simp)
  obtain ⟨second, atSecond, hasStore⟩ := slots (1, 5) (by simp)
  obtain ⟨after, atSettled, _, before⟩ := address_store_keeps_order_iff readBeforeAddressStoreRun list
    atShaped values 0 1 first second 0 5 (by decide) atFirst atSecond hasRead hasStore 0 reads stores
  exact ⟨reads, stores, list, after, atShaped, atSettled, before⟩

-- The value with the store is computed to a temp in the early list, the read of the local is late.
theorem address_store_overtakes_read :
    ∃ made proc outcome data, Procedure.build "caller" readBeforeAddressStore = .ok (made, proc)
      ∧ proc.lower onLinux Transform.identity = .ok outcome ∧ outcome.refusal = none
      ∧ (outcome.proc.kindAt 0 = some (.readLocal 0) ∧ outcome.proc.kindAt 3 = some (.storeInd 1 2)
        ∧ outcome.proc.kindAt 1 = some (.localAddr 0))
      ∧ outcome.proc.calls[0]? = some data ∧ (data.args.args.map Argument.late)[0]? = some (some 0)
      ∧ data.args.RunsBefore 1 0 := by
  obtain ⟨made, proc, outcome, builds, _, done, unrefused, kinds, ended⟩ := lowered_of_check
    readBeforeAddressStore onLinux (fun _ => True) (fun outcome => outcome.refusal = none
      ∧ (outcome.proc.kindAt 0 = some (.readLocal 0) ∧ outcome.proc.kindAt 3 = some (.storeInd 1 2)
        ∧ outcome.proc.kindAt 1 = some (.localAddr 0))
      ∧ outcome.proc.calls[0]?.any fun data : Call =>
        decide ((data.args.args.map Argument.late)[0]? = some (some 0) ∧ data.args.RunsBefore 1 0))
    (by decide +kernel)
  simp only [Option.any_eq_true, decide_eq_true_eq] at ended
  obtain ⟨data, here, late, before⟩ := ended
  exact ⟨made, proc, outcome, data, builds, done, unrefused, kinds, here, late, before⟩

end CallRun

end CallLowering
