import CallLowering.Lowering.Run
import CallLowering.Proofs.NestedCalls

/-!
Slots of the outgoing area that are filled while arguments are still evaluated. A slot that is filled from the
early list is never open to a call in another argument.
-/

namespace CallLowering

open List

variable {later : Nat} {other : NodeId}

namespace Interference.Analysis

variable {settings : Settings} {proc : Procedure} {data : Call} {marks : List Mark}

theorem stackOnly_waits (analysis : Analysis settings proc data marks)
    (fixed : settings.target.fixedOut = true) {caller waiting : Nat} {call profile : Profile}
    (apart : caller ≠ waiting) (atCaller : analysis.list[caller]? = some call)
    (atWaiting : analysis.list[waiting]? = some profile) (likeCall : call.likeCall = true)
    (present : profile.arg.value.isSome = true) (stackOnly : profile.arg.stackOnly = true) :
    analysis.pinned[waiting]? = some true ∨ analysis.placed[waiting]? = some true := by
  have risk : slotAtRisk (rules settings data) profile.arg = true := by
    simp [slotAtRisk, rules, fixed, stackOnly]
  rcases Nat.lt_or_gt_of_ne apart with before | behind
  · right
    exact (placesFrom_true_iff).mpr
      ⟨profile, atWaiting, present, risk, .inr (.inl ⟨caller, call, before, atCaller, likeCall⟩)⟩
  · by_cases global : profile.arg.effects.isGlobal = true
    · left
      have asked : pins call profile = true := by simp [pins, likeCall, global]
      exact analysis.pinned_of_own atWaiting present
        ((requests_true_iff _).mpr ⟨profile, atWaiting, .inr ⟨caller, call, behind, atCaller, asked⟩⟩)
    · right
      exact (placesFrom_true_iff).mpr ⟨profile, atWaiting, present, risk,
        .inr (.inr ⟨by simpa using global, caller, call, behind, atCaller, likeCall⟩)⟩

end Interference.Analysis

-- While some argument still contains a call, every other argument that is placed on the stack alone
-- waits for the late list.
theorem stack_slots_wait_for_calls (settings : Settings) (cost : CostModel) (id : CallId)
    (order : List Nat) (data : Call) (p q r s : Procedure) (fixed : settings.target.fixedOut = true)
    (here : p.calls[id]? = some data) (completes : Interference.complete settings id p = .ok () q)
    (schedules : Schedule.schedule cost id q = .ok order r)
    (settles : Materialize.materialize settings id order r = .ok () s)
    (m k : Nat) (caller waiting : Argument) (value : NodeId) (apart : m ≠ k)
    (atCaller : data.args.args[m]? = some caller) (atWaiting : data.args.args[k]? = some waiting)
    (hasValue : caller.early = some value) (exact_ : p.ExactUnder value) (calls : p.CallsUnder value)
    (stackOnly : waiting.placement.isStackOnly = true) :
    ∃ after last, s.calls[id]? = some after ∧ after.args.args[k]? = some last
      ∧ last.late.isSome = true := by
  obtain ⟨passed⟩ := passed here completes schedules settles
  obtain ⟨mark, last, atMark, atLast, settled⟩ := passed.slots k waiting atWaiting
  refine ⟨passed.after, last, passed.atEnd, atLast, ?_⟩
  cases settled with
  | ready late => exact late
  | pinned => rfl
  | moved => rfl
  | kept value' has loose unmarked stays =>
    -- the argument would be filled early, against what the analysis decided
    obtain ⟨call, atCall, described, likeCall, _⟩ := passed.analysis.profile_at atCaller
    obtain ⟨node, atNode, sameEffects, _⟩ := described.node value hasValue
    have calls := (p.callsUnder_iff exact_ atNode).mp calls
    obtain ⟨profile, atProfile, describes, _⟩ := passed.analysis.profile_at atWaiting
    obtain ⟨same, atSame, atPinned, atPlaced⟩ := passed.analysis.mark_at atProfile
    cases atMark.symm.trans atSame
    have present : profile.arg.value.isSome = true := by
      rw [describes.value]
      exact congrArg Option.isSome has
    have waits := passed.analysis.stackOnly_waits fixed apart atCall atProfile
      (likeCall (by rw [sameEffects, calls])) present (by rw [describes.stackOnly, stackOnly])
    simp only [Interference.applyMark, Bool.or_eq_false_iff] at unmarked stays
    rw [atPinned, atPlaced, unmarked.2, stays.2.2] at waits
    simp at waits

-- Four constants in registers and two calls on the stack. The first call gets a temp, which is read
-- back into its slot in front of the second one.
def callsOnStack : List Instruction :=
  [.intConst 0 .i64, .intConst 1 .i64, .intConst 2 .i64, .intConst 3 .i64,
    .call { target := .method "first", returnType := .i64 },
    .call { target := .method "second", returnType := .i64 },
    .call { target := .method "taker"
            args := [(0, .i64), (1, .i64), (2, .i64), (3, .i64), (4, .i64), (5, .i64)] },
    .statement 6]

def onWindows : Settings := { target := Target.ofTriple ⟨.x64, .windows⟩ }

def callsOnStackRun : CallRun onWindows 2 :=
  (CallRun.ofBody? onWindows 2 callsOnStack).get (by decide +kernel)

theorem first_call_waits_for_second :
    callsOnStackRun.shaped.proc.CallsUnder 5
      ∧ ∃ after last, callsOnStackRun.settled.calls[2]? = some after ∧ after.args.args[4]? = some last
        ∧ last.late.isSome = true := by
  have calls : callsOnStackRun.shaped.proc.CallsUnder 5 := by decide +kernel
  obtain ⟨data, here, checked⟩ := (Option.any_eq_true (fun data : Call =>
      (data.args.args[5]?.any fun arg => arg.early == some 5)
      && data.args.args[4]?.any fun arg => arg.placement.isStackOnly)
    callsOnStackRun.shaped.proc.calls[2]?).mp (by decide +kernel)
  simp only [Bool.and_eq_true, Option.any_eq_true, beq_iff_eq] at checked
  obtain ⟨⟨caller, atCaller, hasCall⟩, waiting, atWaiting, stackOnly⟩ := checked
  exact ⟨calls, stack_slots_wait_for_calls onWindows _ 2 _ data _ _ _ _ rfl here
    callsOnStackRun.completes callsOnStackRun.schedules callsOnStackRun.settles 5 4 caller waiting 5
    (by decide) atCaller atWaiting hasCall (by decide +kernel) calls stackOnly⟩

namespace Materialize.Settled

variable {arg after : Argument}

theorem late_of_alone (settled : Settled arg after) {value : NodeId} (has : arg.early = some value)
    (alone : after.early = none) : after.late = some value := by
  cases settled with
  | ready => cases has.symm.trans alone
  | pinned => cases alone
  | moved other hasOther => exact hasOther.symm.trans has
  | kept => cases has.symm.trans alone

theorem late_of_pinned (settled : Settled arg after) (marked : arg.flags.needsTemp = true) :
    after.late.isSome = true := by
  cases settled with
  | ready late => exact late
  | pinned => rfl
  | moved => rfl
  | kept other has loose unmarked => cases marked.symm.trans unmarked

theorem placement (settled : Settled arg after) : after.placement = arg.placement := by
  cases settled <;> rfl

end Materialize.Settled

namespace ArgList

def FillsBefore (list : ArgList) (first second : Nat) : Prop :=
  first ∈ list.lateOrder ∧ second ∈ list.lateOrder
    ∧ list.lateOrder.idxOf first < list.lateOrder.idxOf second

instance (list : ArgList) (first second : Nat) : Decidable (list.FillsBefore first second) :=
  inferInstanceAs (Decidable (_ ∧ _ ∧ _))

-- No slot of the outgoing area is filled in front of a call that another argument makes late.
def LateSlotsSafe (proc : Procedure) (list : ArgList) : Prop :=
  ∀ (i j : Nat) (first second : Argument) (late : NodeId), list.args[i]? = some first →
    first.placement.hasStack = true → list.args[j]? = some second → second.late = some late →
    proc.CallsUnder late → ¬ list.FillsBefore i j

end ArgList

namespace CallRun

open Interference

variable {settings : Settings} {id : CallId} {run : CallRun settings id} {before : Call}

namespace Outcome

theorem readsBack {free : Procedure → NodeId → Prop} (laws : Durable free) (outcome : run.Outcome before) :
    (∀ node, free run.shaped.proc node → free run.settled node) ∧ outcome.after.ReadsBack free run.settled := by
  obtain ⟨start, atReady, _, unmarked⟩ := run.ready_unmarked
  obtain ⟨kept, after, atAfter, reads⟩ := laws.lowered atReady (fun arg mem => (unmarked arg mem).1)
    run.shapes run.completes run.schedules run.settles
  cases outcome.atEnd.symm.trans atAfter
  exact ⟨kept, reads⟩

namespace Slot

variable {outcome : run.Outcome before} {index : Nat} {value : NodeId}

theorem late_call (slot : outcome.Slot index value) (exact_ : run.shaped.proc.ExactUnder value)
    {late : NodeId} (isLate : slot.last.late = some late) (calls : run.settled.CallsUnder late) :
    slot.IsLate ∧ slot.node.effects.calls = true := by
  obtain ⟨kept, reads⟩ := outcome.readsBack Procedure.CallFree.durable
  have alone : slot.last.early = none := by
    by_contra both
    exact (reads slot.last (mem_of_getElem? slot.atLast) (Option.isSome_iff_ne_none.mpr both) late
      isLate).not_callsUnder calls
  refine ⟨alone, ?_⟩
  have same : late = value :=
    Option.some.inj (isLate.symm.trans (slot.settled.late_of_alone slot.early alone))
  subst same
  by_contra silent
  obtain ⟨seen, walked, each⟩ := exact_
  have free : run.shaped.proc.CallFree late :=
    .ofExact (run.shaped.proc.walk_spans walked) each late (run.shaped.proc.root_visited walked) _ slot.atNode
      (eq_false_of_ne_true silent)
  exact (kept late free).not_callsUnder calls

theorem call_hasLate (first : outcome.Slot index value) (second : outcome.Slot later other) (beyond : index < later)
    (firstCalls : first.node.effects.calls = true) (secondCalls : second.node.effects.calls = true) :
    Materialize.hasLate outcome.after.args.args index = true := by
  have global : first.profile.arg.effects.isGlobal = true := by
    simp [first.effects, Effects.isGlobal, Effects.isSideEffect, Effects.isPersistent, firstCalls]
  have likeCall := second.called secondCalls
  have pinned : first.mark.pinned = true := by
    by_contra unpinned
    have unasked := (outcome.analysis.unpinned_unasked first.atProfile first.present
      (eq_false_of_ne_true unpinned ▸ first.atPinned)).2 later second.profile beyond second.atProfile
    simp [pins, likeCall, global] at unasked
  have late := first.settled.late_of_pinned (by simp [applyMark, pinned])
  simp [Materialize.hasLate, first.atLast, late]

theorem fillsBefore_iff (first : outcome.Slot index value) {second : outcome.Slot later other}
    (exactFirst : run.shaped.proc.ExactUnder value) (exactSecond : run.shaped.proc.ExactUnder other)
    (secondLate : second.IsLate) (calls : second.node.effects.calls = true) :
    outcome.after.args.FillsBefore index later ↔ index < later ∧ first.node.effects.calls = true := by
  have lateOrder := outcome.late.trans (congrArg (filter _) outcome.callsFirst)
  rw [filter_append] at lateOrder
  have secondIn : later ∈ outcome.front.filter (Materialize.hasLate outcome.after.args.args) :=
    mem_filter.mpr ⟨(second.mem_front exactSecond).mpr calls, second.hasLate secondLate⟩
  have sorted := outcome.rising.filter (Materialize.hasLate outcome.after.args.args)
  unfold ArgList.FillsBefore
  rw [lateOrder, idxOf_append_of_mem secondIn]
  constructor
  · rintro ⟨_, _, before⟩
    have firstIn : index ∈ outcome.front.filter (Materialize.hasLate outcome.after.args.args) := by
      by_contra outside
      rw [idxOf_append_of_notMem outside] at before
      have bound := idxOf_lt_length_of_mem secondIn
      omega
    rw [idxOf_append_of_mem firstIn, idxOf_lt_iff sorted (fun _ _ => Nat.lt_asymm) firstIn secondIn] at before
    exact ⟨before, (first.mem_front exactFirst).mp (mem_filter.mp firstIn).1⟩
  · rintro ⟨beyond, firstCalls⟩
    have firstIn : index ∈ outcome.front.filter (Materialize.hasLate outcome.after.args.args) :=
      mem_filter.mpr ⟨(first.mem_front exactFirst).mpr firstCalls,
        first.call_hasLate second beyond firstCalls calls⟩
    refine ⟨mem_append_left _ firstIn, mem_append_left _ secondIn, ?_⟩
    rw [idxOf_append_of_mem firstIn]
    exact (idxOf_lt_iff sorted (fun _ _ => Nat.lt_asymm) firstIn secondIn).mpr beyond

end Slot

theorem slot_after (outcome : run.Outcome before) (values : run.ExactValues before.args)
    {index : Nat} {last : Argument} (atLast : outcome.after.args.args[index]? = some last) :
    ∃ value, ∃ slot : outcome.Slot index value, slot.last = last ∧ run.shaped.proc.ExactUnder value := by
  have bound : index < before.args.args.length := by
    have inAfter : index < outcome.after.args.size := lt_length atLast
    rw [outcome.sameSize] at inAfter
    exact inAfter
  have here := List.getElem?_eq_getElem bound
  obtain ⟨value, early, exact_⟩ := values _ (getElem_mem bound)
  obtain ⟨slot⟩ := outcome.slot here early
  exact ⟨value, slot, Option.some.inj (slot.atLast.symm.trans atLast), exact_⟩

end Outcome

-- The slots that are filled late are safe exactly if no argument with a part on the stack and a call
-- in its value stands in front of a late call.
theorem late_slots_safe_iff (run : CallRun settings id) (list : ArgList)
    (atShaped : run.shaped.proc.calls[id]?.map Call.args = some list)
    (values : ∀ arg ∈ list.args, ∃ value, arg.early = some value
      ∧ run.shaped.proc.ExactUnder value) :
    ∃ after, run.settled.calls[id]?.map Call.args = some after
      ∧ (after.LateSlotsSafe run.settled ↔ ∀ (i j : Nat) (first second : Argument) (value late : NodeId),
        i < j → list.args[i]? = some first → first.placement.hasStack = true →
        first.early = some value → run.shaped.proc.CallsUnder value → after.args[j]? = some second →
        second.late = some late → ¬ run.settled.CallsUnder late) := by
  obtain ⟨before, outcome, rfl, atSettled⟩ := run.outcome_of atShaped
  refine ⟨outcome.after.args, atSettled, ?_⟩
  constructor
  · intro safe i j first second value late beyond atFirst onStack hasValue firstCalls atSecond isLate calls
    obtain ⟨other, slotJ, rfl, exactJ⟩ := outcome.slot_after values atSecond
    obtain ⟨⟨slotI⟩, exactI⟩ := outcome.exact_slot values atFirst hasValue
    cases atFirst.symm.trans slotI.here
    obtain ⟨lateJ, callsJ⟩ := slotJ.late_call exactJ isLate calls
    have callsI := (run.shaped.proc.callsUnder_iff exactI slotI.atNode).mp firstCalls
    refine safe i j slotI.last slotJ.last late slotI.atLast ?_ atSecond isLate calls
      ((slotI.fillsBefore_iff exactI exactJ lateJ callsJ).mpr ⟨beyond, callsI⟩)
    rw [slotI.settled.placement]
    exact onStack
  · intro apart i j first second late atFirst onStack atSecond isLate calls before
    obtain ⟨value, slotI, rfl, exactI⟩ := outcome.slot_after values atFirst
    obtain ⟨other, slotJ, rfl, exactJ⟩ := outcome.slot_after values atSecond
    obtain ⟨lateJ, callsJ⟩ := slotJ.late_call exactJ isLate calls
    obtain ⟨beyond, callsI⟩ := (slotI.fillsBefore_iff exactI exactJ lateJ callsJ).mp before
    refine apart i j slotI.arg slotJ.last value late beyond slotI.here ?_ slotI.early
      ((run.shaped.proc.callsUnder_iff exactI slotI.atNode).mpr callsI) atSecond isLate calls
    rw [slotI.settled.placement] at onStack
    exact onStack

theorem late_slots_of_two_calls :
    ∃ list after, callsOnStackRun.shaped.proc.calls[2]?.map Call.args = some list
      ∧ callsOnStackRun.settled.calls[2]?.map Call.args = some after
      ∧ (after.LateSlotsSafe callsOnStackRun.settled ↔
        ∀ (i j : Nat) (first second : Argument) (value late : NodeId), i < j →
          list.args[i]? = some first → first.placement.hasStack = true → first.early = some value →
          callsOnStackRun.shaped.proc.CallsUnder value → after.args[j]? = some second →
          second.late = some late → ¬ callsOnStackRun.settled.CallsUnder late) := by
  obtain ⟨list, atShaped, _, values, _⟩ := callsOnStackRun.list_of_check [] (by decide +kernel)
  obtain ⟨after, atSettled, safe⟩ := late_slots_safe_iff callsOnStackRun list atShaped values
  exact ⟨list, after, atShaped, atSettled, safe⟩

end CallRun

-- Lowering the two calls fills the slot of the first in front of the second.
theorem slot_filled_before_late_call :
    ∃ made proc outcome data, Procedure.build "caller" callsOnStack = .ok (made, proc)
      ∧ proc.lower onWindows Transform.identity = .ok outcome ∧ outcome.refusal = none
      ∧ outcome.proc.calls[2]? = some data ∧ ¬ data.args.LateSlotsSafe outcome.proc := by
  obtain ⟨made, proc, outcome, builds, _, done, unrefused, checked⟩ := lowered_of_check callsOnStack onWindows
    (fun _ => True) (fun outcome => outcome.refusal = none ∧ outcome.proc.calls[2]?.any fun data : Call =>
      decide (data.args.FillsBefore 4 5)
        && (data.args.args[4]?.any fun arg : Argument => arg.placement.hasStack)
        && data.args.args[5]?.any fun arg : Argument => arg.late.any fun late : NodeId =>
          decide (outcome.proc.CallsUnder late))
    (by decide +kernel)
  simp only [Bool.and_eq_true, Option.any_eq_true, decide_eq_true_eq] at checked
  obtain ⟨data, here, ⟨before, first, atFirst, onStack⟩, second, atSecond, late, isLate, calls⟩ := checked
  exact ⟨made, proc, outcome, data, builds, done, unrefused, here, fun safe =>
    safe 4 5 first second late atFirst onStack atSecond isLate calls before⟩

end CallLowering
