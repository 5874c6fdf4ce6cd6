import CallLowering.Lowering.Run
import CallLowering.Proofs.NestedCalls

/-! The order of values that may raise, with and without debug code. -/

namespace CallLowering

open List

variable {node : Node}

theorem Procedure.exact_localRead (proc : Procedure) {id : NodeId} (here : proc.nodes[id]? = some node)
    (exact_ : proc.Exact id) (reads : node.kind.isLocalRead = true) : node.effects.raises = false := by
  obtain ⟨same, atSame, computed⟩ := exact_
  cases here.symm.trans atSame
  obtain ⟨ids, total, own, atIds, atTotal, atOwn, impactEq⟩ := proc.impactOf_ok_iff.mp computed
  change node.impact.effects.raises = false
  cases kindEq : node.kind with
  | readLocal var | readField var =>
    rw [kindEq] at atIds atOwn
    cases atIds
    cases atTotal
    obtain ⟨data, _, same⟩ := except_bind_ok_iff.mp atOwn
    cases same
    rw [impactEq]
    rfl
  | _ => simp [kindEq, NodeKind.isLocalRead, NodeKind.readsLocal?] at reads

theorem Procedure.raises_isPriced (proc : Procedure) {id : NodeId}
    (here : proc.nodes[id]? = some node) (exact_ : proc.Exact id) (raises : node.effects.raises = true)
    (silent : node.effects.calls = false) : Schedule.isPriced node = true := by
  have notRead : node.kind.isLocalRead = false := by
    by_contra reads
    cases raises.symm.trans (proc.exact_localRead here exact_ (eq_true_of_ne_false reads))
  have notConstant : node.kind.isIntConst = false := by
    by_contra constant
    have nothing := proc.exact_intConst here exact_ (eq_true_of_ne_false constant)
    simp [Node.effects, nothing, Impact.none] at raises
  simp [Schedule.isPriced, notRead, notConstant, silent]

instance (list : ArgList) (first second : Nat) : Decidable (list.RunsBefore first second) :=
  inferInstanceAs (Decidable (_ ∧ _ ∧ _))

instance (proc : Procedure) (first second : NodeId) : Decidable (proc.RaisesApart first second) :=
  decidable_of_iff ((proc.nodes[first]?.any fun a => proc.nodes[second]?.any fun b =>
    a.effects.raises && b.effects.raises
      && !decide (a.exceptions = b.exceptions ∧ a.exceptions.isSingleKind = true)) = true) (by
    simp only [Procedure.RaisesApart, Option.any_eq_true, Bool.and_eq_true, Bool.not_eq_true',
      decide_eq_false_iff_not]
    constructor
    · rintro ⟨a, atA, b, atB, ⟨raisesA, raisesB⟩, told⟩
      exact ⟨a, b, atA, atB, raisesA, raisesB, told⟩
    · rintro ⟨a, b, atA, atB, raisesA, raisesB, told⟩
      exact ⟨a, atA, b, atB, ⟨raisesA, raisesB⟩, told⟩)

namespace CallRun

open Interference

variable {settings : Settings} {id : CallId} {run : CallRun settings id}

-- The value at an index waits in the late list and is cheaper than a later one: it is a check without
-- a call that debug code treats like one, for the sake of a stack argument beside it.
structure Overtaken (run : CallRun settings id) (list after : ArgList) (index : Nat)
    (value other : NodeId) : Prop where
  debug : settings.options.debugCode = true
  fixed : settings.target.fixedOut = true
  checks : ∃ node, run.shaped.proc.nodes[value]? = some node
    ∧ (node.exceptions.indexOutOfRange || node.exceptions.overflow) = true
  silent : ¬ run.shaped.proc.CallsUnder value
  beside : ∃ k arg, k ≠ index ∧ list.args[k]? = some arg ∧ arg.placement.hasStack = true
  late : ∃ last, after.args[index]? = some last ∧ last.early = none
  cheaper : ∃ x y, run.cost run.completed value = .ok x ∧ run.cost run.completed other = .ok y ∧ x < y

namespace Outcome.Slot

variable {before : Call} {outcome : run.Outcome before} {index : Nat} {value : NodeId}

theorem atCompleted (slot : outcome.Slot index value) (late : slot.IsLate) :
    ∃ arg, (List.zipWith applyMark before.args.args outcome.marks)[index]? = some arg
      ∧ arg.value = some value ∧ arg.flags.needsTemp = false := by
  refine ⟨_, getElem?_zipWith_eq_some.mpr ⟨slot.arg, slot.mark, slot.here, slot.atMark, rfl⟩, ?_, ?_⟩
  · simp [Argument.value, applyMark, slot.early]
  · obtain ⟨_, _, unpinned, _⟩ := slot.late_cases late
    simp [applyMark, unpinned, (outcome.undecided slot.arg (mem_of_getElem? slot.here)).unpinned]

-- Where both values are late and left to the prices, the first one is computed first unless it costs
-- less.
theorem runsBefore_iff_prices (first : outcome.Slot index value) {later : Nat} {other : NodeId}
    (second : outcome.Slot later other) (beyond : index < later) (firstLate : first.IsLate)
    (secondLate : second.IsLate) (firstPriced : Schedule.isPriced first.node = true)
    (secondPriced : Schedule.isPriced second.node = true) :
    ∃ x y, run.cost run.completed value = .ok x ∧ run.cost run.completed other = .ok y
      ∧ (outcome.after.args.RunsBefore index later ↔ ¬ x < y) := by
  obtain ⟨data, atData, schedulable, ordered, _⟩ := Schedule.schedule_ok run.schedules
  cases (Procedure.setCall_at outcome.atShaped outcome.marked).symm.trans atData
  have sameNodes : run.completed.nodes = run.shaped.proc.nodes := by
    rw [outcome.marked]
    rfl
  obtain ⟨a, atA, hasV, unpinnedA⟩ := first.atCompleted firstLate
  obtain ⟨b, atB, hasW, unpinnedB⟩ := second.atCompleted secondLate
  obtain ⟨x, y, priceV, priceW, ahead⟩ := Schedule.specified_prices schedulable
    (Nat.ne_of_lt beyond) atA atB hasV hasW (sameNodes ▸ first.atNode)
    (sameNodes ▸ second.atNode) unpinnedA unpinnedB firstPriced secondPriced
  rw [← ordered] at ahead
  refine ⟨x, y, priceV, priceW, ?_⟩
  have notEarly : ∀ {i : Nat} {v : NodeId} (slot : outcome.Slot i v), slot.IsLate →
      i ∉ outcome.after.args.earlyIndices := fun slot late mem => slot.mem_earlyIndices.mp mem late
  have once : run.order.Nodup := outcome.everyone.nodup_iff.mpr nodup_range
  have filtered := idxOf_filter once
    first.mem_order second.mem_order (first.hasLate firstLate) (second.hasLate secondLate)
  unfold ArgList.RunsBefore ArgList.executionOrder
  rw [idxOf_append_of_notMem (notEarly first firstLate),
    idxOf_append_of_notMem (notEarly second secondLate), Nat.add_lt_add_iff_left, outcome.late, filtered,
    ahead]
  constructor
  · rintro ⟨_, _, dearer⟩
    omega
  · intro notCheaper
    have inFirst := mem_append_right outcome.after.args.earlyIndices (first.late_mem firstLate)
    have inSecond := mem_append_right outcome.after.args.earlyIndices (second.late_mem secondLate)
    rw [outcome.late] at inFirst inSecond
    exact ⟨inFirst, inSecond, by omega⟩

theorem late_checked (slot : outcome.Slot index value) (like : slot.profile.likeCall = true)
    (silent : slot.node.effects.calls = false) :
    settings.options.debugCode = true ∧ settings.target.fixedOut = true
      ∧ (slot.node.exceptions.indexOutOfRange || slot.node.exceptions.overflow) = true
      ∧ ∃ k arg, k ≠ index ∧ before.args.args[k]? = some arg ∧ arg.placement.hasStack = true := by
  obtain calls | ⟨debug, fixed, _, _, checks, k, summary, apart, atSummary, hasStack⟩ :=
    (profiles_like_iff (outcome.analysis.profiled ▸ slot.atProfile)).mp like
  · simp [slot.effects, silent] at calls
  · refine ⟨debug, fixed, slot.exceptions ▸ checks, ?_⟩
    have bound : k < before.args.args.length := by
      rw [← ArgSummary.ofArguments_length outcome.analysis.summarized]
      exact lt_length atSummary
    obtain ⟨same, atSame, described⟩ := ArgSummary.ofArguments_describes
      outcome.analysis.summarized (List.getElem?_eq_getElem bound)
    cases atSummary.symm.trans atSame
    exact ⟨k, _, apart, getElem?_eq_getElem bound, described.hasStack ▸ hasStack⟩

end Outcome.Slot

-- Of two values that may raise and can be told apart, the one that stood first in the list is
-- computed first, unless it is a check that a dearer value overtakes.
theorem raising_values_keep_order_iff (run : CallRun settings id) (triple : Triple)
    (shipped : settings.target = Target.ofTriple triple) (list : ArgList)
    (atShaped : run.shaped.proc.calls[id]?.map Call.args = some list)
    (placed : ∀ arg ∈ list.args, arg.placement.isEmpty = false)
    (values : ∀ arg ∈ list.args, ∃ value, arg.early = some value
      ∧ run.shaped.proc.ExactUnder value)
    (i j : Nat) (first second : Argument) (v w : NodeId) (inFront : i < j)
    (atFirst : list.args[i]? = some first) (atSecond : list.args[j]? = some second)
    (hasV : first.early = some v) (hasW : second.early = some w)
    (apart : run.shaped.proc.RaisesApart v w) :
    ∃ after, run.settled.calls[id]?.map Call.args = some after
      ∧ (after.RunsBefore i j ↔ ¬ run.Overtaken list after i v w) := by
  obtain ⟨before, outcome, rfl, atSettled⟩ := run.outcome_of atShaped
  obtain ⟨⟨slotI⟩, exactV⟩ := outcome.exact_slot values atFirst hasV
  obtain ⟨⟨slotJ⟩, exactW⟩ := outcome.exact_slot values atSecond hasW
  refine ⟨outcome.after.args, atSettled, ?_⟩
  have raising := apart
  obtain ⟨a, b, atA, atB, raisesA, raisesB, _⟩ := raising
  cases slotI.atNode.symm.trans atA
  cases slotJ.atNode.symm.trans atB
  by_cases lateI : slotI.IsLate
  · obtain ⟨like, spares⟩ := slotI.late_raises slotJ inFront lateI apart
    have lateJ := slotI.late_spreads inFront shipped
      (placed _ (List.mem_of_getElem? slotJ.here)) exactW lateI like raisesA spares
    have silentJ : slotJ.node.effects.calls = false := by
      simp only [Effects.isPersistent, Bool.or_eq_false_iff] at spares
      exact spares.2
    have callsV := run.shaped.proc.callsUnder_iff exactV slotI.atNode
    by_cases callsI : slotI.node.effects.calls = true
    · -- a call goes to the front of the late list
      have before := slotI.call_runsBefore exactV lateI lateJ callsI silentJ
      exact ⟨fun _ overtaken => overtaken.silent (callsV.mpr callsI), fun _ => before⟩
    · have silentI : slotI.node.effects.calls = false := eq_false_of_ne_true callsI
      have exactAt : ∀ {root : NodeId}, run.shaped.proc.ExactUnder root → run.shaped.proc.Exact root := by
        rintro root ⟨visited, walked, each⟩
        exact each root (run.shaped.proc.root_visited walked)
      obtain ⟨x, y, priceV, priceW, before⟩ := slotI.runsBefore_iff_prices slotJ inFront lateI lateJ
        (run.shaped.proc.raises_isPriced slotI.atNode (exactAt exactV) raisesA silentI)
        (run.shaped.proc.raises_isPriced slotJ.atNode (exactAt exactW) raisesB silentJ)
      rw [before]
      refine not_congr ⟨fun cheaper => ?_, fun overtaken => ?_⟩
      · obtain ⟨debug, fixed, checks, beside⟩ := slotI.late_checked like silentI
        exact ⟨debug, fixed, ⟨slotI.node, slotI.atNode, checks⟩, fun calls => callsI (callsV.mp calls), beside,
          ⟨slotI.last, slotI.atLast, lateI⟩, x, y, priceV, priceW, cheaper⟩
      · obtain ⟨x', y', priceV', priceW', cheaper⟩ := overtaken.cheaper
        cases priceV.symm.trans priceV'
        cases priceW.symm.trans priceW'
        exact cheaper
  · refine ⟨fun _ overtaken => ?_, fun _ => slotI.early_runsBefore slotJ inFront lateI⟩
    obtain ⟨last, atLast, alone⟩ := overtaken.late
    cases slotI.atLast.symm.trans atLast
    exact lateI alone

-- An addition that may overflow and a load behind a load in registers, two constants, and a constant
-- on the stack.
def overflowBeforeLoad : List Instruction :=
  [.declare .i32, .declare .ptr, .readLocal 0, .readLocal 0, .binary .addOvf 0 1, .readLocal 1,
    .load 3 false .ptr, .load 4 false .i32, .intConst 2 .i32, .intConst 3 .i32, .intConst 4 .i32,
    .call { target := .method "taker"
            args := [(2, .i32), (5, .i32), (6, .i32), (7, .i32), (8, .i32)] },
    .statement 9]

def inDebugCode : Settings :=
  { target := Target.ofTriple ⟨.x64, .windows⟩, options := { debugCode := true } }

def overflowBeforeLoadRun : CallRun inDebugCode 0 :=
  (CallRun.ofBody? inDebugCode 0 overflowBeforeLoad).get (by decide +kernel)

theorem overflow_before_load_iff :
    overflowBeforeLoadRun.shaped.proc.RaisesApart 2 5
      ∧ ∃ list after, overflowBeforeLoadRun.shaped.proc.calls[0]?.map Call.args = some list
        ∧ overflowBeforeLoadRun.settled.calls[0]?.map Call.args = some after
        ∧ (after.RunsBefore 0 1 ↔ ¬ overflowBeforeLoadRun.Overtaken list after 0 2 5) := by
  have apart : overflowBeforeLoadRun.shaped.proc.RaisesApart 2 5 := by decide +kernel
  obtain ⟨list, atShaped, placed, values, slots⟩ := overflowBeforeLoadRun.list_of_check [(0, 2), (1, 5)]
    (by decide +kernel)
  obtain ⟨first, atFirst, hasAdd⟩ := slots (0, 2) (by simp)
  obtain ⟨second, atSecond, hasLoad⟩ := slots (1, 5) (by simp)
  obtain ⟨after, atSettled, before⟩ := raising_values_keep_order_iff overflowBeforeLoadRun
    ⟨.x64, .windows⟩ rfl list atShaped placed values 0 1 first second 2 5 (by decide) atFirst atSecond
    hasAdd hasLoad apart
  exact ⟨apart, list, after, atShaped, atSettled, before⟩

-- In debug code the load, whose exception is another one, is computed before the addition.
theorem load_overtakes_overflow :
    ∃ made proc outcome data, Procedure.build "caller" overflowBeforeLoad = .ok (made, proc)
      ∧ proc.lower inDebugCode Transform.identity = .ok outcome ∧ outcome.refusal = none
      ∧ proc.RaisesApart 2 5 ∧ outcome.proc.calls[0]? = some data
      ∧ data.args.args.map Argument.late = [some 2, some 5, some 6, some 7, some 8]
      ∧ data.args.RunsBefore 1 0 := by
  obtain ⟨made, proc, outcome, builds, apart, done, unrefused, ended⟩ := lowered_of_check overflowBeforeLoad
    inDebugCode (fun proc => proc.RaisesApart 2 5) (fun outcome => outcome.refusal = none
      ∧ outcome.proc.calls[0]?.any fun data : Call => decide
        (data.args.args.map Argument.late = [some 2, some 5, some 6, some 7, some 8] ∧ data.args.RunsBefore 1 0))
    (by decide +kernel)
  simp only [Option.any_eq_true, decide_eq_true_eq] at ended
  obtain ⟨data, here, late, before⟩ := ended
  exact ⟨made, proc, outcome, data, builds, done, unrefused, apart, here, late, before⟩

end CallRun

end CallLowering
