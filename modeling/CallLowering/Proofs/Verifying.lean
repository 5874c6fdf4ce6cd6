import CallLowering.Check.Verifier
import CallLowering.Proofs.Growth
import CallLowering.Proofs.Placing

/-!
What the checks of lowered calls look for. Each of them finds nothing exactly if the argument list has
the property that the check is about.
-/

namespace CallLowering

open List

variable {proc : Procedure} {list : ArgList} {config : CheckConfig} {args : List Argument} {found : List Located}
  {root : NodeId} {after : List Reg}

section Sorting

variable {α : Type} {le : α → α → Bool}

variable (trans : ∀ a b c, le a b = true → le b c = true → le a c = true)
  (total : ∀ a b, le a b = true ∨ le b a = true)

include trans total

theorem insertStable_sorted (item : α) {items : List α} (sorted : items.Pairwise fun a b => le a b = true) :
    (insertStable le item items).Pairwise fun a b => le a b = true := by
  induction items with
  | nil => simp [insertStable]
  | cons head rest ih =>
    obtain ⟨first, others⟩ := pairwise_cons.mp sorted
    by_cases before : le item head = true
    · simp only [insertStable, before, if_true]
      refine .cons (fun other mem => ?_) sorted
      rcases mem_cons.mp mem with rfl | later
      · exact before
      · exact trans item head other before (first other later)
    · simp only [insertStable, before, Bool.false_eq_true, if_false]
      refine .cons (fun other mem => ?_) (ih others)
      rcases mem_cons.mp ((insertStable_perm le item rest).mem_iff.mp mem) with rfl | later
      · exact (total head other).resolve_right before
      · exact first other later

theorem stableSort_sorted (items : List α) : (stableSort le items).Pairwise fun a b => le a b = true := by
  induction items with
  | nil => exact .nil
  | cons head rest ih => exact insertStable_sorted trans total head ih

end Sorting

def Procedure.Under (proc : Procedure) (root : NodeId) (accept : NodeKind → Prop) : Prop :=
  ∃ nodes, proc.visited root = .ok nodes ∧ ∃ node ∈ nodes, accept node.kind

namespace Argument

-- Which nodes a finished argument has, and what they may do.
structure Shaped (proc : Procedure) (arg : Argument) : Prop where
  present : arg.early.isSome = true ∨ arg.late.isSome = true
  stores : ∀ early late, arg.early = some early → arg.late = some late →
    ∃ node, proc.nodes[early]? = some node ∧ node.effects.assigns = true
  silent : ∀ early late, arg.early = some early → arg.late = some late →
    ∃ node, proc.nodes[late]? = some node ∧ node.effects.assigns = false ∧ node.effects.calls = false
  onStack : arg.early.isSome = true → arg.late = none →
    ∀ segment ∈ arg.placement.segments, segment.reg? = none

-- The segments of a finished argument leave no gap and stay in the outgoing area.
structure Placed (stackSize : Nat) (arg : Argument) : Prop where
  present : arg.placement.segments ≠ []
  adjoining : arg.placement.byRef = false → ∃ size, Adjoining 0 size arg.placement.byStart
  within : ∀ segment ∈ arg.placement.segments, ∀ offset, segment.stackOffset? = some offset →
    offset + segment.size ≤ stackSize

def TempUsed (proc : Procedure) (arg : Argument) : Prop :=
  arg.flags.isTemp = true → ∃ temp early late,
    arg.temp = some temp ∧ arg.early = some early ∧ arg.late = some late
      ∧ proc.Under early (fun kind => ∃ value, kind = .storeLocal temp value)
      ∧ proc.Under late (fun kind =>
        kind = .readLocal temp ∨ (∃ offset, kind = .readField temp offset) ∨ kind = .localAddr temp)

end Argument

-- Of two stack segments, the later one starts behind the earlier one.
def Verifier.Slot.Apart (first second : Slot) : Prop :=
  (first.le second = true → first.stop ≤ second.start) ∧ (second.le first = true → second.stop ≤ first.start)

namespace ArgList

-- The late order names each argument with a late node once.
structure Ordered (list : ArgList) : Prop where
  once : list.lateOrder.Nodup
  listed : ∀ index, index ∈ list.lateOrder
    ↔ ∃ arg late, list.args[index]? = some arg ∧ arg.late = some late

-- Each argument has its place, and no two have one in common.
structure Apart (list : ArgList) : Prop where
  placed : ∀ arg ∈ list.args, arg.Placed list.stackSize
  regs : (list.args.flatMap fun arg => arg.placement.regs).Nodup
  slots : (Verifier.slots list.args).Pairwise Verifier.Slot.Apart

structure Verified (proc : Procedure) (list : ArgList) : Prop where
  shaped : ∀ arg ∈ list.args, arg.Shaped proc
  ordered : list.Ordered
  apart : list.Apart
  temps : ∀ arg ∈ list.args, arg.TempUsed proc

end ArgList

namespace Verifier

theorem perArgument_clean {check : Argument → Except Fault (List Finding)} {holds : Argument → Prop}
    (exact_ : ∀ arg found, check arg = .ok found → (found = [] ↔ holds arg))
    (done : perArgument check args = .ok found) : found = [] ↔ ∀ arg ∈ args, holds arg := by
  simp only [perArgument, except_bind_ok_iff, mapM_except_ok_iff, except_pure_ok_iff] at done
  obtain ⟨parts, checked, rfl⟩ := done
  generalize 0 = first at checked
  induction args generalizing first parts with
  | nil =>
    cases checked
    simp
  | cons arg rest ih =>
    obtain ⟨part, others, ⟨here, checkedHere, rfl⟩, later, rfl⟩ := List.forall₂_cons_left_iff.mp checked
    rw [flatten_cons, append_eq_nil_iff, map_eq_nil_iff, exact_ arg here checkedHere,
      ih others (first + 1) later, forall_mem_cons]

theorem shape_clean (proc : Procedure) (arg : Argument) (found : List Finding)
    (done : shape proc arg = .ok found) : found = [] ↔ arg.Shaped proc := by
  cases atEarly : arg.early with
  | none =>
    cases atLate : arg.late with
    | none =>
      simp only [shape, atEarly, atLate] at done
      cases done
      refine iff_of_false (cons_ne_nil _ _) fun shaped => ?_
      simpa [atEarly, atLate] using shaped.present
    | some late =>
      simp only [shape, atEarly, atLate] at done
      cases done
      refine iff_of_true rfl ⟨.inr (by rw [atLate]; rfl), ?_, ?_, ?_⟩ <;> simp [atEarly]
  | some early =>
    cases atLate : arg.late with
    | none =>
      simp only [shape, atEarly, atLate, except_pure_ok_iff] at done
      by_cases hasReg : arg.placement.hasReg = true
      · obtain ⟨segment, mem, inReg⟩ := any_eq_true.mp hasReg
        rw [if_pos hasReg] at done
        refine iff_of_false (done ▸ cons_ne_nil _ _) fun shaped => ?_
        rw [Segment.isReg, shaped.onStack (by rw [atEarly]; rfl) atLate segment mem] at inReg
        cases inReg
      · rw [if_neg hasReg] at done
        refine iff_of_true done.symm ⟨.inl (by rw [atEarly]; rfl), ?_, ?_, fun _ _ segment mem => ?_⟩
        · simp [atLate]
        · simp [atLate]
        · by_contra inReg
          exact hasReg (any_eq_true.mpr ⟨segment, mem, Option.isSome_iff_ne_none.mpr inReg⟩)
    | some late =>
      simp only [shape, atEarly, atLate, except_bind_ok_iff, Procedure.node_ok_iff, except_pure_ok_iff] at done
      obtain ⟨earlyNode, earlyHere, lateNode, lateHere, rfl⟩ := done
      by_cases stores : earlyNode.effects.assigns = true
      · by_cases loud : lateNode.effects.isPersistent = true
        · refine iff_of_false (by simp [stores, loud]) fun shaped => ?_
          obtain ⟨_, same, silent⟩ := shaped.silent early late atEarly atLate
          cases lateHere.symm.trans same
          simp [Effects.isPersistent, silent] at loud
        · simp only [Effects.isPersistent, Bool.or_eq_true, not_or, Bool.not_eq_true] at loud
          refine iff_of_true (by simp [stores, Effects.isPersistent, loud])
            ⟨.inl (by rw [atEarly]; rfl), ?_, ?_, by simp [atLate]⟩
          · rintro _ _ sameEarly _
            cases atEarly.symm.trans sameEarly
            exact ⟨earlyNode, earlyHere, stores⟩
          · rintro _ _ _ sameLate
            cases atLate.symm.trans sameLate
            exact ⟨lateNode, lateHere, loud⟩
      · refine iff_of_false (by simp [stores]) fun shaped => ?_
        obtain ⟨_, same, assigns⟩ := shaped.stores early late atEarly atLate
        cases earlyHere.symm.trans same
        exact stores assigns

theorem orderEntries_clean (args : List Argument) (seen order : List Nat) :
    orderEntries args seen order = []
      ↔ order.Nodup ∧ ∀ index ∈ order, index ∉ seen
        ∧ ∃ arg late, args[index]? = some arg ∧ arg.late = some late := by
  induction order generalizing seen with
  | nil => simp [orderEntries]
  | cons index rest ih =>
    cases here : args[index]? with
    | none => simp [orderEntries, here]
    | some arg =>
      rw [forall_mem_cons, nodup_cons]
      simp only [orderEntries, here, append_eq_nil_iff, ite_eq_right_iff, cons_ne_nil, imp_false,
        contains_eq_mem, decide_eq_true_eq, Option.isNone_iff_eq_none, ih (index :: seen),
        mem_cons, not_or]
      constructor
      · rintro ⟨⟨unseen, present⟩, once, others⟩
        refine ⟨⟨fun again => (others index again).1.1 rfl, once⟩, ⟨unseen, ?_⟩, fun other mem => ?_⟩
        · obtain ⟨late, atLate⟩ := Option.ne_none_iff_exists'.mp present
          exact ⟨arg, late, rfl, atLate⟩
        · exact ⟨(others other mem).1.2, (others other mem).2⟩
      · rintro ⟨⟨notAgain, once⟩, ⟨unseen, _, late, same, atLate⟩, others⟩
        cases same
        refine ⟨⟨unseen, by simp [atLate]⟩, once, fun other mem => ⟨⟨?_, ?_⟩, (others other mem).2⟩⟩
        · rintro rfl
          exact notAgain mem
        · exact (others other mem).1

theorem lateOrder_clean : lateOrder list = [] ↔ list.Ordered := by
  simp only [lateOrder, append_eq_nil_iff, orderEntries_clean, not_mem_nil, not_false_eq_true,
    true_and, map_eq_nil_iff, filter_eq_nil_iff, mem_zipIdx_iff_getElem?, Bool.and_eq_true,
    Bool.not_eq_true', contains_eq_mem, decide_eq_false_iff_not, not_and, Classical.not_not,
    Prod.forall]
  constructor
  · rintro ⟨⟨once, named⟩, complete⟩
    refine ⟨once, fun index => ⟨named index, ?_⟩⟩
    rintro ⟨arg, late, here, atLate⟩
    exact complete arg index here (by rw [atLate]; rfl)
  · intro ordered
    refine ⟨⟨ordered.once, fun index => (ordered.listed index).mp⟩, fun arg index here hasLate => ?_⟩
    obtain ⟨late, atLate⟩ := Option.isSome_iff_exists.mp hasLate
    exact (ordered.listed index).mpr ⟨arg, late, here, atLate⟩

theorem firstGap_clean {expected : Nat} {segments : List Segment} {found : List Finding}
    (done : firstGap expected segments = .ok found) : found = [] ↔ ∃ size, Adjoining expected size segments := by
  induction segments generalizing expected with
  | nil =>
    cases done
    exact iff_of_true rfl ⟨expected, rfl⟩
  | cons segment rest ih =>
    by_cases here : segment.start = expected
    · simp only [firstGap, here, if_true, except_bind_ok_iff, Word.add, Word.check_ok_iff] at done
      obtain ⟨_, ⟨_, rfl⟩, later⟩ := done
      rw [ih later]
      exact exists_congr fun size => ⟨fun rest => ⟨here, rest⟩, fun adjoining => adjoining.2⟩
    · simp only [firstGap, here, if_false, Except.ok.injEq] at done
      subst done
      refine iff_of_false (cons_ne_nil _ _) ?_
      rintro ⟨_, adjoining⟩
      exact here adjoining.1

-- The registers of some segments against those in use: none is named twice.
def Unused (used regs : List Reg) : Prop := regs.Nodup ∧ ∀ reg ∈ regs, reg ∉ used

theorem unused_append (used front back : List Reg) :
    Unused used (front ++ back) ↔ Unused used front ∧ Unused (front ++ used) back := by
  simp only [Unused, nodup_append, mem_append, or_imp, forall_and, not_or]
  constructor
  · rintro ⟨⟨front, back, apart⟩, unusedFront, unusedBack⟩
    exact ⟨⟨front, unusedFront⟩, back, fun reg inBack inFront => apart reg inFront reg inBack rfl, unusedBack⟩
  · rintro ⟨⟨front, unusedFront⟩, back, apart, unusedBack⟩
    refine ⟨⟨front, back, ?_⟩, unusedFront, unusedBack⟩
    rintro reg inFront _ inBack rfl
    exact apart reg inBack inFront

variable {stackSize : Nat} {used : List Reg}

theorem segments_clean {segs : List Segment} {found : List Finding}
    (done : segments stackSize used segs = .ok (found, after)) :
    after = (segs.filterMap Segment.reg?).reverse ++ used
      ∧ (found = [] ↔ Unused used (segs.filterMap Segment.reg?)
        ∧ ∀ segment ∈ segs, ∀ offset, segment.stackOffset? = some offset → offset + segment.size ≤ stackSize) := by
  induction segs generalizing used found with
  | nil =>
    cases done
    simp [Unused]
  | cons segment rest ih =>
    cases place : segment.place with
    | reg reg =>
      have named : segment.reg? = some reg := by simp [Segment.reg?, place]
      have offStack : segment.stackOffset? = none := by simp [Segment.stackOffset?, place]
      simp only [segments, place, except_bind_ok_iff, except_pure_ok_iff, Prod.mk.injEq] at done
      obtain ⟨⟨others, _⟩, later, rfl, rfl⟩ := done
      obtain ⟨last, clean⟩ := ih later
      rw [filterMap_cons_some named, append_eq_nil_iff, clean, forall_mem_cons]
      refine ⟨by simpa using last, ?_⟩
      have split := unused_append used [reg] (rest.filterMap Segment.reg?)
      rw [singleton_append] at split
      rw [split]
      by_cases again : reg ∈ used
      · simp [again, Unused]
      · simp [again, Unused, offStack]
    | stack offset =>
      have unnamed : segment.reg? = none := by simp [Segment.reg?, place]
      have onStack : segment.stackOffset? = some offset := by simp [Segment.stackOffset?, place]
      simp only [segments, place, except_bind_ok_iff, Word.add, Word.check_ok_iff, except_pure_ok_iff,
        Prod.mk.injEq] at done
      obtain ⟨_, ⟨_, rfl⟩, ⟨others, _⟩, later, rfl, rfl⟩ := done
      obtain ⟨last, clean⟩ := ih later
      rw [filterMap_cons_none unnamed, append_eq_nil_iff, clean, forall_mem_cons]
      refine ⟨last, ?_⟩
      by_cases past : offset + segment.size > stackSize
      · simp only [past, if_true, cons_ne_nil, false_and, false_iff, onStack]
        rintro ⟨_, within, _⟩
        exact Nat.not_le_of_gt past (within offset rfl)
      · simp only [past, if_false, true_and, onStack, Option.some.injEq, forall_eq', Nat.le_of_not_gt past]

theorem placement_clean {arg : Argument} {found : List Finding}
    (done : placement stackSize used arg.placement = .ok (found, after)) :
    after = arg.placement.regs.reverse ++ used
      ∧ (found = [] ↔ Unused used arg.placement.regs ∧ arg.Placed stackSize) := by
  by_cases empty : arg.placement.isEmpty = true
  · simp only [placement, empty, if_true, Except.ok.injEq, Prod.mk.injEq] at done
    obtain ⟨rfl, rfl⟩ := done
    have none : arg.placement.segments = [] := isEmpty_iff.mp empty
    refine ⟨by simp [Placement.regs, none], iff_of_false (cons_ne_nil _ _) fun ⟨_, placed⟩ => ?_⟩
    exact placed.present none
  · obtain ⟨gaps, others, checked, rfl, adjoining⟩ : ∃ gaps others,
        segments stackSize used arg.placement.segments = .ok (others, after) ∧ found = gaps ++ others
        ∧ (gaps = [] ↔ (arg.placement.byRef = false → ∃ size, Adjoining 0 size arg.placement.byStart)) := by
      cases byRef : arg.placement.byRef with
      | true =>
        simp only [placement, empty, byRef, Bool.false_eq_true, if_false, if_true, except_bind_ok_iff,
          except_pure_ok_iff, Prod.mk.injEq] at done
        obtain ⟨_, rfl, ⟨others, _⟩, checked, rfl, rfl⟩ := done
        exact ⟨[], others, checked, rfl, by simp⟩
      | false =>
        simp only [placement, empty, byRef, Bool.false_eq_true, if_false, except_bind_ok_iff, except_pure_ok_iff,
          Prod.mk.injEq] at done
        obtain ⟨gaps, gapless, ⟨others, _⟩, checked, rfl, rfl⟩ := done
        exact ⟨gaps, others, checked, rfl, by simpa using firstGap_clean gapless⟩
    obtain ⟨last, clean⟩ := segments_clean checked
    refine ⟨last, ?_⟩
    rw [append_eq_nil_iff, clean, adjoining]
    constructor
    · rintro ⟨noGap, unused, within⟩
      exact ⟨unused, fun none => empty (isEmpty_iff.mpr none), noGap, within⟩
    · rintro ⟨unused, placed⟩
      exact ⟨placed.adjoining, unused, placed.within⟩

theorem placementsFrom_clean {args : List (Argument × Nat)} (done : placementsFrom stackSize used args = .ok found) :
    found = [] ↔ Unused used (args.flatMap fun entry => entry.1.placement.regs)
      ∧ ∀ entry ∈ args, entry.1.Placed stackSize := by
  induction args generalizing used found with
  | nil =>
    cases done
    simp [Unused]
  | cons entry rest ih =>
    obtain ⟨arg, index⟩ := entry
    simp only [placementsFrom, except_bind_ok_iff, except_pure_ok_iff] at done
    obtain ⟨⟨here, after⟩, checked, later, others, rfl⟩ := done
    obtain ⟨last, clean⟩ := placement_clean checked
    have sameUsed : ∀ regs, Unused after regs ↔ Unused (arg.placement.regs ++ used) regs := fun regs => by
      simp [Unused, last]
    rw [append_eq_nil_iff, map_eq_nil_iff, clean, ih others, sameUsed,
      flatMap_cons, unused_append, forall_mem_cons]
    tauto

theorem Slot.le_iff {a b : Slot} : a.le b = true ↔ a.start < b.start
    ∨ a.start = b.start ∧ (a.stop < b.stop ∨ a.stop = b.stop ∧ a.index ≤ b.index) := by
  simp [Slot.le]

theorem Slot.le_trans (a b c : Slot) (first : a.le b = true) (second : b.le c = true) : a.le c = true := by
  rw [le_iff] at first second ⊢
  omega

theorem Slot.le_total (a b : Slot) : a.le b = true ∨ b.le a = true := by
  rw [le_iff, le_iff]
  omega

theorem overlaps_clean {slots : List Slot} (forward : ∀ slot ∈ slots, slot.start ≤ slot.stop) :
    overlaps slots = [] ↔ slots.Pairwise fun first second => first.stop ≤ second.start := by
  induction slots with
  | nil => simp [overlaps]
  | cons first rest ih =>
    cases rest with
    | nil => simp [overlaps]
    | cons second others =>
      have here := forward second (by simp)
      have clean := ih fun slot mem => forward slot (by simp [mem])
      rw [pairwise_cons, ← clean, overlaps, append_eq_nil_iff]
      simp only [ite_eq_right_iff, cons_ne_nil, imp_false, Nat.not_lt, forall_mem_cons]
      constructor
      · rintro ⟨behind, rest⟩
        refine ⟨⟨behind, fun other mem => ?_⟩, rest⟩
        have further := (pairwise_cons.mp (clean.mp rest)).1 other mem
        omega
      · rintro ⟨⟨behind, _⟩, rest⟩
        exact ⟨behind, rest⟩

theorem Slot.Apart.symm {first second : Slot} (apart : first.Apart second) : second.Apart first :=
  ⟨apart.2, apart.1⟩

theorem slots_forward {slot : Slot} (mem : slot ∈ slots args) : slot.start ≤ slot.stop := by
  obtain ⟨entry, _, mem⟩ := mem_flatMap.mp mem
  obtain ⟨segment, _, taken⟩ := mem_filterMap.mp mem
  obtain ⟨offset, _, rfl⟩ := Option.map_eq_some_iff.mp taken
  exact Nat.le_add_right _ _

theorem sorted_overlaps_clean :
    overlaps (stableSort Slot.le (slots args)) = [] ↔ (slots args).Pairwise Slot.Apart := by
  have perm := stableSort_perm Slot.le (slots args)
  have sorted := stableSort_sorted Slot.le_trans Slot.le_total (slots args)
  rw [overlaps_clean fun slot mem => slots_forward (perm.mem_iff.mp mem),
    ← perm.pairwise_iff Slot.Apart.symm]
  constructor
  · intro behind
    refine (sorted.and behind).imp fun {first second} ⟨before, behind⟩ => ⟨fun _ => behind, fun again => ?_⟩
    rw [Slot.le_iff] at before again
    omega
  · intro apart
    exact (sorted.and apart).imp fun ⟨before, apart⟩ => apart.1 before

theorem placements_clean (done : placements list = .ok found) : found = [] ↔ list.Apart := by
  simp only [placements, except_bind_ok_iff, except_pure_ok_iff] at done
  obtain ⟨placed, checked, rfl⟩ := done
  have regs : list.args.zipIdx.flatMap (fun entry => entry.1.placement.regs)
      = list.args.flatMap fun arg => arg.placement.regs := by
    conv_rhs => rw [← zipIdx_map_fst 0 list.args, flatMap_map]
  have each : (∀ entry ∈ list.args.zipIdx, entry.1.Placed list.stackSize)
      ↔ ∀ arg ∈ list.args, arg.Placed list.stackSize := by
    conv_rhs => rw [← zipIdx_map_fst 0 list.args, forall_mem_map]
  rw [append_eq_nil_iff, placementsFrom_clean checked, sorted_overlaps_clean, regs, each]
  constructor
  · rintro ⟨⟨⟨regs, _⟩, placed⟩, slots⟩
    exact ⟨placed, regs, slots⟩
  · intro apart
    exact ⟨⟨⟨apart.regs, fun _ _ => not_mem_nil⟩, apart.placed⟩, apart.slots⟩

theorem mem_storedLocals_iff {stored : List LocalId} (var : LocalId) (found : proc.storedLocals root = .ok stored) :
    var ∈ stored ↔ proc.Under root fun kind => ∃ value, kind = .storeLocal var value := by
  simp only [Procedure.storedLocals, except_bind_ok_iff, except_pure_ok_iff] at found
  obtain ⟨nodes, walked, rfl⟩ := found
  have collected : ∀ vars seen : List LocalId,
      var ∈ vars.foldl (fun seen var => if seen.contains var then seen else seen ++ [var]) seen
        ↔ var ∈ vars ∨ var ∈ seen := by
    intro vars
    induction vars with
    | nil => simp
    | cons first rest ih =>
      intro seen
      rw [foldl_cons, ih]
      by_cases again : first ∈ seen
      · simp only [contains_eq_mem, again, decide_true, if_true, mem_cons]
        grind
      · simp only [contains_eq_mem, again, decide_false, Bool.false_eq_true, if_false,
          mem_append, mem_cons, not_mem_nil, or_false]
        tauto
  rw [collected, mem_filterMap]
  simp only [not_mem_nil, or_false, Procedure.Under, walked, Except.ok.injEq, exists_eq_left']
  refine exists_congr fun node => and_congr_right fun _ => ?_
  cases node.kind <;> simp [NodeKind.storesLocal?, eq_comm]

theorem contains_iff {accept : NodeKind → Bool} {answer : Bool} (found : proc.contains root accept = .ok answer) :
    answer = true ↔ proc.Under root fun kind => accept kind = true := by
  simp only [Procedure.contains, except_bind_ok_iff, except_pure_ok_iff] at found
  obtain ⟨nodes, walked, rfl⟩ := found
  simp [Procedure.Under, walked, any_eq_true]

theorem mentionsLocal_iff {kind : NodeKind} {var : LocalId} :
    (kind.mentionsLocal? == some var) = true
      ↔ kind = .readLocal var ∨ (∃ offset, kind = .readField var offset) ∨ kind = .localAddr var := by
  cases kind <;> simp [NodeKind.mentionsLocal?]

theorem temps_clean (proc : Procedure) (arg : Argument) (found : List Finding)
    (done : temps proc arg = .ok found) : found = [] ↔ arg.TempUsed proc := by
  by_cases isTemp : arg.flags.isTemp = true
  · simp only [temps, isTemp, Bool.not_true, Bool.false_eq_true, if_false] at done
    split at done
    · rename_i temp early late atTemp atEarly atLate
      simp only [except_bind_ok_iff, except_pure_ok_iff] at done
      obtain ⟨stored, stores, read, reads, rfl⟩ := done
      have storing := mem_storedLocals_iff temp stores
      have reading := contains_iff reads
      simp only [mentionsLocal_iff] at reading
      simp only [Argument.TempUsed, isTemp, true_imp_iff, atTemp, atEarly, atLate, Option.some.injEq,
        exists_and_left, exists_eq_left', ← storing, ← reading]
      by_cases isStored : temp ∈ stored <;> cases read <;> simp [isStored]
    · rename_i incomplete
      cases done
      refine iff_of_false (cons_ne_nil _ _) fun used => ?_
      obtain ⟨temp, early, late, atTemp, atEarly, atLate, _⟩ := used isTemp
      exact incomplete temp early late atTemp atEarly atLate
  · simp only [temps, isTemp, Bool.not_false, if_true] at done
    cases done
    exact iff_of_true rfl fun isTemp' => absurd isTemp' isTemp

theorem findings_ok_iff (materialized : list.isMaterialized = true) :
    findings config proc list = .ok found
      ↔ ∃ shapes placed temporary, perArgument (shape proc) list.args = .ok shapes
        ∧ (if config.checksPlacements = true then placements list else .ok []) = .ok placed
        ∧ (if config.checksTemps = true then perArgument (temps proc) list.args else .ok []) = .ok temporary
        ∧ shapes ++ (if config.checksLateOrder = true then lateOrder list else []) ++ placed ++ temporary = found := by
  cases onPlacements : config.checksPlacements <;> cases onTemps : config.checksTemps <;>
    simp only [findings, materialized, onPlacements, onTemps, Bool.not_true, Bool.false_eq_true, if_false,
      if_true, except_bind_ok_iff, pure, Except.pure, Except.ok.injEq, exists_and_left]

theorem findings_verified (materialized : list.isMaterialized = true) (full : config.level = .full)
    (done : findings config proc list = .ok []) : list.Verified proc := by
  obtain ⟨shapes, placed, temporary, shaped, checked, tested, none⟩ := (findings_ok_iff materialized).mp done
  have all : config.checksLateOrder = true ∧ config.checksPlacements = true ∧ config.checksTemps = true := by
    simp [CheckConfig.checksLateOrder, CheckConfig.checksPlacements, CheckConfig.checksTemps, full]
  simp only [all, if_true] at checked tested none
  obtain ⟨⟨⟨noShape, noOrder⟩, noPlacement⟩, noTemp⟩ := by
    simpa only [append_eq_nil_iff] using none
  exact ⟨(perArgument_clean (shape_clean proc) shaped).mp noShape, lateOrder_clean.mp noOrder,
    (placements_clean checked).mp noPlacement,
    (perArgument_clean (temps_clean proc) tested).mp noTemp⟩

theorem verified_findings (materialized : list.isMaterialized = true) (verified : list.Verified proc)
    (done : findings config proc list = .ok found) : found = [] := by
  obtain ⟨shapes, placed, temporary, shaped, checked, tested, rfl⟩ := (findings_ok_iff materialized).mp done
  have noShape := (perArgument_clean (shape_clean proc) shaped).mpr verified.shaped
  have noOrder : (if config.checksLateOrder = true then lateOrder list else []) = [] := by
    rw [lateOrder_clean.mpr verified.ordered, ite_self]
  have noPlacement : placed = [] := by
    by_cases on : config.checksPlacements = true
    · rw [if_pos on] at checked
      exact (placements_clean checked).mpr verified.apart
    · rw [if_neg on] at checked
      cases checked
      rfl
  have noTemp : temporary = [] := by
    by_cases on : config.checksTemps = true
    · rw [if_pos on] at tested
      exact (perArgument_clean (temps_clean proc) tested).mpr verified.temps
    · rw [if_neg on] at tested
      cases tested
      rfl
  rw [noShape, noOrder, noPlacement, noTemp]
  rfl

end Verifier

namespace Report

variable {report : Report} {cap : Nat}

theorem isFull_iff : report.isFull cap = true ↔ cap ≠ 0 ∧ cap ≤ report.diagnostics.length := by
  simp [isFull]

theorem merge_of_full (full : report.isFull cap = true) (more : List Diagnostic) : report.merge cap more = report := by
  cases more with
  | nil => rfl
  | cons => exact if_pos full

-- What a report takes over: everything, or as much as there is room for.
theorem merge_eq (more : List Diagnostic) : report.merge cap more
    = ⟨report.diagnostics ++ if cap = 0 then more else more.take (cap - report.diagnostics.length)⟩ := by
  induction more generalizing report with
  | nil => simp [merge]
  | cons diagnostic rest ih =>
    by_cases full : report.isFull cap = true
    · obtain ⟨limited, long⟩ := isFull_iff.mp full
      rw [merge_of_full full, if_neg limited, Nat.sub_eq_zero_of_le long, take_zero, append_nil]
    · rw [merge, if_neg full, ih, append_assoc, length_append, length_singleton]
      by_cases unlimited : cap = 0
      · rw [if_pos unlimited, if_pos unlimited, singleton_append]
      · have room : 0 < cap - report.diagnostics.length := by
          rw [isFull_iff] at full
          omega
        rw [if_neg unlimited, if_neg unlimited, singleton_append, ← Nat.sub_sub, take_cons room]

theorem foldl_push {α : Type} (describe : α → Diagnostic) (items : List α) :
    items.foldl (fun report item => report.push cap (describe item)) report
      = report.merge cap (items.map describe) := by
  induction items generalizing report with
  | nil => rfl
  | cons item rest ih =>
    rw [foldl_cons, ih, push, map_cons, merge]
    split
    · exact merge_of_full ‹_› _
    · rfl

end Report

-- Whatever the cap, a report keeps the first finding, so it is good only if there is none.
theorem Procedure.verifyCall_isOk (proc : Procedure) {id : CallId} {call : Call}
    {report : Report} (here : proc.calls[id]? = some call) (done : proc.verifyCall config id = .ok report) :
    ∃ found, Verifier.findings config proc call.args = .ok found ∧ (report.isOk = true ↔ found = []) := by
  simp only [verifyCall, Report.foldl_push, proc.call_ok_iff.mpr here, except_bind_ok_iff,
    Except.ok.injEq, exists_eq_left'] at done
  obtain ⟨found, checked, done⟩ := done
  refine ⟨found, checked, ?_⟩
  cases found with
  | nil =>
    cases done
    exact iff_of_true rfl rfl
  | cons first rest =>
    obtain ⟨others, some_⟩ : ∃ others, (Report.merge {} config.cap
        ((first :: rest).map (Located.toDiagnostic id))).diagnostics = first.toDiagnostic id :: others := by
      rw [Report.merge_eq]
      by_cases unlimited : config.cap = 0
      · exact ⟨rest.map (Located.toDiagnostic id), by simp [unlimited]⟩
      · obtain ⟨fewer, more⟩ := Nat.exists_eq_succ_of_ne_zero unlimited
        exact ⟨(rest.map (Located.toDiagnostic id)).take fewer, by simp [more]⟩
    simp only [some_, except_bind_ok_iff, except_pure_ok_iff] at done
    obtain ⟨table, _, rfl⟩ := done
    exact iff_of_false (by simp [Report.isOk, Diagnostic.isError, Located.toDiagnostic])
      (cons_ne_nil _ _)

end CallLowering
