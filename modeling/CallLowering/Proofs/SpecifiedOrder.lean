import CallLowering.Lowering.Schedule
import CallLowering.Proofs.Growth
import Mathlib.Data.List.Nodup
import Mathlib.Data.List.Sort

/-!
The late order as a specification. Each argument falls into the first bucket that fits its value, and where
prices decide, the dearer one comes first and of two that cost the same the first in the list.
-/

namespace CallLowering

open List

variable {list : ArgList} {proc : Procedure} {cost : CostModel} {index : Nat}
  {items : List Nat} {arg : Argument}

theorem idxOf_lt_iff {α : Type} [BEq α] [LawfulBEq α] {items : List α} {before : α → α → Prop}
    (sorted : items.Pairwise before) (asymm : ∀ a b, before a b → ¬ before b a) {first second : α}
    (hasFirst : first ∈ items) (hasSecond : second ∈ items) :
    items.idxOf first < items.idxOf second ↔ before first second := by
  have ordered : ∀ a ∈ items, ∀ b ∈ items, items.idxOf a < items.idxOf b → before a b := by
    intro a inA b inB less
    have related := pairwise_iff_getElem.mp sorted _ _ (idxOf_lt_length_of_mem inA)
      (idxOf_lt_length_of_mem inB) less
    simpa only [getElem_idxOf] using related
  refine ⟨ordered first hasFirst second hasSecond, fun isBefore => ?_⟩
  rcases Nat.lt_trichotomy (items.idxOf first) (items.idxOf second) with less | same | greater
  · exact less
  · cases (idxOf_inj hasFirst).mp same
    exact absurd isBefore (asymm first first isBefore)
  · exact absurd (ordered second hasSecond first hasFirst greater) (asymm first second isBefore)

theorem idxOf_filter {keep : Nat → Bool} (once : items.Nodup) {first second : Nat} (hasFirst : first ∈ items)
    (hasSecond : second ∈ items) (keepFirst : keep first = true) (keepSecond : keep second = true) :
    (items.filter keep).idxOf first < (items.filter keep).idxOf second
      ↔ items.idxOf first < items.idxOf second := by
  have sorted : items.Pairwise fun a b => items.idxOf a < items.idxOf b := by
    refine pairwise_iff_getElem.mpr fun i j inI inJ less => ?_
    rwa [once.idxOf_getElem, once.idxOf_getElem]
  exact idxOf_lt_iff (sorted.filter keep) (fun _ _ => Nat.lt_asymm)
    (mem_filter.mpr ⟨hasFirst, keepFirst⟩) (mem_filter.mpr ⟨hasSecond, keepSecond⟩)

namespace Schedule

inductive Bucket where
  | call
  | pinned
  | other
  | localRead
  | constant
deriving DecidableEq, Repr

-- The first bucket that applies, in the order in which the sweeps ask.
def Bucket.of (node : Option Node) (pinned : Bool) : Bucket :=
  if node.any fun node => node.kind.isIntConst then .constant
  else if node.any fun node => node.effects.calls then .call
  else if pinned then .pinned
  else if node.any fun node => node.kind.isLocalRead && !node.ty.isStruct then .localRead
  else .other

def bucket (proc : Procedure) (arg : Argument) : Bucket :=
  .of (arg.value.bind fun value => proc.nodes[value]?) arg.flags.needsTemp

def inBucket (proc : Procedure) (list : ArgList) (which : Bucket) : List Nat :=
  (List.range list.size).filter fun index => list.args[index]?.any (bucket proc · == which)

def priceAt (cost : CostModel) (proc : Procedure) (list : ArgList) (index : Nat) : Nat :=
  (list.args[index]?.bind Argument.value).elim 0 fun value => (cost proc value).toOption.getD 0

def specified (cost : CostModel) (proc : Procedure) (list : ArgList) : List Nat :=
  inBucket proc list .call ++ inBucket proc list .pinned
    ++ (inBucket proc list .other).mergeSort
      (fun i j => priceAt cost proc list j ≤ priceAt cost proc list i)
    ++ inBucket proc list .localRead ++ inBucket proc list .constant

-- A price is only asked for where there is another one to compare it with.
structure Schedulable (cost : CostModel) (proc : Procedure) (list : ArgList) : Prop where
  valued : ∀ arg ∈ list.args, ∀ value, arg.value = some value →
    ∃ node, proc.nodes[value]? = some node
  priced : 2 ≤ (inBucket proc list .other).length → ∀ arg ∈ list.args, bucket proc arg = .other →
    ∀ value, arg.value = some value → ∃ amount, cost proc value = .ok amount

section Stability

variable (price : Nat → Nat)

-- Falling prices, and where they agree rising indices.
def Falls (i j : Nat) : Prop := price j < price i ∨ price i = price j ∧ i < j

theorem falls_asymm (i j : Nat) (falls : Falls price i j) : ¬ Falls price j i := by
  unfold Falls at *
  omega

theorem notDearer_trans (a b c : Nat) (first : decide (price b ≤ price a) = true)
    (second : decide (price c ≤ price b) = true) : decide (price c ≤ price a) = true := by
  simp only [decide_eq_true_eq] at *
  omega

theorem notDearer_total (a b : Nat) : (decide (price b ≤ price a) || decide (price a ≤ price b)) = true := by
  simp only [Bool.or_eq_true, decide_eq_true_eq]
  omega

theorem mergeSort_falls (rising : items.Pairwise (· < ·)) :
    (items.mergeSort fun i j => price j ≤ price i).Pairwise (Falls price) := by
  generalize sortedEq : (items.mergeSort fun i j => price j ≤ price i) = sorted
  have perm : sorted.Perm items := sortedEq ▸ mergeSort_perm items _
  have once : sorted.Nodup := perm.nodup_iff.mpr (rising.imp Nat.ne_of_lt)
  have falling : sorted.Pairwise fun i j => decide (price j ≤ price i) = true := by
    rw [← sortedEq]
    exact pairwise_mergeSort (notDearer_trans price) (notDearer_total price) items
  have positions : sorted.Pairwise fun i j => sorted.idxOf i < sorted.idxOf j := by
    refine pairwise_iff_getElem.mpr fun i j inI inJ less => ?_
    rwa [once.idxOf_getElem i inI, once.idxOf_getElem j inJ]
  refine pairwise_iff_forall_sublist.mpr fun {i j} pair => ?_
  have notRising : price j ≤ price i := by
    simpa using pairwise_iff_forall_sublist.mp falling pair
  have apart : i ≠ j := pairwise_iff_forall_sublist.mp once pair
  unfold Falls
  by_contra neither
  -- The two have the same price and stand the other way round in the list, so the sort kept them so.
  have inList : [j, i].Subperm items := (List.Perm.swap i j []).subperm.trans (pair.subperm.trans perm.subperm)
  have reversed : [j, i].Sublist items :=
    sublist_of_subperm_of_pairwise (r := (· ≤ ·)) inList (by simp; omega) (rising.imp Nat.le_of_lt)
  have kept : [j, i].Sublist sorted := by
    rw [← sortedEq]
    exact pair_sublist_mergeSort (notDearer_trans price) (notDearer_total price)
      (decide_eq_true (by omega)) reversed
  have forth := pairwise_iff_forall_sublist.mp positions pair
  have back := pairwise_iff_forall_sublist.mp positions kept
  omega

-- There is only one order in which prices fall.
theorem falling_eq_mergeSort {sorted : List Nat} (rising : items.Pairwise (· < ·)) (perm : sorted.Perm items)
    (falls : sorted.Pairwise (Falls price)) : sorted = items.mergeSort fun i j => price j ≤ price i :=
  List.Perm.eq_of_pairwise (fun i j _ _ forth back => absurd back (falls_asymm price i j forth)) falls
    (mergeSort_falls price rising) (perm.trans (mergeSort_perm items _).symm)

end Stability

theorem inBucket_rising (proc : Procedure) (list : ArgList) (which : Bucket) :
    (inBucket proc list which).Pairwise (· < ·) :=
  pairwise_lt_range.filter _

theorem mem_inBucket {which : Bucket} :
    index ∈ inBucket proc list which
      ↔ ∃ arg, list.args[index]? = some arg ∧ bucket proc arg = which := by
  simp only [inBucket, mem_filter, mem_range, Option.any_eq_true, beq_iff_eq, ArgList.size]
  refine ⟨fun mem => mem.2, ?_⟩
  rintro ⟨arg, here, same⟩
  exact ⟨lt_length here, arg, here, same⟩

theorem inBucket_apart {one two : Bucket} (differ : one ≠ two) (inOne : index ∈ inBucket proc list one) :
    index ∉ inBucket proc list two := by
  intro inTwo
  obtain ⟨arg, here, isOne⟩ := mem_inBucket.mp inOne
  obtain ⟨same, atSame, isTwo⟩ := mem_inBucket.mp inTwo
  cases here.symm.trans atSame
  exact differ (isOne.symm.trans isTwo)

theorem mem_specified : index ∈ specified cost proc list ↔ index < list.size := by
  simp only [specified, mem_append, (mergeSort_perm _ _).mem_iff, mem_inBucket]
  constructor
  · rintro ((((⟨_, here, _⟩ | ⟨_, here, _⟩) | ⟨_, here, _⟩) | ⟨_, here, _⟩) | ⟨_, here, _⟩) <;> exact lt_length here
  · intro bound
    have here : list.args[index]? = some list.args[index] := getElem?_eq_getElem bound
    cases which : bucket proc list.args[index] <;> simp [here, which]

theorem specified_perm (cost : CostModel) (proc : Procedure) (list : ArgList) :
    (specified cost proc list).Perm (List.range list.size) := by
  have once : ∀ which, (inBucket proc list which).Nodup := fun which =>
    (inBucket_rising proc list which).imp Nat.ne_of_lt
  refine (perm_ext_iff_of_nodup ?_ nodup_range).mpr fun index => mem_specified.trans mem_range.symm
  simp only [specified, nodup_append, mem_append, (mergeSort_perm _ _).mem_iff,
    (mergeSort_perm _ _).nodup_iff, once, true_and]
  grind [inBucket_apart]

theorem specified_calls_first (cost : CostModel) (proc : Procedure) :
    ∃ front others, specified cost proc list = front ++ others ∧ front.Pairwise (· < ·)
      ∧ ∀ index arg value node, list.args[index]? = some arg → arg.value = some value →
        proc.nodes[value]? = some node →
        (index ∈ front ↔ node.kind.isIntConst = false ∧ node.effects.calls = true) := by
  obtain ⟨others, parts⟩ : inBucket proc list .call <+: specified cost proc list := by
    simp only [specified, append_assoc]
    exact prefix_append ..
  refine ⟨inBucket proc list .call, others, parts.symm, inBucket_rising proc list .call, ?_⟩
  intro index arg value node here has atNode
  simp only [mem_inBucket, here, Option.some.injEq, exists_eq_left', bucket, Bucket.of, has, Option.bind_some,
    atNode, Option.any_some]
  cases node.kind.isIntConst <;> cases node.effects.calls <;> cases arg.flags.needsTemp <;>
    cases node.kind.isLocalRead && !node.ty.isStruct <;> simp

-- A value that no sweep takes, as long as its argument has no temp.
def isPriced (node : Node) : Bool :=
  !(node.kind.isLocalRead && !node.ty.isStruct) && !node.effects.calls && !node.kind.isIntConst

theorem bucket_other {value : NodeId} {node : Node} (has : arg.value = some value)
    (atNode : proc.nodes[value]? = some node) (unpinned : arg.flags.needsTemp = false)
    (priced : isPriced node = true) : bucket proc arg = .other := by
  simp only [isPriced, Bool.and_eq_true, Bool.not_eq_true'] at priced
  simp [bucket, Bucket.of, has, atNode, unpinned, priced]

theorem other_unpinned (isOther : bucket proc arg = .other) : arg.flags.needsTemp = false := by
  by_contra pinned
  simp only [bucket, Bucket.of, Bool.eq_true_of_not_eq_false pinned] at isOther
  grind

theorem specified_prices (schedulable : Schedulable cost proc list) {i j : Nat} {a b : Argument} {v w : NodeId}
    {first second : Node} (apart : i ≠ j) (atI : list.args[i]? = some a) (atJ : list.args[j]? = some b)
    (hasV : a.value = some v) (hasW : b.value = some w) (atV : proc.nodes[v]? = some first)
    (atW : proc.nodes[w]? = some second) (unpinnedA : a.flags.needsTemp = false)
    (unpinnedB : b.flags.needsTemp = false) (pricedA : isPriced first = true) (pricedB : isPriced second = true) :
    ∃ x y, cost proc v = .ok x ∧ cost proc w = .ok y
      ∧ ((specified cost proc list).idxOf i < (specified cost proc list).idxOf j
        ↔ y < x ∨ x = y ∧ i < j) := by
  have otherA := bucket_other hasV atV unpinnedA pricedA
  have otherB := bucket_other hasW atW unpinnedB pricedB
  have inI : i ∈ inBucket proc list .other := mem_inBucket.mpr ⟨a, atI, otherA⟩
  have inJ : j ∈ inBucket proc list .other := mem_inBucket.mpr ⟨b, atJ, otherB⟩
  have pair : [i, j].Nodup := by simpa using apart
  have several : 2 ≤ (inBucket proc list .other).length :=
    (subperm_of_subset pair (by simp [inI, inJ])).length_le
  obtain ⟨x, priceV⟩ := schedulable.priced several a (mem_of_getElem? atI) otherA v hasV
  obtain ⟨y, priceW⟩ := schedulable.priced several b (mem_of_getElem? atJ) otherB w hasW
  have atX : priceAt cost proc list i = x := by simp [priceAt, atI, hasV, priceV, Except.toOption]
  have atY : priceAt cost proc list j = y := by simp [priceAt, atJ, hasW, priceW, Except.toOption]
  refine ⟨x, y, priceV, priceW, ?_⟩
  have ahead : ∀ index ∈ inBucket proc list .other,
      index ∉ inBucket proc list .call ++ inBucket proc list .pinned := fun index inOther =>
    fun inHead => (mem_append.mp inHead).elim (inBucket_apart (by decide) inOther)
      (inBucket_apart (by decide) inOther)
  have perm := mergeSort_perm (inBucket proc list .other)
    fun i j => priceAt cost proc list j ≤ priceAt cost proc list i
  have sortedI := perm.mem_iff.mpr inI
  have sortedJ := perm.mem_iff.mpr inJ
  have related := idxOf_lt_iff (mergeSort_falls (priceAt cost proc list)
    (inBucket_rising proc list .other)) (falls_asymm _) sortedI sortedJ
  rw [Falls, atX, atY] at related
  rw [← related, specified, append_assoc, append_assoc (inBucket proc list .call ++ _),
    idxOf_append_of_notMem (ahead i inI), idxOf_append_of_notMem (ahead j inJ), idxOf_append_of_mem sortedI,
    idxOf_append_of_mem sortedJ]
  omega

end Schedule

end CallLowering
