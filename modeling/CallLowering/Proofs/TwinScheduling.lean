import CallLowering.Proofs.Scheduling
import CallLowering.Proofs.TwinAnalysis
import CallLowering.Proofs.VerifierExact

/-!
Scheduling twins. The buckets are the same on both sides. Whatever prices are asked, the arguments that are
priced stand together, and none of them is pinned.
-/

namespace CallLowering

open List

variable {list list' : ArgList} {proc : Procedure}

namespace Schedule

-- Two orders of the same arguments. What stands in the middle, and may be ordered otherwise, is not
-- pinned and has a value.
structure Orders (args : List Argument) (order order' : List Nat) : Prop where
  once : order.Nodup
  parts : ∃ head middle middle' tail, order = head ++ middle ++ tail ∧ order' = head ++ middle' ++ tail
    ∧ middle'.Perm middle ∧ ∀ index ∈ middle, ∃ arg, args[index]? = some arg
      ∧ arg.flags.needsTemp = false ∧ arg.value.isSome = true

theorem Orders.processed {order order' : List Nat} (orders : Orders list.args order order') :
    Orders (markProcessed list).args order order' := by
  obtain ⟨once, head, middle, middle', tail, isOrder, isOrder', perm, each⟩ := orders
  refine ⟨once, head, middle, middle', tail, isOrder, isOrder', perm, fun index mem => ?_⟩
  obtain ⟨arg, here, unpinned, present⟩ := each index mem
  refine ⟨{ arg with flags := { arg.flags with processed := true } }, ?_, unpinned, present⟩
  rw [markProcessed, getElem?_map, here]
  rfl

end Schedule

namespace Twins

open Schedule

variable {frame : Frame} {rename : LocalId → LocalId} {p q : Procedure}

variable (twins : Twins frame rename p q) (both : list.Twins list')
  (present : ∀ arg ∈ list.args, ∃ value, arg.value = some value ∧ Walks frame p value)

include twins both present

theorem value_at {index : Nat} {arg : Argument} (here : list.args[index]? = some arg) :
    ∃ arg' value node kind, list'.args[index]? = some arg' ∧ arg.value = some value ∧ arg'.value = some value
      ∧ Walks frame p value ∧ p.nodes[value]? = some node ∧ q.nodes[value]? = some { node with kind }
      ∧ node.kind.Mirrors rename kind ∧ arg'.flags = arg.flags := by
  obtain ⟨value, hasValue, walks⟩ := present arg (mem_of_getElem? here)
  obtain ⟨node, atNode⟩ := walks.node
  obtain ⟨kind, there, mirrors⟩ := twins.node value node atNode
  obtain ⟨arg', here', masked⟩ := both.arg here
  exact ⟨arg', value, node, kind, here', hasValue,
    (Argument.masked_read masked Argument.value fun _ => rfl).trans hasValue, walks, atNode, there, mirrors,
    Argument.masked_read masked Argument.flags fun _ => rfl⟩

theorem inBucket (which : Bucket) : Schedule.inBucket q list' which = Schedule.inBucket p list which := by
  have sameSize : list'.size = list.size := by simpa [ArgList.size] using congrArg List.length both.args
  unfold Schedule.inBucket
  rw [sameSize]
  refine filter_congr fun index mem => ?_
  have bound : index < list.args.length := mem_range.mp mem
  have here : list.args[index]? = some list.args[index] := getElem?_eq_getElem bound
  obtain ⟨arg', value, node, kind, here', has, has', _, atNode, there, mirrors, sameFlags⟩ :=
    twins.value_at both present here
  simp only [here, here', Option.any_some, bucket, Bucket.of, has, has', Option.bind_some, atNode, there, sameFlags,
    mirrors.isIntConst, mirrors.isLocalRead]
  rfl

theorem schedulable : Schedulable Cost.flat p list ∧ Schedulable Cost.tree q list' := by
  have mirrored : ∀ arg' ∈ list'.args, ∀ value, arg'.value = some value → Walks frame p value
      ∧ ∃ node, q.nodes[value]? = some node := by
    intro arg' mem value has
    obtain ⟨index, here'⟩ := getElem?_of_mem mem
    have atMasked := both.at_ index
    rw [here'] at atMasked
    obtain ⟨arg, here, _⟩ := Option.map_eq_some_iff.mp atMasked.symm
    obtain ⟨same, _, node, kind, atSame, _, hasSame, walks, _, there, _⟩ := twins.value_at both present here
    cases here'.symm.trans atSame
    cases has.symm.trans hasSame
    exact ⟨walks, _, there⟩
  refine ⟨⟨fun arg mem value has => ?_, fun _ _ _ _ value _ => ⟨0, rfl⟩⟩,
    fun arg mem value has => (mirrored arg mem value has).2, fun _ arg mem _ value has => ?_⟩
  · obtain ⟨same, hasSame, walks⟩ := present arg mem
    cases has.symm.trans hasSame
    exact walks.node
  · obtain ⟨_, nodes, _, met⟩ := (mirrored arg mem value has).1.visited twins
    exact ⟨_, except_bind_ok_iff.mpr ⟨nodes, met, rfl⟩⟩

theorem orders : Orders list.args (specified Cost.flat p list) (specified Cost.tree q list') := by
  have sorted := mergeSort_perm (Schedule.inBucket p list .other)
  have parts' : specified Cost.tree q list' = _ ++ _ := append_assoc ..
  simp only [twins.inBucket both present] at parts'
  refine ⟨(specified_perm Cost.flat p list).nodup_iff.mpr nodup_range, _, _, _, _, append_assoc .., parts',
    (sorted _).trans (sorted _).symm, fun index mem => ?_⟩
  obtain ⟨arg, here, isOther⟩ := mem_inBucket.mp ((sorted _).mem_iff.mp mem)
  obtain ⟨value, hasValue, _⟩ := present arg (mem_of_getElem? here)
  exact ⟨arg, here, other_unpinned isOther, by rw [hasValue]; rfl⟩

end Twins

theorem ArgList.Twins.markProcessed {other : ArgList} (twins : list.Twins other) :
    (Schedule.markProcessed list).Twins (Schedule.markProcessed other) := by
  refine twins.withArgs ?_
  have processed : ∀ args : List Argument,
      (args.map fun arg => { arg with flags := { arg.flags with processed := true } }).map Argument.masked
        = (args.map Argument.masked).map fun arg =>
          { arg with flags := { arg.flags with processed := true } } := by
    intro args
    rw [map_map, map_map]
    rfl
  rw [processed, twins.args, ← processed]

open Twins in
theorem Both.place {frame : Frame} {rename : LocalId → LocalId} {p q : Procedure}
    (twins : Twins frame rename p q) {id : CallId} {data : Call} (here : p.calls[id]? = some data)
    (present : ∀ arg ∈ data.args.args, ∃ value, arg.value = some value ∧ Walks frame p value) :
    Both frame rename p q (Schedule.place Cost.flat id) (Schedule.place Cost.tree id)
      fun _ p' a b => ∃ now, p'.calls[id]? = some now ∧ Schedule.Orders now.args.args a b := by
  refine bind (call twins id) ?_
  intro rename₁ p₁ q₁ now now' asked twins₁ _ both
  obtain ⟨atCall, rfl⟩ := Edit.call_ok asked
  cases here.symm.trans atCall
  obtain ⟨last, sorted, ordered⟩ := Schedule.sort_succeeds (twins₁.schedulable both.list present).1
  obtain ⟨last', sorted', ordered'⟩ := Schedule.sort_succeeds (twins₁.schedulable both.list present).2
  have orders := twins₁.orders both.list present
  rw [← ordered, ← ordered'] at orders
  have asked : Both frame rename₁ p₁ q₁
      (Edit.ask fun proc => Schedule.entries proc data.args >>= Schedule.Sorter.sort Cost.flat proc)
      (Edit.ask fun proc => Schedule.entries proc now'.args >>= Schedule.Sorter.sort Cost.tree proc)
      fun _ _ a b => a = last ∧ b = last' :=
    asks twins₁ (.inl ⟨last, last', sorted, sorted', rfl, rfl⟩)
  refine bind asked fun _ _ ran twins₂ _ same => ?_
  obtain ⟨_, rfl⟩ := ask_ok_iff.mp ran
  obtain ⟨rfl, rfl⟩ := same
  refine next (modifyArgs twins₂ fun _ _ _ both =>
    .inl ⟨_, _, rfl, rfl, both.list.markProcessed⟩) fun _ ran twins₃ _ => ?_
  obtain ⟨old, list, atOld, processed, set⟩ := Edit.modifyArgs_ok ran
  cases here.symm.trans atOld
  cases processed
  refine done twins₃ ⟨_, Procedure.setCall_at here set, ?_⟩
  exact orders.processed

end CallLowering
