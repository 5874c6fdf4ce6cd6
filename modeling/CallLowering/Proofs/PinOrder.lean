import CallLowering.Graph.Instruction
import CallLowering.Lowering.AbiInfo
import CallLowering.Proofs.Pinning

/-! Pinning in any order. -/

namespace CallLowering

open List

namespace Interference

variable {profiles : List Profile}

def Closed (profiles : List Profile) (pinned : List Bool) : Prop :=
  ∀ (earlier later : Nat) (profile : Profile), earlier < later → profiles[earlier]? = some profile →
    profile.arg.value.isSome = true → profile.arg.effects.isSideEffect = true →
    pinned[later]? = some true → pinned[earlier]? = some true

theorem pins_closed (order : List Nat) : Closed profiles (order.foldl (pin profiles) (unpinned profiles)) := by
  obtain ⟨_, reached⟩ := pins_reached profiles order
  intro earlier later profile inFront here hasValue acts pinned
  exact (reached earlier).mpr (((reached later).mp pinned).spreads inFront here hasValue acts)

theorem Analysis.pinned_map {settings : Settings} {p : Procedure} {data : Call} {marks : List Mark}
    (analysis : Analysis settings p data marks) (fresh : ∀ arg ∈ data.args.args, arg.flags.needsTemp = false) :
    (List.zipWith applyMark data.args.args marks).map (·.flags.needsTemp) = analysis.pinned := by
  have pinnedLength := analysis.pinned_reached.1
  refine ext_getElem? fun index => ?_
  cases here : data.args.args[index]? with
  | none =>
    have outside : analysis.list.length ≤ index := analysis.list_length ▸ getElem?_eq_none_iff.mp here
    have none : analysis.pinned[index]? = none := getElem?_eq_none (pinnedLength ▸ outside)
    simp [getElem?_zipWith, here, none]
  | some arg =>
    obtain ⟨profile, atProfile, _⟩ := analysis.profile_at here
    obtain ⟨mark, atMark, atPinned, _⟩ := analysis.mark_at atProfile
    simp [getElem?_zipWith, here, atMark, atPinned, applyMark, fresh arg (mem_of_getElem? here)]

theorem pins_reach_earlier_effects (settings : Settings) (id : CallId) (p q : Procedure) (data : Call)
    (here : p.calls[id]? = some data) (fresh : ∀ arg ∈ data.args.args, arg.flags.needsTemp = false)
    (done : complete settings id p = .ok () q) :
    ∃ after, q.calls[id]? = some after
      ∧ (∀ (i j : Nat) (first second : Argument) (value : NodeId) (node : Node), i < j →
        after.args.args[i]? = some first → after.args.args[j]? = some second →
        second.flags.needsTemp = true → first.early = some value → q.nodes[value]? = some node →
        node.effects.isSideEffect = true → first.flags.needsTemp = true)
      ∧ ∃ marks, ∃ analysis : Analysis settings p data marks, ∀ order : List Nat,
        Closed analysis.list (order.foldl (pin analysis.list) (unpinned analysis.list))
          ∧ ((∀ index, index ∈ order ↔ analysis.requested[index]? = some true) →
            after.args.args.map (·.flags.needsTemp)
              = order.foldl (pin analysis.list) (unpinned analysis.list)) := by
  obtain ⟨marks, _, ⟨analysis⟩, rfl⟩ := complete_ok here done
  have pinned := analysis.pinned_map fresh
  have inside : id < p.calls.size := (Array.getElem?_eq_some_iff.mp here).1
  have flagAt : ∀ (index : Nat) (arg : Argument),
      (List.zipWith applyMark data.args.args marks)[index]? = some arg →
      analysis.pinned[index]? = some arg.flags.needsTemp := by
    intro index arg atIndex
    rw [← pinned, List.getElem?_map, atIndex, Option.map_some]
  refine ⟨_, Array.getElem?_setIfInBounds_self_of_lt inside, ?_, marks, analysis, fun order =>
    ⟨pins_closed order, fun all => (pinned.trans analysis.pinned_eq_foldl).trans
      (pins_congr fun index => (analysis.mem_order index).trans (all index).symm)⟩⟩
  intro i j first second value node inFront atFirst atSecond hasTemp early atNode acts
  obtain ⟨arg, mark, atArg, _, same⟩ := List.getElem?_zipWith_eq_some.mp atFirst
  have argEarly : arg.early = some value := by rw [← early, ← same, applyMark]
  obtain ⟨profile, atProfile, described, _⟩ := analysis.profile_at atArg
  obtain ⟨summed, atSummed, sameEffects, _⟩ := described.node value argEarly
  have sameNode : node = summed := Option.some.inj (atNode.symm.trans atSummed)
  have spread := analysis.pinned_spreads inFront atProfile (by simp [described.value, argEarly])
    (by rw [sameEffects, ← sameNode, acts]) ((flagAt j second atSecond).trans (congrArg some hasTemp))
  exact Option.some.inj ((flagAt i first atFirst).symm.trans spread)

-- A float on the stack and an integer in a register, both loaded. Only the second one is asked for, since
-- it may raise behind the store of the first; the first one goes with it.
def loadsOnBothSides : Procedure :=
  endOf ([.declare .ptr, .readLocal 0, .load 0 false .f64, .readLocal 0, .load 2 false .i32,
    .call { target := .method "taker", args := [(1, .f64), (3, .i32)] }, .statement 4].mapM Instruction.run
      { name := "caller" })

theorem stack_load_pinned_with_register_load :
    let settings : Settings := { target := Target.ofTriple ⟨.x86, .windows⟩ }
    let finalized := endOf (AbiInfo.finalize settings 0 loadsOnBothSides)
    ∃ q after first, complete settings 0 finalized = .ok () q ∧ q.calls[0]? = some after
      ∧ after.args.args[0]? = some first ∧ first.flags.needsTemp = true := by
  intro settings finalized
  let q := endOf (complete settings 0 finalized)
  have done : complete settings 0 finalized = .ok () q := ok_of_answerOf _ _ (by decide +kernel)
  obtain ⟨data, here, fresh⟩ := (Option.any_eq_true (fun data : Call => decide
    (∀ arg ∈ data.args.args, arg.flags.needsTemp = false)) finalized.calls[0]?).mp (by decide +kernel)
  obtain ⟨after, atAfter, spreads, _⟩ :=
    pins_reach_earlier_effects settings 0 finalized q data here (by simpa using fresh) done
  obtain ⟨same, atSame, checked⟩ := (Option.any_eq_true (fun data : Call =>
    (data.args.args[0]?.any fun arg => arg.early == some 1)
      && data.args.args[1]?.any fun arg => arg.flags.needsTemp) q.calls[0]?).mp (by decide +kernel)
  cases atAfter.symm.trans atSame
  simp only [Bool.and_eq_true, Option.any_eq_true, beq_iff_eq] at checked
  obtain ⟨⟨first, atFirst, early⟩, second, atSecond, hasTemp⟩ := checked
  obtain ⟨node, atNode, acts⟩ := (Option.any_eq_true (fun node : Node => node.effects.isSideEffect)
    q.nodes[1]?).mp (by decide +kernel)
  exact ⟨q, after, first, done, atAfter, atFirst,
    spreads 0 1 first second 1 node (by decide) atFirst atSecond hasTemp early atNode acts⟩

end Interference

end CallLowering
