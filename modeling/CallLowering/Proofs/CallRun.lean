import CallLowering.Proofs.Building
import CallLowering.Proofs.Dressing
import CallLowering.Proofs.Materializing
import CallLowering.Proofs.Pinning
import CallLowering.Proofs.Scheduling

/-!
One call on its way through the passes, and where each of its arguments ends up. A run holds the
states between the passes together with the proofs that each pass led from one to the next.
-/

namespace CallLowering

open List

def Argument.Unmarked (arg : Argument) : Prop :=
  arg.late = none ∧ arg.flags.needsTemp = false ∧ arg.flags.needsPlace = false

def ArgList.withoutEarly (list : ArgList) : ArgList :=
  { list with args := list.args.map fun arg => { arg with early := none } }

-- Between finalizing and shaping, the early nodes of the arguments may be replaced.
structure CallRun (settings : Settings) (id : CallId) where
  built : Procedure
  finalized : Procedure
  ready : LoweringState
  shaped : LoweringState
  completed : Procedure
  scheduled : Procedure
  settled : Procedure
  cost : CostModel
  order : List Nat
  fresh : AbiInfo.OpenList id Argument.Unmarked built
  finalizes : AbiInfo.finalize settings id built = .ok () finalized
  carried : ready.proc.calls[id]?.map (fun data => data.args.withoutEarly)
    = finalized.calls[id]?.map (fun data => data.args.withoutEarly)
  shapes : Shape.shapeArgs settings id ready = .ok () shaped
  completes : Interference.complete settings id shaped.proc = .ok () completed
  schedules : Schedule.schedule cost id completed = .ok order scheduled
  settles : Materialize.materialize settings id order scheduled = .ok () settled

-- A list that is only built is open, and nothing is decided about its arguments.
theorem Procedure.AsBuilt.unmarked {proc : Procedure} {id : CallId} (built : proc.AsBuilt)
    (inside : id < proc.calls.size) : AbiInfo.OpenList id Argument.Unmarked proc := by
  have here := Array.getElem?_eq_getElem inside
  obtain ⟨spec, made⟩ := built.calls id _ here
  rw [made] at here
  refine ⟨spec.toCall, here, rfl, fun arg mem => ?_⟩
  obtain ⟨value, ty, role, rfl⟩ := spec.toCall_args mem
  exact ⟨rfl, rfl, rfl⟩

-- The passes over one call of the procedure that a body builds, if all of them end well.
def CallRun.ofBody? (settings : Settings) (id : CallId) (body : List Instruction) : Option (CallRun settings id) :=
  match builds : Procedure.build "caller" body with
  | .error _ => none
  | .ok (_, built) =>
    if inside : id < built.calls.size then
      match finalizes : AbiInfo.finalize settings id built with
      | .error _ _ => none
      | .ok () finalized =>
        match shapes : Shape.shapeArgs settings id { proc := finalized } with
        | .error _ _ => none
        | .ok () shaped =>
          match completes : Interference.complete settings id shaped.proc with
          | .error _ _ => none
          | .ok () completed =>
            match schedules : Schedule.schedule (Schedule.costModel settings) id completed with
            | .error _ _ => none
            | .ok order scheduled =>
              match settles : Materialize.materialize settings id order scheduled with
              | .error _ _ => none
              | .ok () settled => some {
                  built, finalized, shaped, completed, scheduled, settled, order, finalizes, shapes, completes,
                  schedules, settles
                  ready := { proc := finalized }
                  cost := Schedule.costModel settings
                  fresh := (Built.body builds).asBuilt.unmarked inside
                  carried := rfl }
    else none

-- An argument before the analysis: what is decided about it is the copy it may have got.
structure Argument.Undecided (proc : Procedure) (arg : Argument) : Prop where
  unpinned : arg.flags.needsTemp = false
  unplaced : arg.flags.needsPlace = false
  copied : arg.late.isSome = true → ∃ store node, arg.early = some store
    ∧ proc.nodes[store]? = some node ∧ node.kind.isStore = true

theorem Argument.unmarked_undecided {proc : Procedure} {before after : Argument} (unmarked : before.Unmarked)
    (shaped : Shape.Shaped proc before after) : after.Undecided proc ∧ after.placement = before.placement := by
  obtain ⟨loose, unpinned, unplaced⟩ := unmarked
  cases shaped with
  | early value => exact ⟨⟨unpinned, unplaced, by simp [loose]⟩, rfl⟩
  | copied copy store late node _ here stores =>
    have isStore := node.kind.isStore_of_storesLocal? _ stores
    exact ⟨⟨unpinned, unplaced, fun _ => ⟨store, node, rfl, here, isStore⟩⟩, rfl⟩

inductive Argument.EndsAs (arg : Argument) (mark : Interference.Mark) (after : Argument) : Prop where
  | early (value : NodeId) (has : after.early = some value)
      (why : arg.late.isSome = true ∨ mark.pinned = true
        ∨ arg.placement.hasReg = false ∧ mark.placed = false)
  | late (value : NodeId) (gone : after.early = none) (has : after.late = some value)
      (loose : arg.late = none) (unpinned : mark.pinned = false)
      (why : arg.placement.hasReg = true ∨ mark.placed = true)

theorem Argument.settled_endsAs {arg after : Argument} {mark : Interference.Mark}
    (present : arg.early.isSome = true) {flags : ArgFlags}
    (pinned : flags.needsTemp = mark.pinned) (placed : flags.needsPlace = mark.placed)
    (settled : Materialize.Settled { arg with flags } after) : arg.EndsAs mark after := by
  cases settled with
  | ready late =>
    obtain ⟨value, has⟩ := Option.isSome_iff_exists.mp present
    exact .early value has (.inl late)
  | pinned value early late temp flags has loose marked =>
    exact .early early rfl (.inr (.inl (pinned ▸ marked)))
  | moved value has loose unmarked deferred =>
    refine .late value rfl rfl loose (pinned ▸ unmarked) ?_
    simpa [placed] using deferred
  | kept value has loose unmarked stays =>
    refine .early value has (.inr (.inr ?_))
    simpa [placed] using stays

-- What analysis, schedule and settling make of a list that is finalized, argument by argument. The front
-- is made of the arguments that call.
structure Passed (settings : Settings) (id : CallId) (order : List Nat) (before : Call)
    (p m q : Procedure) where
  after : Call
  marks : List Interference.Mark
  front : List Nat
  others : List Nat
  atEnd : q.calls[id]? = some after
  analysis : Interference.Analysis settings p before marks
  marked : m = p.setCall id { before with args := { before.args with
    args := List.zipWith Interference.applyMark before.args.args marks, stage := .completed } }
  slots : ∀ (index : Nat) (arg : Argument), before.args.args[index]? = some arg →
    ∃ mark last, marks[index]? = some mark ∧ after.args.args[index]? = some last
      ∧ Materialize.Settled
        { arg with flags := { (Interference.applyMark arg mark).flags with processed := true } } last
  calls : ∀ (index : Nat) (arg : Argument) (value : NodeId) (node : Node),
    before.args.args[index]? = some arg → arg.early = some value → p.nodes[value]? = some node →
    (index ∈ front ↔ node.kind.isIntConst = false ∧ node.effects.calls = true)
  rising : front.Pairwise (· < ·)
  everyone : order.Perm (List.range before.args.size)
  callsFirst : order = front ++ others
  sameSize : after.args.size = before.args.size
  late : after.args.lateOrder = order.filter (Materialize.hasLate after.args.args)

theorem passed {settings : Settings} {cost : CostModel} {id : CallId} {order : List Nat} {before : Call}
    {p m m' q : Procedure} (here : p.calls[id]? = some before)
    (completes : Interference.complete settings id p = .ok () m)
    (schedules : Schedule.schedule cost id m = .ok order m')
    (settles : Materialize.materialize settings id order m' = .ok () q) :
    Nonempty (Passed settings id order before p m q) := by
  obtain ⟨marks, _, ⟨analysis⟩, completed⟩ := Interference.complete_ok here completes
  obtain ⟨data, atData, _, ordered, scheduled⟩ := Schedule.schedule_ok schedules
  cases (Procedure.setCall_at here completed).symm.trans atData
  have everyone := ordered ▸ Schedule.specified_perm cost m _
  obtain ⟨front, others, callsFirst, rising, calls⟩ := Schedule.specified_calls_first cost m
  have once : order.Nodup := everyone.nodup_iff.mpr nodup_range
  obtain ⟨late, last, u, _, slots, settled⟩ := Materialize.materialize_ok
    once (Procedure.setCall_at atData scheduled) settles
  -- What the analysis and the schedule leave in a slot before it is settled.
  have marked : ∀ (index : Nat) (arg : Argument), before.args.args[index]? = some arg →
      ∃ mark, marks[index]? = some mark
        ∧ (List.zipWith Interference.applyMark before.args.args marks)[index]?
          = some (Interference.applyMark arg mark) := by
    intro index arg here
    obtain ⟨profile, atProfile, _⟩ := analysis.profile_at here
    obtain ⟨mark, atMark, _⟩ := analysis.mark_at atProfile
    exact ⟨mark, atMark, getElem?_zipWith_eq_some.mpr ⟨arg, mark, here, atMark, rfl⟩⟩
  have sameSize : (List.zipWith Interference.applyMark before.args.args marks).length
      = before.args.args.length := by
    rw [length_zipWith, analysis.marks_length, Nat.min_self]
  have everyone : order.Perm (List.range before.args.size) :=
    (congrArg List.range sameSize : _) ▸ everyone
  exact ⟨{
    after := _, marks, front, others, analysis, marked := completed
    atEnd := Procedure.setCall_at slots.here settled
    slots := by
      intro index arg here
      obtain ⟨mark, atMark, atMarked⟩ := marked index arg here
      have bound : index < before.args.args.length := lt_length here
      have inOrder : index ∈ order := everyone.mem_iff.mpr (List.mem_range.mpr bound)
      have atProcessed := congrArg (Option.map fun arg : Argument =>
        { arg with flags := { arg.flags with processed := true } }) atMarked
      rw [← getElem?_map] at atProcessed
      obtain ⟨after, atAfter, settled⟩ := slots.settled index _ inOrder atProcessed
      exact ⟨mark, after, atMark, atAfter, settled⟩
    calls := by
      intro index arg value node here early atNode
      obtain ⟨mark, _, atMarked⟩ := marked index arg here
      have unchanged : m.nodes = p.nodes := by rw [completed]; rfl
      exact calls index _ value node atMarked (by simp [Argument.value, Interference.applyMark, early])
        (unchanged ▸ atNode)
    rising, everyone
    callsFirst := ordered.trans callsFirst
    sameSize := by
      have lengths : last.length = (List.map _ _).length := slots.sameLength
      rw [length_map, sameSize] at lengths
      exact lengths
    late := slots.listed }⟩

namespace CallRun

variable {settings : Settings} {id : CallId}

structure Outcome (run : CallRun settings id) (before : Call)
    extends Passed settings id run.order before run.shaped.proc run.completed run.settled where
  atShaped : run.shaped.proc.calls[id]? = some before
  stack : before.args.hasStackArgs = before.args.args.any fun arg => arg.placement.hasStack
  undecided : ∀ arg ∈ before.args.args, arg.Undecided run.shaped.proc
  ends : ∀ (index : Nat) (arg : Argument), before.args.args[index]? = some arg →
    arg.early.isSome = true → ∃ mark last, marks[index]? = some mark
      ∧ after.args.args[index]? = some last ∧ arg.EndsAs mark last

theorem ready_unmarked (run : CallRun settings id) :
    ∃ data, run.ready.proc.calls[id]? = some data
      ∧ (data.args.hasStackArgs = data.args.args.any fun arg => arg.placement.hasStack)
      ∧ ∀ arg ∈ data.args.args, arg.Unmarked := by
  obtain ⟨data, here, _, stack, each⟩ := AbiInfo.finalize_each Argument.Unmarked
    (fun _ _ => ⟨rfl, rfl, rfl⟩) (fun _ _ unmarked => unmarked) (fun _ _ unmarked => unmarked)
    run.fresh run.finalizes
  have carried := run.carried
  rw [here] at carried
  obtain ⟨now, atNow, same⟩ := Option.map_eq_some_iff.mp carried
  simp only [ArgList.withoutEarly, ArgList.mk.injEq] at same
  obtain ⟨argsSame, _, _, _, stackSame, _⟩ := same
  refine ⟨now, atNow, ?_, fun arg mem => ?_⟩
  · have placements := congrArg (List.any · fun arg => arg.placement.hasStack) argsSame
    simp only [any_map, Function.comp_def] at placements
    rw [stackSame, stack, ← placements]
  · have member := mem_map_of_mem (f := fun arg : Argument => { arg with early := none }) mem
    rw [argsSame] at member
    obtain ⟨other, inOther, sameArg⟩ := mem_map.mp member
    obtain ⟨loose, unpinned, unplaced⟩ := each other inOther
    simp only [Argument.mk.injEq, true_and] at sameArg
    obtain ⟨lateSame, _, _, _, flagsSame, _⟩ := sameArg
    exact ⟨lateSame ▸ loose, flagsSame ▸ unpinned, flagsSame ▸ unplaced⟩

theorem shaped_undecided (run : CallRun settings id) :
    ∃ data, run.shaped.proc.calls[id]? = some data
      ∧ (data.args.hasStackArgs = data.args.args.any fun arg => arg.placement.hasStack)
      ∧ ∀ arg ∈ data.args.args, arg.Undecided run.shaped.proc := by
  obtain ⟨start, atReady, stack, unmarked⟩ := run.ready_unmarked
  obtain ⟨_, args, atShaped, sameLength, shaped⟩ := Shape.shapeArgs_slots atReady run.shapes
  have each : ∀ (index : Nat) (bound : index < start.args.args.length) (mem : index < args.length),
      args[index].Undecided run.shaped.proc
        ∧ args[index].placement = start.args.args[index].placement := by
    intro index bound mem
    obtain ⟨after, atAfter, shaped⟩ := shaped index _ (getElem?_eq_getElem bound)
    obtain ⟨_, rfl⟩ := List.getElem?_eq_some_iff.mp atAfter
    exact Argument.unmarked_undecided (unmarked _ (List.getElem_mem bound)) shaped
  refine ⟨_, atShaped, ?_, fun arg mem => ?_⟩
  · have placements : args.map Argument.placement = start.args.args.map Argument.placement := by
      apply ext_getElem (by simp [sameLength])
      intro index inArgs inStart
      simp only [getElem_map]
      exact (each index (by simpa using inStart) (by simpa using inArgs)).2
    have anyStack := congrArg (List.any · Placement.hasStack) placements
    simp only [any_map] at anyStack
    exact stack.trans anyStack.symm
  · obtain ⟨index, inArgs, rfl⟩ := getElem_of_mem mem
    have inArgs : index < args.length := inArgs
    exact (each index (sameLength ▸ inArgs) inArgs).1

theorem outcome (run : CallRun settings id) : ∃ before, Nonempty (run.Outcome before) := by
  obtain ⟨before, atShaped, stack, undecided⟩ := run.shaped_undecided
  obtain ⟨passed⟩ := passed atShaped run.completes run.schedules run.settles
  exact ⟨before, ⟨{ passed with
    atShaped, stack, undecided
    ends := by
      intro index arg here present
      obtain ⟨mark, last, atMark, atLast, settled⟩ := passed.slots index arg here
      have undecided := undecided arg (mem_of_getElem? here)
      refine ⟨mark, last, atMark, atLast, Argument.settled_endsAs present ?_ ?_ settled⟩
      · simp [Interference.applyMark, undecided.unpinned]
      · simp [Interference.applyMark, undecided.unplaced] }⟩⟩

end CallRun

end CallLowering
