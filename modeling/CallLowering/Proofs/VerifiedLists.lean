import CallLowering.Proofs.CheckedArguments
import CallLowering.Proofs.FilledLists

/-! The list of a call that went through all passes is as the checks want it. -/

namespace CallLowering

open List

variable {data data' : Call} {q m p proc : Procedure} {id : CallId} {order : List Nat} {settings : Settings}
  {seen seen' : List NodeId} {after before : Argument} {copies : List LocalId} {cost : CostModel}
  {args : List Argument} {full : Prop}

-- An argument between shaping and settling: if lists are `full`, its nodes are no empty ones; and what
-- is late reads the copy, if it reads anything.
structure Argument.Awaits (full : Prop) (proc : Procedure) (arg : Argument) : Prop where
  listed : full → arg.late = none → ∀ value, arg.early = some value → proc.Listed value
  solid : full → ∀ late, arg.late = some late → proc.Listed late
  recalled : ∀ late copy, arg.late = some late → arg.temp = some copy →
    ∃ part, Forest proc [late] part
      ∧ (proc.kindAt late = some (.fieldList []) ∨ proc.MentionedIn part copy)

theorem Argument.awaits_framed (full : Prop) : Framed (Argument.Awaits full) := by
  intro p q nodes calls arg awaits grown apart
  refine ⟨fun isFull loose value has => (awaits.listed isFull loose value has).kept grown,
    fun isFull late isLate => (awaits.solid isFull late isLate).kept grown, fun late copy isLate isTemp => ?_⟩
  obtain ⟨part, atPart, mentioned⟩ := awaits.recalled late copy isLate isTemp
  obtain ⟨nodesApart, callsApart⟩ := apart late (.inr isLate) part atPart
  exact ⟨part, atPart.frame grown nodesApart callsApart,
    mentioned.imp (grown.staysEmpty) fun mentioned => mentioned.kept grown atPart.valid⟩

namespace Shape

open Edit

section Awaiting

variable {settings : Settings} {full : Prop} {id : CallId} {index : Nat} {data : Call} {arg after : Argument}
  {s t : LoweringState} {tree early late : List NodeId} {copies : List LocalId}

theorem unchanged_awaits (loose : arg.late = none)
    (listed : full → ∀ value, arg.early = some value → s.proc.Listed value) : arg.Awaits full s.proc := by
  refine ⟨fun isFull _ => listed isFull, fun _ late isLate => ?_, fun late copy isLate => ?_⟩
  · cases loose.symm.trans isLate
  · cases loose.symm.trans isLate

theorem early_awaits {list : NodeId} (loose : arg.late = none) (listed : full → m.Listed list)
    (set : setEarly id index list m = .ok () q) :
    ({ arg with early := some list } : Argument).Awaits full q := by
  refine ⟨fun isFull _ value has => ?_, fun _ late isLate => ?_, fun late copy isLate => ?_⟩
  · cases has
    exact (listed isFull).kept (modifyArg_extends set)
  · cases loose.symm.trans isLate
  · cases loose.symm.trans isLate

theorem copied_awaits {copy : LocalId} {store read : NodeId} {part : List NodeId}
    (recalls : m.Recalls read copy) (solid : full → m.Listed read)
    (set : setCopy id index copy store read m = .ok () q) (atRead : Forest q [read] part) :
    (arg.viaTemp copy store read).Awaits full q := by
  have grown := modifyArg_extends set
  refine ⟨fun _ loose => (nomatch loose), fun isFull late isLate => ?_, fun late copy isLate isTemp => ?_⟩
  · cases isLate
    exact (solid isFull).kept grown
  · cases isLate
    cases isTemp
    exact ⟨part, atRead, (recalls.kept grown).mentioned atRead⟩

theorem shapeArg_awaits (fits : full → arg.Fits settings) (loose : arg.late = none)
    (listed : full → ∀ value, arg.early = some value → s.proc.Listed value)
    (here : s.proc.calls[id]? = some data) (atIndex : data.args.args[index]? = some arg)
    (shape : SlotShape id index data arg s t tree after early late copies)
    (done : shapeArg settings id index s = .ok () t) : after.Awaits full t.proc := by
  cases shapeArg_by here atIndex done with
  | unchanged _ same =>
    subst same
    rw [Call.slot_inj atIndex shape.now (by rw [Call.withArgs_set atIndex, here])]
    exact unchanged_awaits loose listed
  | apart value node layout pieces list m q _ cut taken set same =>
    subst same
    rw [Call.slot_inj atIndex shape.now (modifyArg_slot (taken.adds.calls ▸ here) atIndex set)]
    exact early_awaits loose (fun isFull => taken.listed (cut.filled (fits isFull))) set
  | copied value copy store late u m m' q _ _ _ taken stored passes set same =>
    subst same
    have added := ((Step.structCopy_adds taken).trans (addNode_adds stored)).trans passes.adds
    have sameSlot := Call.slot_inj atIndex shape.now (modifyArg_slot (added.calls ▸ here) atIndex set)
    have atLate := shape.step.atLate
    rw [sameSlot] at atLate ⊢
    obtain ⟨recalls, solid⟩ := passes.recalls
    exact copied_awaits recalls (fun isFull => solid (fits isFull)) set atLate

end Awaiting

def awaitingRounds (full : Prop) : Rounds where
  waiting := fun proc arg => full → ∀ value, arg.early = some value → proc.Listed value
  reached := fun _ => Argument.Awaits full
  waitingFramed := fun _ _ _ _ _ listed grown _ isFull value has => (listed isFull value has).kept grown
  reachedFramed := fun _ => Argument.awaits_framed full

theorem Ready.awaits {s t : LoweringState}
    (ready : Ready settings id data s t seen seen' args copies) (loose : data.Loose)
    (holds : Holds s.proc id data seen) (sound : s.Sound)
    (fits : full → ∀ arg ∈ data.args.args, arg.Fits settings)
    (listed : full → ∀ arg ∈ data.args.args, ∀ value, arg.early = some value → s.proc.Listed value)
    (done : shapeArgs settings id s = .ok () t) (arg : Argument) (mem : arg ∈ args) : arg.Awaits full t.proc := by
  obtain ⟨_, args', _, progress, _⟩ := shapeArgs_progress (awaitingRounds full)
    (fun index now arg after u v tree early late copies mem waiting here atIndex shape done =>
      shapeArg_awaits (fun isFull => fits isFull arg mem) (loose.raw arg mem).loose waiting here atIndex shape done)
    holds loose.isOpen (fun arg mem => ⟨(loose.raw arg mem).present, (loose.raw arg mem).loose⟩)
    (fun arg mem isFull => listed isFull arg mem) sound done
  have sameArgs : args = args' := congrArg (fun call => call.args.args)
    (Option.some.inj (ready.passage.holds.here.symm.trans progress.passage.holds.here))
  subst sameArgs
  obtain ⟨index, bound, rfl⟩ := getElem_of_mem mem
  have before := getElem?_eq_getElem (ready.sameLength ▸ bound)
  exact progress.reached index _ _ (ready.sameLength ▸ bound) before (getElem?_eq_getElem bound)

theorem Kept.seat (kept : Kept before proc after) : after.seat = before.seat := by
  obtain ⟨⟨_, kept⟩, _⟩ := kept
  cases kept <;> rfl

theorem Kept.role (kept : Kept before proc after) : after.role = before.role := by
  obtain ⟨⟨_, kept⟩, _⟩ := kept
  cases kept <;> rfl

end Shape

theorem plan_still (here : p.calls[id]? = some data) (now : q.calls[id]? = some data')
    (completes : Interference.complete settings id p = .ok () m)
    (schedules : Schedule.schedule cost id m = .ok order q) :
    Reworks id p q ∧ data'.args.stage = .completed
      ∧ data'.args.stackSize = data.args.stackSize := by
  obtain ⟨marks, _, _, setM⟩ := Interference.complete_ok here completes
  obtain ⟨completed, atM, _, _, setQ⟩ := Schedule.schedule_ok schedules
  have sameM := Procedure.setCall_at here setM
  cases sameM.symm.trans atM
  cases (Procedure.setCall_at sameM setQ).symm.trans now
  refine ⟨?_, rfl, rfl⟩
  exact (Edit.setCall_extends setM).follow (Edit.setCall_extends setQ)

theorem Planned.awaits (plan : Planned id data data' p q seen order) (holds : Holds p id data seen)
    (isOpen : data.args.isMaterialized = false) (completes : Interference.complete settings id p = .ok () m)
    (schedules : Schedule.schedule cost id m = .ok order q) (awaits : ∀ arg ∈ data.args.args, arg.Awaits full p)
    (arg : Argument) (mem : arg ∈ data'.args.args) : arg.Awaits full q := by
  obtain ⟨grown, _⟩ := plan_still holds.here plan.passage.holds.here completes schedules
  obtain ⟨index, bound, rfl⟩ := getElem_of_mem mem
  have inData : index < data.args.args.length := plan.sameLength ▸ bound
  obtain ⟨mark, atIndex, _⟩ := plan.decided index _ (getElem?_eq_getElem inData)
  rw [Option.some.inj ((getElem?_eq_getElem bound).symm.trans atIndex)]
  have member := getElem_mem inData
  generalize data.args.args[index] = before at member
  have awaits := Argument.awaits_framed full p q _ _ before (awaits before member) grown
    fun root isNode part atPart => ⟨fun _ _ => not_false, fun named met same =>
      holds.notUnder isOpen member isNode atPart (same ▸ met)⟩
  exact { awaits with }

namespace Materialize

-- As the rounds before, and each argument that was settled is finished in its place.
def finishRounds (full several : Prop) : Rounds where
  waiting := fun proc arg => arg.Arranged several proc ∧ arg.Awaits full proc
  reached := fun before proc after =>
    (settleRounds several).reached before proc after ∧ after.seat = before.seat ∧ after.Finished full proc
  waitingFramed := fun p q nodes calls arg waiting grown apart =>
    ⟨Argument.arranged_framed several p q nodes calls arg waiting.1 grown apart,
      Argument.awaits_framed full p q nodes calls arg waiting.2 grown apart⟩
  reachedFramed := fun before p q nodes calls after reached grown apart =>
    ⟨(settleRounds several).reachedFramed before p q nodes calls after reached.1 grown apart, reached.2.1,
      Argument.finished_framed full p q nodes calls after reached.2.2 grown apart⟩

section Finishing

variable {settings : Settings} {id : CallId} {full several : Prop} {arg after : Argument} {p q : Procedure}
  {tree : List NodeId}

theorem ready_finished (arranged : arg.Arranged several p) (awaits : arg.Awaits full p)
    (isLate : arg.late.isSome = true) : arg.Finished full p := by
  obtain ⟨late, isLate⟩ := Option.isSome_iff_exists.mp isLate
  obtain ⟨⟨copy, store, isTemp, isEarly, _, stores⟩, part, atPart, quiet⟩ := arranged.copied late isLate
  obtain ⟨value, tree, has, atTree, _⟩ := arranged.tree
  cases isEarly.symm.trans has
  have stored : copy ∈ p.storedIn tree :=
    mem_filterMap.mpr ⟨store, Spans.root_mem atTree.spans (by simp), stores⟩
  refine ⟨by simp [Argument.value, isEarly], fun _ early _ has' _ => ?_, fun _ other _ has' => ?_,
    fun loose => ?_, fun _ => ?_, fun isFull _ => awaits.solid isFull⟩
  · cases isEarly.symm.trans has'
    exact ⟨tree, atTree, ne_nil_of_mem stored⟩
  · cases isLate.symm.trans has'
    exact ⟨part, atPart, quiet⟩
  · cases loose.symm.trans isLate
  · exact ⟨copy, store, late, isTemp, isEarly, isLate, ⟨tree, atTree, stored⟩,
      awaits.recalled late copy isLate isTemp⟩

theorem temp_inFront {early late : List NodeId} {temp : LocalId}
    (step : SlotStep id p q tree after early late copies) (quiet : q.Quiet late)
    (isTemp : temp ∈ q.tempsFrom p.locals.size) : temp ∈ q.storedIn early := by
  have both : temp ∈ q.storedIn (early ++ late) :=
    step.carries.storedIn.mem_iff.mpr (mem_append_right _ (mem_append_left _ isTemp))
  rwa [q.storedIn_append, q.quiet_storedIn quiet, append_nil] at both

theorem settled_finished (fits : full → arg.Fits settings) (arranged : arg.Arranged several p)
    (awaits : arg.Awaits full p) (settled : SlotSettled settings id arg p q tree after) : after.Finished full q := by
  have notTemp : arg.late = none → ¬ arg.flags.isTemp = true := fun loose isTemp => by
    rw [(arranged.loose loose).2] at isTemp
    cases isTemp
  cases settled with
  | ready late same =>
    subst same
    exact ready_finished arranged awaits late
  | fields value early fields earlyTree lateTree has loose marked found step quiet temps =>
    refine ⟨rfl, fun isFull _ _ isEarly _ => ?_, fun _ _ _ isLate => ?_, fun noLate => (nomatch noLate),
      fun isTemp => absurd isTemp (notTemp loose), fun _ isTemp => absurd isTemp (notTemp loose)⟩
    · cases isEarly
      obtain ⟨temp, isTemp⟩ := temps ((awaits.listed isFull loose value has).uses found)
      exact ⟨earlyTree, step.atEarly, ne_nil_of_mem (temp_inFront step quiet isTemp)⟩
    · cases isLate
      exact ⟨lateTree, step.atLate, quiet⟩
  | whole value store read temp ty m m' earlyTree lateTree has loose marked isTemp reads set step quiet =>
    have stored : temp ∈ q.storedIn earlyTree :=
      temp_inFront step quiet (isTemp ▸ mem_singleton.mpr rfl)
    obtain ⟨recalls, solid⟩ := readTemp_recalls reads
    refine ⟨rfl, fun _ _ _ isEarly _ => ?_, fun _ _ _ isLate => ?_, fun noLate => (nomatch noLate),
      fun _ => ?_, fun isFull _ late isLate => ?_⟩
    · cases isEarly
      exact ⟨earlyTree, step.atEarly, ne_nil_of_mem stored⟩
    · cases isLate
      exact ⟨lateTree, step.atLate, quiet⟩
    · refine ⟨temp, store, read, rfl, rfl, rfl, ⟨earlyTree, step.atEarly, stored⟩, lateTree, step.atLate, ?_⟩
      exact (recalls.kept set).mentioned step.atLate
    · cases isLate
      exact (solid (fits isFull)).kept set
  | moved value has loose unmarked deferred step =>
    exact ⟨rfl, fun _ _ _ isEarly => (nomatch isEarly), fun _ _ isEarly => (nomatch isEarly),
      fun noLate => (nomatch noLate), fun isTemp => absurd isTemp (notTemp loose),
      fun _ isTemp => absurd isTemp (notTemp loose)⟩
  | kept value has loose stays same =>
    subst same
    refine ⟨by simp [Argument.value, has], fun _ _ _ _ isLate => ?_, fun _ _ _ isLate => ?_, fun _ => ?_,
      fun isTemp => absurd isTemp (notTemp loose), fun _ isTemp => absurd isTemp (notTemp loose)⟩
    · cases loose.symm.trans isLate
    · cases loose.symm.trans isLate
    · exact (Bool.or_eq_false_iff.mp stays).1

theorem SlotSettled.seat (settled : SlotSettled settings id arg p q tree after) : after.seat = arg.seat := by
  cases settled <;> rfl

end Finishing

theorem finishing (plan : Planned id data data' p q seen order)
    (fits : full → ∀ arg ∈ data'.args.args, arg.Fits settings) :
    Settling settings id data' (finishRounds full (1 < data'.args.args.length)) where
  isOpen := plan.isOpen
  present := (plan.settling settings).present
  round := fun arg after u v tree mem waiting atTree settled =>
    ⟨(plan.settling settings).round arg after u v tree mem waiting.1 atTree settled, settled.seat,
      settled_finished (fun isFull => fits isFull arg mem) waiting.1 waiting.2 settled⟩
  storeless := fun arg u tree mem waiting =>
    (plan.settling settings).storeless arg u tree mem waiting.1

end Materialize

theorem map_eq_of_each {α β : Type} {f : α → β} {items others : List α} (sameLength : others.length = items.length)
    (each : ∀ (index : Nat) (item other : α), items[index]? = some item → others[index]? = some other →
      f other = f item) : others.map f = items.map f := by
  apply ext_getElem (by simp [sameLength])
  intro index inOthers inItems
  rw [length_map] at inOthers inItems
  simp only [getElem_map]
  exact each index _ _ (getElem?_eq_getElem inItems) (getElem?_eq_getElem inOthers)

theorem Planned.seats (plan : Planned id data data' p q seen order) :
    data'.args.args.map Argument.seat = data.args.args.map Argument.seat := by
  apply map_eq_of_each plan.sameLength
  intro index before after atBefore atAfter
  obtain ⟨mark, atMark, _⟩ := plan.decided index before atBefore
  cases atMark.symm.trans atAfter
  rfl

namespace Lowering

section Verified

variable {settings : Settings} {cost : CostModel} {id : CallId} {data : Call} {s t : LoweringState}
  {m q r : Procedure} {order : List Nat} {seen : List NodeId}

theorem shaped_planned (loose : data.Loose) (holds : Holds s.proc id data seen)
    (finished : Done s.proc seen) (sound : s.Sound) (shapes : Shape.shapeArgs settings id s = .ok () t)
    (completes : Interference.complete settings id t.proc = .ok () m)
    (schedules : Schedule.schedule cost id m = .ok order q) :
    ∃ seen' args copies data', Shape.Ready settings id data s t seen seen' args copies
      ∧ Planned id (data.withArgs args) data' t.proc q seen' order
      ∧ data'.args.stage = .completed ∧ data'.args.stackSize = data.args.stackSize := by
  obtain ⟨seen', args, copies, ready⟩ := Shape.shapeArgs_ready loose
    holds sound shapes
  obtain ⟨data', plan⟩ := planned ready.passage.holds
    (ready.passage.done finished) (ready.prepared loose) completes schedules
  obtain ⟨_, completed, stackSize⟩ := plan_still ready.passage.holds.here plan.passage.holds.here completes
    schedules
  exact ⟨seen', args, copies, data', ready, plan, completed, stackSize⟩

structure Settled (settings : Settings) (full : Prop) (id : CallId) (data : Call) (proc : Procedure) :
    Prop where
  here : proc.calls[id]? = some data
  materialized : data.args.isMaterialized = true
  ordered : data.args.Ordered
  finished : ∀ arg ∈ data.args.args, arg.Finished full proc
  under : ∀ arg ∈ data.args.args, ∀ root, arg.early = some root ∨ arg.late = some root →
    ∀ part, Forest proc [root] part → Done proc part
  laid : full → data.args.Laid settings

theorem settled (loose : data.Loose) (holds : Holds s.proc id data seen)
    (finished : Done s.proc seen) (sound : s.Sound) (laid : full → data.args.Laid settings)
    (listed : full → ∀ arg ∈ data.args.args, ∀ value, arg.early = some value → s.proc.Listed value)
    (shapes : Shape.shapeArgs settings id s = .ok () t)
    (completes : Interference.complete settings id t.proc = .ok () m)
    (schedules : Schedule.schedule cost id m = .ok order q)
    (settles : Materialize.materialize settings id order q = .ok () r) :
    ∃ data', Settled settings full id data' r := by
  obtain ⟨visited₁, args, copies, data', ready, plan, _, stackSize⟩ := shaped_planned loose holds finished
    sound shapes completes schedules
  have awaits := plan.awaits ready.passage.holds loose.isOpen completes schedules
    (ready.awaits loose holds sound (fun isFull => (laid isFull).fits) listed shapes)
  have sameSeats := map_eq_of_each ready.sameLength fun index before after atBefore atAfter =>
    (ready.kept index before after atBefore atAfter).seat
  have laid := fun isFull => (laid isFull).congr (plan.seats.trans sameSeats) stackSize
  obtain ⟨visited₂, args', materialized⟩ := Materialize.materialize_trees plan.passage.holds
    (Materialize.finishing plan fun isFull => (laid isFull).fits)
    (fun arg mem => ⟨plan.arranged arg mem, awaits arg mem⟩) plan.everyone (by
      by_cases several : 1 < data'.args.args.length
      · exact .inr fun before proc after late reached isLate => reached.1.2.2 several late isLate
      · exact .inl (Nat.le_of_not_lt several)) settles
  have everyone : order.Perm (List.range args'.length) := materialized.sameLength ▸ plan.everyone
  have settled := Materialize.marked_settled everyone (plan.sameCookie.trans loose.noCookie)
  have holds := materialized.passage.holds
  refine ⟨_, holds.here, rfl, Materialize.marked_ordered data' everyone, fun arg mem => ?_,
    holds.doneUnder settled (materialized.passage.done (plan.passage.done (ready.passage.done finished))),
    fun isFull => ?_⟩
  · obtain ⟨index, bound, rfl⟩ := getElem_of_mem mem
    have before := getElem?_eq_getElem (materialized.sameLength ▸ bound)
    exact (materialized.reached index _ _ before (getElem?_eq_getElem bound)).2.2
  · refine (laid isFull).congr ?_ rfl
    exact map_eq_of_each materialized.sameLength fun index before after atBefore atAfter =>
      (materialized.reached index before after atBefore atAfter).2.1

theorem Settled.verified (settled : Settled settings full id data r) (isFull : full) :
    data.args.Verified r where
  shaped := fun arg mem => (settled.finished arg mem).shaped (settled.under arg mem) isFull
  ordered := settled.ordered
  apart := (settled.laid isFull).apart
  temps := fun arg mem => (settled.finished arg mem).tempUsed (settled.under arg mem) isFull

end Verified

end Lowering

end CallLowering
