import CallLowering.Proofs.LateOrder
import CallLowering.Proofs.LoweredInputs
import CallLowering.Proofs.Pinning
import CallLowering.Proofs.Scheduling

/-!
The second half of a call's first visit: once everything it holds is lowered, its arguments are
shaped, analysed, scheduled and settled. Each stage takes what the one before it leaves.
-/

namespace CallLowering

open Materialize

open List

variable {id : CallId} {settings : Settings} {data data' : Call} {seen : List NodeId} {s t : LoweringState}
  {proc p q : Procedure} {after arg : Argument} {order : List Nat} {lower : NodeId → Step Unit}
  {tree : List NodeId} {several : Prop}

structure Argument.Prepared (proc : Procedure) (arg : Argument) : Prop where
  present : arg.early.isSome = true
  unpinned : arg.flags.needsTemp = false
  unplaced : arg.flags.needsPlace = false
  loose : arg.late = none → arg.temp = none ∧ arg.flags.isTemp = false
  copied : ∀ late, arg.late = some late →
    (∃ copy store, arg.temp = some copy ∧ arg.early = some store ∧ proc.IsCopy copy arg.ty
      ∧ proc.storeAt store = some copy)
    ∧ ∃ part, Forest proc [late] part ∧ proc.Quiet part

theorem Shape.Kept.prepared {before : Argument} (kept : Kept before proc after) (raw : before.Raw) :
    after.Prepared proc := by
  obtain ⟨⟨copies, kept⟩, quiet⟩ := kept
  cases kept with
  | early value =>
    refine ⟨rfl, raw.unpinned, raw.unplaced, fun _ => ⟨raw.noTemp, raw.noRead⟩, fun late isLate => ?_⟩
    cases raw.loose.symm.trans isLate
  | copied copy store late isCopy stores =>
    refine ⟨rfl, raw.unpinned, raw.unplaced, fun none => ?_, fun other isLate => ?_⟩
    · cases none
    · exact ⟨⟨copy, store, rfl, rfl, isCopy, stores⟩, quiet other isLate⟩

def Shape.keptRounds : Rounds where
  waiting := fun _ _ => True
  reached := Kept
  waitingFramed := fun _ _ _ _ _ _ _ _ => trivial
  reachedFramed := kept_framed

structure Shape.Ready (settings : Settings) (id : CallId) (data : Call) (s t : LoweringState)
    (visited visited' : List NodeId) (args : List Argument) (copies : List LocalId) : Prop where
  passage : Passage id s.proc t.proc (data.withArgs args) visited visited' copies
  sameLength : args.length = data.args.args.length
  kept : ∀ (index : Nat) (before after : Argument), data.args.args[index]? = some before →
    args[index]? = some after → Kept before t.proc after
  tracked : ∀ copy ∈ copies, ∃ arg ∈ args, arg.temp = some copy
  sound : t.pool.Sound t.proc
  holding : CopyPool.Holding s.pool t.pool copies

theorem Shape.shapeArgs_ready (loose : data.Loose) (holds : Holds s.proc id data seen)
    (sound : s.Sound) (done : shapeArgs settings id s = .ok () t) :
    ∃ seen' args copies, Ready settings id data s t seen seen' args copies := by
  obtain ⟨seen', args, copies, progress, tracked, soundAfter, holding⟩ :=
    shapeArgs_progress keptRounds (by
      intro index now arg after u v tree early late copies _ _ _ _ shape _
      refine ⟨⟨copies, shape.kept⟩, fun root isLate => ⟨late, ?_, shape.quiet⟩⟩
      have atLate := shape.step.atLate
      rwa [isLate] at atLate) holds loose.isOpen
      (fun arg mem => ⟨(loose.raw arg mem).present, (loose.raw arg mem).loose⟩)
      (fun _ _ => trivial) sound done
  refine ⟨seen', args, copies, progress.passage, progress.sameLength, ?_, ?_, soundAfter, holding⟩
  · intro index before after atBefore atAfter
    exact progress.reached index before after (lt_length atBefore) atBefore atAfter
  · intro copy mem
    obtain ⟨index, arg, _, atIndex, held⟩ := tracked copy mem
    exact ⟨arg, List.mem_of_getElem? atIndex, held⟩

theorem Shape.Ready.prepared {seen' : List NodeId} {args : List Argument} {copies : List LocalId}
    (ready : Ready settings id data s t seen seen' args copies) (loose : data.Loose) (arg : Argument)
    (mem : arg ∈ args) : arg.Prepared t.proc := by
  obtain ⟨index, bound, rfl⟩ := getElem_of_mem mem
  have inData : index < data.args.args.length := ready.sameLength ▸ bound
  exact (ready.kept index _ _ (getElem?_eq_getElem inData) (getElem?_eq_getElem bound)).prepared
    (loose.raw _ (getElem_mem inData))

theorem Done.storeless {root : NodeId} {top : Node} (done : Done proc tree)
    (forest : Forest proc [root] tree) (here : proc.nodes[root]? = some top)
    (assigns : top.effects.assigns = false) : proc.storedIn tree = [] := by
  apply filterMap_eq_nil_iff.mpr
  intro id met
  obtain ⟨kind, atKind⟩ := proc.kindAt_of_lt (forest.valid id met)
  obtain ⟨node, atNode, rfl⟩ := proc.kindAt_some_iff.mp atKind
  rw [proc.storeAt_eq atKind]
  by_contra stores
  obtain ⟨var, named⟩ := Option.ne_none_iff_exists'.mp stores
  have isStore := node.kind.isStore_of_storesLocal? var named
  have := proc.exact_assigns atNode (done.inputs forest) done.upToDate here met isStore
  rw [assigns] at this
  cases this

-- An argument after the analysis and the schedule. One that may move, and is not alone, stores to no
-- local.
structure Argument.Arranged (several : Prop) (proc : Procedure) (arg : Argument) : Prop where
  tree : ∃ value tree, arg.early = some value ∧ Forest proc [value] tree
    ∧ (several → arg.late = none → arg.flags.needsTemp = false →
      (arg.placement.hasReg || arg.flags.needsPlace) = true → proc.storedIn tree = [])
  loose : arg.late = none → arg.temp = none ∧ arg.flags.isTemp = false
  copied : ∀ late, arg.late = some late →
    (∃ copy store, arg.temp = some copy ∧ arg.early = some store ∧ proc.IsCopy copy arg.ty
      ∧ proc.storeAt store = some copy)
    ∧ ∃ part, Forest proc [late] part ∧ proc.Quiet part

theorem Argument.arranged_framed (several : Prop) : Framed (Argument.Arranged several) := by
  rintro p q nodes calls arg ⟨⟨value, tree, has, atTree, storeless⟩, loose, copied⟩ grown apart
  refine ⟨⟨value, tree, has, ?_, ?_⟩, loose, fun late isLate => ?_⟩
  · obtain ⟨nodesApart, callsApart⟩ := apart value (.inl has) tree atTree
    exact atTree.frame grown nodesApart callsApart
  · rw [grown.storedIn atTree.valid]
    exact storeless
  · obtain ⟨⟨copy, store, held, isEarly, isCopy, stores⟩, part, atPart, quiet⟩ := copied late isLate
    obtain ⟨nodesApart, callsApart⟩ := apart late (.inr isLate) part atPart
    have bound : store < p.nodes.size := by
      obtain ⟨kind, here, _⟩ := Option.bind_eq_some_iff.mp stores
      exact p.kindAt_lt here
    exact ⟨⟨copy, store, held, isEarly, isCopy.kept grown, (grown.storeAt bound).trans stores⟩,
      part, atPart.frame grown nodesApart callsApart, quiet.kept grown atPart.valid⟩

-- What the marks of the analysis and the schedule leave of an argument.
def Argument.decided (arg : Argument) (mark : Interference.Mark) : Argument :=
  { arg with flags := { (Interference.applyMark arg mark).flags with processed := true } }

theorem Interference.Analysis.arranged {marks : List Mark} (analysis : Analysis settings proc data marks)
    (holds : Holds proc id data seen) (done : Done proc seen) {index : Nat}
    (atIndex : data.args.args[index]? = some arg) (prepared : arg.Prepared proc) :
    ∃ mark, marks[index]? = some mark ∧ (arg.decided mark).Arranged (1 < data.args.size) proc := by
  obtain ⟨profile, atProfile, described, _⟩ := analysis.profile_at atIndex
  obtain ⟨mark, atMark, atPinned, atPlaced⟩ := analysis.mark_at atProfile
  obtain ⟨value, has⟩ := Option.isSome_iff_exists.mp prepared.present
  obtain ⟨tree, atTree, _, mem⟩ := holds.treeOf (mem_of_getElem? atIndex) has
  refine ⟨mark, atMark, ⟨value, tree, has, atTree, ?_⟩, prepared.loose, prepared.copied⟩
  intro several _ unpinned deferred
  obtain ⟨node, atNode, sameEffects, _⟩ := described.node value has
  simp only [Argument.decided, applyMark, prepared.unpinned, prepared.unplaced, Bool.false_or,
    Bool.or_eq_true] at unpinned deferred
  have quiet := analysis.late_assigns_nothing atProfile described
    (by rw [described.value, has]; rfl) several atPinned atPlaced unpinned deferred
  rw [sameEffects] at quiet
  exact (done.subset mem).storeless atTree atNode quiet

structure Planned (id : CallId) (data data' : Call) (p q : Procedure) (visited : List NodeId)
    (order : List Nat) : Prop where
  passage : Passage id p q data' visited visited []
  isOpen : data'.args.isMaterialized = false
  sameCookie : data'.ownCookie = data.ownCookie
  sameLength : data'.args.args.length = data.args.args.length
  everyone : order.Perm (List.range data'.args.args.length)
  decided : ∀ (index : Nat) (arg : Argument), data.args.args[index]? = some arg →
    ∃ mark, data'.args.args[index]? = some (arg.decided mark)
      ∧ (arg.decided mark).Arranged (1 < data'.args.args.length) q

theorem planned {cost : CostModel} {m : Procedure} (holds : Holds p id data seen)
    (done : Done p seen) (prepared : ∀ arg ∈ data.args.args, arg.Prepared p)
    (completes : Interference.complete settings id p = .ok () m)
    (schedules : Schedule.schedule cost id m = .ok order q) : ∃ data', Planned id data data' p q seen order := by
  obtain ⟨marks, finalized, ⟨analysis⟩, setM⟩ := Interference.complete_ok holds.here completes
  obtain ⟨completed, atM, _, ordered, setQ⟩ := Schedule.schedule_ok schedules
  cases (Procedure.setCall_at holds.here setM).symm.trans atM
  have sameLength : (List.zipWith Interference.applyMark data.args.args marks).length
      = data.args.args.length := by
    rw [length_zipWith, analysis.marks_length, Nat.min_self]
  have isOpen : data.args.isMaterialized = false := by simp [ArgList.isMaterialized, finalized]
  have first := Passage.rewritten holds setM isOpen rfl (analysis.marked_map _ fun _ _ => rfl)
    (analysis.marked_map _ fun _ _ => rfl) rfl rfl
  have second := Passage.rewritten first.holds setQ rfl rfl
    (by simp [Schedule.markProcessed])
    (by simp [Schedule.markProcessed]) rfl rfl
  have everyone := ordered ▸ Schedule.specified_perm cost m _
  have grown : Reworks id p q :=
    (Edit.setCall_extends setM).follow (Edit.setCall_extends setQ)
  refine ⟨_, first.trans second holds.forest.valid, rfl, rfl, ?_, ?_, ?_⟩
  · rw [Schedule.markProcessed, length_map, sameLength]
  · rw [Schedule.markProcessed, length_map]
    exact everyone
  · intro index arg atIndex
    obtain ⟨mark, atMark, arranged⟩ := analysis.arranged holds done atIndex
      (prepared arg (mem_of_getElem? atIndex))
    refine ⟨mark, ?_, ?_⟩
    · rw [Schedule.markProcessed, getElem?_map, getElem?_zipWith_eq_some.mpr
        ⟨arg, mark, atIndex, atMark, rfl⟩]
      rfl
    · rw [Schedule.markProcessed, length_map, sameLength]
      apply Argument.arranged_framed _ p q _ _ _ arranged grown
      intro root isNode part atPart
      have apart := holds.notUnder isOpen (mem_of_getElem? atIndex) isNode atPart
      exact ⟨fun _ _ => not_false, fun named met same => apart (same ▸ met)⟩

theorem Planned.arranged (plan : Planned id data data' p q seen order)
    (arg : Argument) (mem : arg ∈ data'.args.args) : arg.Arranged (1 < data'.args.args.length) q := by
  obtain ⟨index, bound, rfl⟩ := getElem_of_mem mem
  have inData : index < data.args.args.length := plan.sameLength ▸ bound
  obtain ⟨mark, atIndex, arranged⟩ := plan.decided index _ (getElem?_eq_getElem inData)
  rwa [← Option.some.inj ((getElem?_eq_getElem bound).symm.trans atIndex)] at arranged

-- While the arguments are settled: those with a late node stay as they are, and if there are several,
-- no late node stores to a local.
def Materialize.settleRounds (several : Prop) : Rounds where
  waiting := Argument.Arranged several
  reached := fun before proc after => (before.late.isSome = true → after = before)
    ∧ after.OwnsTemp proc
    ∧ (several → ∀ late, after.late = some late →
      ∃ part, Forest proc [late] part ∧ proc.storedIn part = [])
  waitingFramed := Argument.arranged_framed several
  reachedFramed := by
    rintro before p q nodes calls after ⟨same, owns, storeless⟩ grown apart
    refine ⟨same, owns.kept grown, fun isSeveral late isLate => ?_⟩
    obtain ⟨part, atPart, none⟩ := storeless isSeveral late isLate
    obtain ⟨nodesApart, callsApart⟩ := apart late (.inr isLate) part atPart
    refine ⟨part, atPart.frame grown nodesApart callsApart, ?_⟩
    rw [grown.storedIn atPart.valid, none]

theorem Argument.Arranged.ownsTemp (arranged : arg.Arranged several proc) : arg.OwnsTemp proc := by
  intro var held
  cases isLate : arg.late with
  | none =>
    rw [(arranged.loose isLate).1] at held
    cases held
  | some late =>
    obtain ⟨⟨copy, store, isTemp, isEarly, isCopy, stores⟩, _⟩ := arranged.copied late isLate
    cases held.symm.trans isTemp
    exact .inr ⟨isCopy, store, isEarly, stores⟩

theorem settle_round {u v : Procedure} (waiting : arg.Arranged several u) (atTree : Forest u arg.early.toList tree)
    (settled : SlotSettled settings id arg u v tree after) : (settleRounds several).reached arg v after := by
  -- An argument without a temp owns none afterwards either.
  have noTemp : ∀ other : Argument, arg.late = none → other.temp = arg.temp → other.OwnsTemp v := by
    intro other loose same var held
    rw [same, (waiting.loose loose).1] at held
    cases held
  have notLate : arg.late = none → ¬ arg.late.isSome = true := fun loose isLate => by
    rw [loose] at isLate
    cases isLate
  cases settled with
  | ready late same =>
    subst same
    refine ⟨fun _ => rfl, waiting.ownsTemp, fun _ root isLate => ?_⟩
    obtain ⟨_, part, atPart, quiet⟩ := waiting.copied root isLate
    exact ⟨part, atPart, v.quiet_storedIn quiet⟩
  | fields value early fields earlyTree lateTree has loose marked found step quiet _ =>
    refine ⟨fun isLate => absurd isLate (notLate loose), noTemp _ loose rfl, fun _ root isLate => ?_⟩
    cases isLate
    exact ⟨lateTree, step.atLate, v.quiet_storedIn quiet⟩
  | whole value store read temp ty m m' earlyTree lateTree has loose marked isTemp reads _ step quiet =>
    refine ⟨fun isLate => absurd isLate (notLate loose), fun var held => .inl ?_, fun _ root isLate => ?_⟩
    · cases held
      exact v.tempsFrom_isArgTemp (isTemp ▸ mem_singleton.mpr rfl)
    · cases isLate
      exact ⟨lateTree, step.atLate, v.quiet_storedIn quiet⟩
  | moved value has loose unmarked deferred step =>
    refine ⟨fun isLate => absurd isLate (notLate loose), noTemp _ loose rfl,
      fun isSeveral root isLate => ⟨tree, ?_, ?_⟩⟩
    · cases isLate
      exact step.atLate
    · obtain ⟨value', tree', has', atTree', storeless⟩ := waiting.tree
      rw [has'] at atTree
      cases Spans.unique atTree.spans atTree'.spans
      rw [step.grown.storedIn atTree.valid, storeless isSeveral loose unmarked deferred]
  | kept value has loose stays same =>
    subst same
    refine ⟨fun _ => rfl, waiting.ownsTemp, fun _ root isLate => ?_⟩
    cases loose.symm.trans isLate

theorem Planned.settling (plan : Planned id data data' p q seen order) (settings : Settings) :
    Materialize.Settling settings id data' (Materialize.settleRounds (1 < data'.args.args.length)) where
  isOpen := plan.isOpen
  present := fun arg mem => by
    obtain ⟨value, _, has, _⟩ := (plan.arranged arg mem).tree
    rw [has]
    rfl
  round := fun arg after u v tree _ waiting atTree settled =>
    settle_round waiting atTree settled
  storeless := fun arg u tree mem waiting loose unmarked deferred atTree => by
    by_cases several : 1 < data'.args.args.length
    · obtain ⟨value, tree', has, atTree', storeless⟩ := waiting.tree
      rw [has] at atTree
      cases Spans.unique atTree.spans atTree'.spans
      exact .inr (storeless several loose unmarked deferred)
    · have := length_pos_of_mem mem
      exact .inl (by omega)

namespace Lowering

structure Passes (settings : Settings) (lower : NodeId → Step Unit) (id : CallId)
    (s t : LoweringState) where
  finalized : Procedure
  targeted : LoweringState
  data : Call
  entered : LoweringState
  shaped : LoweringState
  completed : Procedure
  order : List Nat
  scheduled : Procedure
  finalizes : AbiInfo.finalize settings id s.proc = .ok () finalized
  targets : lowerTarget lower id { s with proc := finalized } = .ok () targeted
  here : targeted.proc.calls[id]? = some data
  enters : (List.range data.args.size).forM (lowerEarly Transform.identity lower id) targeted
    = .ok () entered
  shapes : Shape.shapeArgs settings id entered = .ok () shaped
  completes : Interference.complete settings id shaped.proc = .ok () completed
  schedules : Schedule.schedule (Schedule.costModel settings) id completed = .ok order scheduled
  settles : Materialize.materialize settings id order scheduled = .ok () t.proc
  samePool : t.pool = shaped.pool

theorem checkCall_ok (done : checkCall settings id p = .ok () q) : q = p := by
  simp only [checkCall, bind_ok_iff, lift_edit_ok_iff, ask_ok_iff] at done
  obtain ⟨report, _, ⟨_, rfl⟩, done⟩ := done
  split at done
  · exact absurd done (by simp [throw_ok_iff])
  · exact (pure_ok_iff.mp done).2.symm

theorem lowerCall_passes (done : lowerCall settings Transform.identity lower id s = .ok () t) :
    Nonempty (Passes settings lower id s t) := by
  simp only [lowerCall, bind_ok_iff, lift_step_edit_ok_iff] at done
  obtain ⟨start, _, ⟨q, found, rfl⟩, done⟩ := done
  obtain ⟨_, rfl⟩ := Edit.call_ok found
  split at done
  · simp only [bind_ok_iff, refuse_ok_iff, false_and, exists_false] at done
  · simp only [bind_ok_iff, lift_step_edit_ok_iff, lift_attempt_ok_iff] at done
    obtain ⟨_, _, ⟨finalized, finalizes, rfl⟩, _, targeted, targets, data, _, ⟨q', found', rfl⟩, _, entered,
      enters, _, shaped, shapes, _, _, ⟨completed, completes, rfl⟩, order, _,
      ⟨scheduled, schedules, rfl⟩, _, _, ⟨settled, settles, rfl⟩, last, checks, rfl⟩ := done
    obtain ⟨here, rfl⟩ := Edit.call_ok found'
    have same := checkCall_ok checks
    subst same
    exact ⟨⟨finalized, targeted, data, entered, shaped, completed, order, scheduled, finalizes, targets,
      here, enters, shapes, completes, schedules, settles, rfl⟩⟩

-- What became of a call after its first visit, and of all it holds.
structure CallLowered (id : CallId) (s t : LoweringState) (data : Call)
    (visited visited' : List NodeId) (copies : List LocalId) : Prop where
  holds : Holds t.proc id data visited'
  settled : data.Settled
  owns : ∀ arg ∈ data.args.args, arg.OwnsTemp t.proc
  grown : Extends (· ∈ visited) (fun other => other = id ∨ other ∈ s.proc.callsIn visited) s.proc t.proc
  carries : Carries s.proc t.proc visited visited' copies
  done : Done t.proc visited'
  recorded : ∀ var ∈ copies,
    t.proc.Recorded visited' var ∨ ∃ arg ∈ data.args.args, arg.temp = some var
  sound : t.pool.Sound t.proc
  holding : CopyPool.Holding s.pool t.pool copies

theorem settled_passage {passes : Passes settings lower id s t}
    (loose : data.Loose) (holds : Holds passes.entered.proc id data seen)
    (done : Done passes.entered.proc seen) (sound : passes.entered.Sound) :
    ∃ data' seen' copies, Passage id passes.entered.proc t.proc data' seen seen' copies
      ∧ data'.Settled ∧ (∀ arg ∈ data'.args.args, arg.OwnsTemp t.proc)
      ∧ (∀ var ∈ copies, ∃ arg ∈ data'.args.args, arg.temp = some var)
      ∧ t.Sound ∧ CopyPool.Holding passes.entered.pool t.pool copies := by
  obtain ⟨visited₁, args, copies, ready⟩ := Shape.shapeArgs_ready loose
    holds sound passes.shapes
  have prepared := ready.prepared loose
  obtain ⟨data', plan⟩ := planned ready.passage.holds
    (ready.passage.done done) prepared passes.completes passes.schedules
  obtain ⟨visited₂, args', materialized⟩ := materialize_trees plan.passage.holds
    (plan.settling settings) plan.arranged plan.everyone (by
      by_cases several : 1 < data'.args.args.length
      · exact .inr fun before proc after late reached isLate => reached.2.2 several late isLate
      · exact .inl (Nat.le_of_not_lt several)) passes.settles
  have valid := holds.forest.valid
  have passage := (ready.passage.trans plan.passage valid).trans materialized.passage valid
  rw [append_nil, append_nil] at passage
  have everyone : passes.order.Perm (List.range args'.length) := materialized.sameLength ▸ plan.everyone
  refine ⟨_, visited₂, copies, passage, marked_settled everyone
    (plan.sameCookie.trans loose.noCookie), ?_, ?_, ?_, ?_⟩
  · intro arg mem
    obtain ⟨index, atIndex⟩ := getElem?_of_mem mem
    have bound : index < data'.args.args.length :=
      materialized.sameLength ▸ (lt_length atIndex)
    exact (materialized.reached index _ arg (List.getElem?_eq_getElem bound) atIndex).2.1
  · intro var taken
    obtain ⟨arg, mem, held⟩ := ready.tracked var taken
    obtain ⟨index, atIndex⟩ := getElem?_of_mem mem
    obtain ⟨mark, atMark, _⟩ := plan.decided index arg atIndex
    have bound : index < args'.length := by
      rw [materialized.sameLength]
      exact lt_length atMark
    have atLast := List.getElem?_eq_getElem bound
    have isLate : arg.late.isSome = true := by
      by_contra noLate
      rw [((prepared arg mem).loose (by simpa using noLate)).1] at held
      cases held
    have same := (materialized.reached index _ _ atMark atLast).1 isLate
    refine ⟨_, mem_of_getElem? atLast, ?_⟩
    rw [same]
    exact held
  · rw [LoweringState.Sound, passes.samePool]
    exact (ready.sound.kept plan.passage.grown).kept materialized.passage.grown
  · rw [passes.samePool]
    exact ready.holding

theorem lowerCall_lowered (lowers : Lowers lower)
    (holds : Holds s.proc id data seen) (asBuilt : data.Fresh) (fresh : Fresh s.proc seen)
    (sound : s.Sound) (done : lowerCall settings Transform.identity lower id s = .ok () t) :
    ∃ data' seen' copies, CallLowered id s t data' seen seen' copies := by
  obtain ⟨passes⟩ := lowerCall_passes done
  obtain ⟨data₁, visited₁, placed, loose⟩ := AbiInfo.finalize_loose holds
    asBuilt passes.finalizes
  obtain ⟨visited₂, copies, accounted⟩ := inputs_accounted (s := { s with proc := passes.finalized })
    lowers loose placed.holds (placed.fresh holds fresh) (sound.kept placed.grown) passes.targets
    passes.here passes.enters
  have holds₂ := accounted.holds placed.holds
  obtain ⟨data', seen', copies', rest, settled, owns, tracked, soundAfter, holding⟩ :=
    settled_passage loose holds₂ accounted.done accounted.sound
  have valid := holds.forest.valid
  have first := placed.carries.trans accounted.carries placed.grown accounted.grown valid
    placed.holds.forest.valid
  have reach : Extends (· ∈ seen) (fun other => other = id ∨ other ∈ s.proc.callsIn seen)
      s.proc passes.entered.proc := by
    refine (placed.grown.mono (fun _ mem => mem) (fun _ => .inl)).trans accounted.grown ?_ ?_
    · intro node mem bound
      exact (placed.carries.new node mem).resolve_right (Nat.not_le_of_lt bound)
    · intro other named
      exact .inr ((placed.carries.mem_callsIn placed.grown valid other).mp named)
  have carried := first.trans rest.carries reach rest.grown valid holds₂.forest.valid
  rw [nil_append] at carried
  refine ⟨data', seen', copies ++ copies', rest.holds, settled, owns, ?_, carried,
    rest.done accounted.done, ?_, soundAfter,
    CopyPool.holding_trans accounted.holding holding⟩
  · refine reach.trans rest.grown (fun node mem bound => ?_) (fun _ => .inl)
    exact (first.new node mem).resolve_right (Nat.not_le_of_lt bound)
  · intro var held
    rcases mem_append.mp held with below | here
    · exact .inl (rest.recorded holds₂ (accounted.recorded var below))
    · exact .inr (tracked var here)

end Lowering

end CallLowering
