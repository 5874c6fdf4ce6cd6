import CallLowering.Proofs.Refusals
import CallLowering.Proofs.VerifiedLists

/-! Lowering does not trip over its own checks. -/

namespace CallLowering

open List

variable {settings : Settings} {id : CallId} {origin : Procedure} {refusal : Refusal} {s t : LoweringState}
  {triple : Triple} {seen : List NodeId} {spec : CallSpec} {lower : NodeId → Step Unit} {proc : Procedure}

-- The calls below these nodes are as they were built in the first place and can be laid out, and no
-- list among the nodes is empty.
structure Untouched (settings : Settings) (origin proc : Procedure) (visited : List NodeId) : Prop where
  calls : ∀ call ∈ proc.callsIn visited, ∃ spec : CallSpec, origin.calls[call]? = some spec.toCall
    ∧ proc.calls[call]? = some spec.toCall ∧ spec.toCall.Admissible settings
  filled : ∀ id ∈ visited, proc.kindAt id ≠ some (.fieldList [])

namespace Untouched

variable {settings : Settings} {origin p q : Procedure} {seen seen' part : List NodeId}

variable (untouched : Untouched settings origin p seen)

include untouched

theorem fresh : Fresh p seen := by
  intro call named
  obtain ⟨spec, _, here, _⟩ := untouched.calls call named
  exact ⟨_, here, spec.toCall_fresh⟩

theorem subset (mem : ∀ id ∈ part, id ∈ seen) : Untouched settings origin p part where
  calls := fun call named => untouched.calls call (filterMap_subset _ mem named)
  filled := fun id met => untouched.filled id (mem id met)

theorem frame {nodes : NodeId → Prop} {calls : CallId → Prop}
    (grown : Extends nodes calls p q) (valid : ∀ id ∈ seen, id < p.nodes.size)
    (callsApart : ∀ call ∈ p.callsIn seen, ¬ calls call) : Untouched settings origin q seen where
  calls := fun call named => by
    rw [grown.callsIn valid] at named
    obtain ⟨spec, atOrigin, here, admissible⟩ := untouched.calls call named
    exact ⟨spec, atOrigin, (grown.callKept call (callsApart call named)).trans here, admissible⟩
  filled := fun id met empty => untouched.filled id met (grown.wasEmpty (valid id met) empty)

theorem finalized {data data' : Call} (holds : Holds p id data seen) (passage : Passage id p q data' seen seen' [])
    (done : AbiInfo.finalize settings id p = .ok () q) : Untouched settings origin q seen' where
  calls := fun call named => by
    obtain ⟨sameCalls, sameData⟩ := passage.nested holds call
    have named := sameCalls.mp named
    obtain ⟨spec, atOrigin, here, admissible⟩ := untouched.calls call named
    exact ⟨spec, atOrigin, (sameData named).trans here, admissible⟩
  filled := fun node met empty => by
    have before := KeepsFilled.finalized done node empty
    rcases passage.carries.new node met with old | new
    · exact untouched.filled node old before
    · exact Nat.lt_irrefl _ (Nat.lt_of_lt_of_le (p.kindAt_lt before) new)

end Untouched

theorem Step.inScope_error {α : Type} {step : Step α} {stop : Stop}
    (failed : Step.inScope step s = .error stop t) :
    ∃ m, step s.opened = .error stop m
      ∧ t = m.closed := by
  unfold Step.inScope at failed
  cases ran : step s.opened with
  | ok b m =>
    simp only [ran] at failed
    cases failed
  | error other m =>
    simp only [ran] at failed
    cases failed
    exact ⟨m, rfl, rfl⟩

namespace Lowering

structure Opened (settings : Settings) (origin : Procedure) (spec : CallSpec) (id : CallId) (data : Call)
    (proc : Procedure) (visited : List NodeId) : Prop where
  loose : data.Loose
  holds : Holds proc id data visited
  untouched : Untouched settings origin proc visited
  laid : data.args.Laid settings
  joined : spec.toCall.Joined spec.toCall.hiddenRoles data

theorem finalize_opened {p q : Procedure} (shipped : settings.target = Target.ofTriple triple)
    (declared : ∀ layout ∈ settings.types.layouts, layout.Natural)
    (admissible : spec.toCall.Admissible settings) (holds : Holds p id spec.toCall seen)
    (untouched : Untouched settings origin p seen) (done : AbiInfo.finalize settings id p = .ok () q) :
    ∃ data seen', Opened settings origin spec id data q seen'
      ∧ Extends (· ∈ seen) (· = id) p q := by
  obtain ⟨data, seen', passage, loose⟩ := AbiInfo.finalize_loose holds
    spec.toCall_fresh done
  obtain ⟨same, atSame, laid, joined⟩ := AbiInfo.finalize_laid shipped declared admissible holds.here done
  cases passage.holds.here.symm.trans atSame
  exact ⟨data, seen', ⟨loose, passage.holds, untouched.finalized holds passage done, laid, joined⟩,
    passage.grown⟩

-- A refusal in a tree whose calls are as built is warranted.
def Excused (settings : Settings) (origin : Procedure) (lower : NodeId → Step Unit) : Prop :=
  ∀ (id : NodeId) (s t : LoweringState) (visited : List NodeId) (refusal : Refusal),
    Forest s.proc [id] visited → Untouched settings origin s.proc visited → s.pool.Sound s.proc →
    lower id s = .error (.refusal refusal) t → Warranted settings origin t.proc refusal

theorem Excused.each {roots : List NodeId} (excused : Excused settings origin lower) (lowers : Lowers lower)
    (forest : Forest s.proc roots seen) (untouched : Untouched settings origin s.proc seen) (sound : s.Sound)
    (failed : roots.forM lower s = .error (.refusal refusal) t) : Warranted settings origin t.proc refusal := by
  obtain ⟨front, root, rest, m, rfl, ran, failed⟩ := forM_error lower failed
  obtain ⟨a, bc, rfl, atFront, behind, apart, callsApart⟩ := forest.split front (root :: rest)
  obtain ⟨b, c, rfl, atRoot, _, _⟩ := behind.split [root] rest
  obtain ⟨a', copies, lowered⟩ := Lowered.each lowers s a atFront
    (untouched.fresh.subset fun id met => mem_append_left _ met) sound ran
  have outside : ∀ id ∈ b, id ∉ a := fun id inB inA => apart inA (mem_append_left _ inB)
  have callsOutside : ∀ call ∈ s.proc.callsIn b, call ∉ s.proc.callsIn a := fun call inB inA =>
    callsApart inA (by rw [s.proc.callsIn_append]; exact mem_append_left _ inB)
  refine excused root m t b refusal (atRoot.frame lowered.grown outside callsOutside) ?_ lowered.sound failed
  exact (untouched.subset fun id met => mem_append_right _ (mem_append_left _ met)).frame
    lowered.grown atRoot.valid callsOutside

section Refused

variable {lower : NodeId → Step Unit} {id : CallId} {data : Call} {s t : LoweringState} {refusal : Refusal}

theorem lowerTarget_refused (here : s.proc.calls[id]? = some data)
    (failed : lowerTarget lower id s = .error (.refusal refusal) t) :
    ∃ target, data.target.node? = some target ∧ lower target s = .error (.refusal refusal) t := by
  rw [lowerTarget, bind_of_ok (Step.asks (Edit.call_answers here))] at failed
  cases isTarget : data.target.node? with
  | none =>
    simp only [isTarget, pure_error_iff] at failed
  | some target =>
    simp only [isTarget] at failed
    exact ⟨target, rfl, failed⟩

theorem lowerEarly_refused {index : Nat} {arg : Argument} (here : s.proc.calls[id]? = some data)
    (atIndex : data.args.args[index]? = some arg)
    (failed : lowerEarly Transform.identity lower id index s = .error (.refusal refusal) t) :
    ∃ value, arg.early = some value ∧ lower value s = .error (.refusal refusal) t := by
  simp only [lowerEarly, lowerNode, bind_error_iff, lift_step_edit_refused, lift_step_edit_ok_iff, false_or] at failed
  obtain ⟨same, _, ⟨q, found, rfl⟩, failed⟩ := failed
  obtain ⟨data', atCall, atArg, rfl⟩ := Edit.arg_ok found
  cases here.symm.trans atCall
  cases atIndex.symm.trans atArg
  cases hasEarly : arg.early with
  | none =>
    simp only [hasEarly, pure_error_iff] at failed
  | some value =>
    simp only [hasEarly, bind_error_iff, transformed_identity, reduceCtorEq, lift_step_edit_refused,
      and_false, exists_false, or_false] at failed
    exact ⟨value, rfl, failed⟩

end Refused

section Inputs

variable {settings : Settings} {origin : Procedure} {lower : NodeId → Step Unit} {spec : CallSpec}
  {id : CallId} {data now : Call} {s m t : LoweringState} {seen : List NodeId} {refusal : Refusal}

section Inputs

variable (excused : Excused settings origin lower) (opened : Opened settings origin spec id data s.proc seen)
  (sound : s.Sound)

include excused opened sound

theorem target_excused (failed : lowerTarget lower id s = .error (.refusal refusal) t) :
    Warranted settings origin t.proc refusal := by
  obtain ⟨target, isTarget, failed⟩ := lowerTarget_refused opened.holds.here failed
  have forest := opened.holds.forest
  rw [opened.loose.owned, isTarget] at forest
  obtain ⟨trees, behind, rfl, _, atTarget, _⟩ := forest.split _ _
  exact excused target s t behind refusal atTarget
    (opened.untouched.subset fun node met => mem_append_right _ met) sound failed

theorem early_excused (lowers : Lowers lower)
    (targets : lowerTarget lower id s = .ok () m) (here : m.proc.calls[id]? = some now)
    (failed : (List.range now.args.size).forM (lowerEarly Transform.identity lower id) m
      = .error (.refusal refusal) t) : Warranted settings origin t.proc refusal := by
  obtain ⟨trees, behind, behind', copies, rfl, first⟩ := lowerTarget_targeted lowers opened.loose opened.holds
    opened.untouched.fresh sound targets
  cases first.here.symm.trans here
  have untouched := (opened.untouched.subset fun node mem => mem_append_left _ mem).frame
    first.accounted.grown first.before.valid fun call inTrees inTarget => first.callsApart inTrees inTarget
  -- The argument whose tree is refused, and those in front of it, which are lowered.
  obtain ⟨index, u, bound, ran, failed⟩ := forM_range_error failed
  obtain ⟨front, front', copies', fronted⟩ := lowerEarlies_front lowers here trees first.forest first.outside
    untouched.fresh first.accounted.sound index (Nat.le_of_lt bound) ran
  have atIndex := getElem?_eq_getElem (show index < data.args.args.length from bound)
  obtain ⟨tree, inTrees, next⟩ := fronted.upcoming here first.forest first.outside untouched.fresh atIndex
  obtain ⟨value, has, failed⟩ := lowerEarly_refused next.here atIndex failed
  have atTree := next.forest
  rw [has] at atTree
  refine excused value u t tree refusal atTree ?_ fronted.accounted.sound failed
  exact (untouched.subset inTrees).frame fronted.accounted.grown next.before.valid
    fun call inTree inFront => next.callsApart inFront inTree

end Inputs

structure Entered (settings : Settings) (spec : CallSpec) (id : CallId) (data : Call) (s : LoweringState)
    (visited : List NodeId) : Prop where
  loose : data.Loose
  holds : Holds s.proc id data visited
  done : Done s.proc visited
  sound : s.pool.Sound s.proc
  laid : data.args.Laid settings
  listed : ∀ arg ∈ data.args.args, ∀ value, arg.early = some value → s.proc.Listed value
  joined : spec.toCall.Joined spec.toCall.hiddenRoles data

theorem Opened.entered (opened : Opened settings origin spec id data s.proc seen) (lowers : Lowers lower)
    (sound : s.Sound) (targets : lowerTarget lower id s = .ok () m) (here : m.proc.calls[id]? = some now)
    (enters : (List.range now.args.size).forM (lowerEarly Transform.identity lower id) m = .ok () t) :
    ∃ seen', Entered settings spec id data t seen' := by
  obtain ⟨seen', copies, accounted⟩ := inputs_accounted lowers opened.loose opened.holds
    opened.untouched.fresh sound targets here enters
  refine ⟨seen', opened.loose, accounted.holds opened.holds, accounted.done, accounted.sound, opened.laid,
    fun arg mem value has => ?_, opened.joined⟩
  obtain ⟨tree, atTree, _, within⟩ := opened.holds.treeOf mem has
  exact (Procedure.Listed.ofForest atTree fun node met => opened.untouched.filled node (within node met)).kept
    accounted.grown

end Inputs

section Passes

variable {settings : Settings} {spec : CallSpec} {id : CallId} {data : Call} {s t : LoweringState}
  {m p q r : Procedure} {order : List Nat} {seen : List NodeId} {refusal : Refusal}

theorem Entered.analysis_unfit (entered : Entered settings spec id data s seen)
    (shapes : Shape.shapeArgs settings id s = .ok () t)
    (failed : Interference.complete settings id t.proc = .error (.refusal refusal) q) :
    spec.toCall.Unfit settings id refusal := by
  obtain ⟨seen', args, copies, ready⟩ := Shape.shapeArgs_ready entered.loose
    entered.holds entered.sound shapes
  obtain ⟨guarded, noThis, rfl⟩ := Interference.complete_refused ready.passage.holds.here entered.loose.stage
    failed
  have sameGuard : Interference.isGuarded settings spec.toCall = true := by
    simpa [Interference.isGuarded, Call.dispatchesOnThis, Call.withArgs, entered.joined.flags] using guarded
  have noThisBefore : data.args.thisIndex = none := by
    rw [ArgList.thisIndex_none_iff] at noThis ⊢
    intro arg mem isThis
    obtain ⟨index, bound, rfl⟩ := getElem_of_mem mem
    have inArgs : index < args.length := ready.sameLength ▸ bound
    have kept := ready.kept index _ _ (getElem?_eq_getElem bound) (getElem?_eq_getElem inArgs)
    exact noThis _ (getElem_mem inArgs) (kept.role.trans isThis)
  exact .dispatchWithoutThis sameGuard (entered.joined.noThis noThisBefore)

variable {cost : CostModel} (entered : Entered settings spec id data s seen)
  (shapes : Shape.shapeArgs settings id s = .ok () t)
  (completes : Interference.complete settings id t.proc = .ok () m)
  (schedules : Schedule.schedule cost id m = .ok order q)

include entered shapes completes schedules

theorem Entered.settling_unmovable
    (failed : Materialize.materialize settings id order q = .error (.refusal refusal) r) :
    ∃ now, r.calls[id]? = some now ∧ now.Unmovable r id refusal := by
  obtain ⟨seen', args, copies, data', _, plan, completed, _⟩ := shaped_planned entered.loose
    entered.holds entered.done entered.sound shapes completes schedules
  refine Materialize.materialize_refused plan.passage.holds.here completed (fun arg mem => ?_) failed
  obtain ⟨value, _, has, _⟩ := (plan.arranged arg mem).tree
  simp [Argument.value, has]

theorem Entered.check_unrefused (settles : Materialize.materialize settings id order q = .ok () r) :
    checkCall settings id r ≠ .error (.refusal refusal) p := by
  obtain ⟨data', settled⟩ := settled entered.loose entered.holds entered.done entered.sound
    (fun _ : True => entered.laid) (fun _ => entered.listed) shapes completes schedules settles
  exact checkCall_unrefused settled.here settled.materialized (settled.verified trivial)

end Passes

section Shipped

variable (shipped : settings.target = Target.ofTriple triple)
  (declared : ∀ layout ∈ settings.types.layouts, layout.Natural)

include shipped declared

theorem lowerCall_excused (lowers : Lowers lower) (excused : Excused settings origin lower)
    (atOrigin : origin.calls[id]? = some spec.toCall) (admissible : spec.toCall.Admissible settings)
    (holds : Holds s.proc id spec.toCall seen) (untouched : Untouched settings origin s.proc seen)
    (sound : s.Sound) (failed : lowerCall settings Transform.identity lower id s = .error (.refusal refusal) t) :
    Warranted settings origin t.proc refusal := by
  rw [lowerCall, bind_of_ok (Step.asks (Edit.call_answers holds.here)),
    if_neg (by simp [spec.toCall_fresh.stage, Stage.isCompleted])] at failed
  simp only [bind_error_iff, lift_attempt_error_iff, lift_attempt_ok_iff, lift_step_edit_refused,
    lift_step_edit_ok_iff, Schedule.schedule_refused, false_and, exists_false, false_or] at failed
  rcases failed with ⟨q, failed, rfl⟩ | ⟨_, _, ⟨finalized, finalizes, rfl⟩, failed⟩
  · exact .unfit id _ atOrigin (AbiInfo.finalize_refused shipped holds.here spec.toCall_fresh failed)
  obtain ⟨data, seen', opened, grown⟩ := finalize_opened shipped declared admissible holds untouched
    finalizes
  have sound : s.pool.Sound finalized := sound.kept grown
  rcases failed with failed | ⟨_, targeted, targets, now, _, ⟨q, found', rfl⟩, failed⟩
  · exact target_excused (s := { s with proc := finalized }) excused opened sound failed
  obtain ⟨here, rfl⟩ := Edit.call_ok found'
  rcases failed with failed | ⟨_, mem, enters, failed⟩
  · exact early_excused (s := { s with proc := finalized }) excused opened sound lowers targets here failed
  obtain ⟨seen'', entered⟩ := Opened.entered (s := { s with proc := finalized }) opened lowers sound
    targets here enters
  rcases failed with failed | ⟨_, shaped, shapes, failed⟩
  · exact (Shape.shapeArgs_unrefused failed).elim
  rcases failed with ⟨q, failed, rfl⟩ | ⟨_, _, ⟨completed, completes, rfl⟩, order, _,
    ⟨scheduled, schedules, rfl⟩, failed⟩
  · exact .unfit id _ atOrigin (entered.analysis_unfit shapes failed)
  rcases failed with ⟨q, failed, rfl⟩ | ⟨_, _, ⟨settled, settles, rfl⟩, q, failed, rfl⟩
  · obtain ⟨now, here, unmovable⟩ := entered.settling_unmovable shapes completes schedules failed
    exact .unmovable id now here unmovable
  · exact (entered.check_unrefused shapes completes schedules settles failed).elim

theorem overTree_excused (lowers : Lowers lower) (excused : Excused settings origin lower) (length : Nat) :
    Excused settings origin (overTree (visitCall settings Transform.identity lower) length) := by
  induction length with
  | zero =>
    intro id s t seen refusal _ _ _ failed
    cases failed
  | succ length ih =>
    intro id s t seen refusal forest untouched sound failed
    obtain ⟨below, rfl, under, _, callOutside⟩ := forest.atRoot
    obtain ⟨node, atId⟩ := forest.root_node
    have here := s.proc.kindAt_of atId rfl
    have untouchedBelow := untouched.subset fun other mem => mem_append_left [id] mem
    cases isCall : node.kind.call? with
    | none =>
      rw [overTree_plain atId isCall] at failed
      simp only [bind_error_iff, lift_step_edit_refused, and_false, exists_false, or_false] at failed
      rw [s.proc.owned_of_kind here isCall] at under
      exact ih.each (overTree_lowers settings lowers length) under untouchedBelow sound failed
    | some call =>
      have named : s.proc.callAt id = some call := (s.proc.callAt_eq here).trans isCall
      have here := s.proc.callAt_some_iff.mp named
      obtain ⟨spec, atOrigin, atCall, admissible⟩ :=
        untouched.calls call (mem_filterMap.mpr ⟨id, by simp, named⟩)
      rw [overTree_call atId isCall] at failed
      simp only [bind_error_iff, lift_step_edit_refused, and_false, exists_false, or_false] at failed
      rw [visitCall_eq_with, visitCallWith_open atCall
        (by simp [ArgList.isMaterialized, spec.toCall_fresh.stage]), ← lowerCall_eq_with] at failed
      obtain ⟨u, refuses, rfl⟩ := Step.inScope_error failed
      rw [s.proc.owned_of_call here atCall] at under
      change Warranted settings origin u.proc refusal
      exact lowerCall_excused (s := s.opened) shipped declared lowers excused atOrigin
        admissible ⟨atCall, under, callOutside call named⟩ untouchedBelow
        (CopyPool.openScope_sound sound) refuses

theorem lowerTree_excused (origin : Procedure) {depth : Nat} :
    Excused settings origin (lowerTree settings Transform.identity depth) := by
  induction depth with
  | zero =>
    intro id s t seen refusal _ _ _ failed
    cases failed
  | succ depth ih =>
    exact fun id s => overTree_excused shipped declared (lowerTree_lowers settings depth) ih
      (s.proc.nodes.size + 2) id s

end Shipped

theorem lower_refused {transform : Transform} {outcome : Outcome}
    (done : proc.lower settings transform = .ok outcome) (refused : outcome.refusal = some refusal) :
    ∃ t, lowerStatements settings transform { proc } = .error (.refusal refusal) t
      ∧ t.proc = outcome.proc := by
  unfold Procedure.lower at done
  cases ran : lowerStatements settings transform { proc } with
  | ok _ t =>
    simp only [ran] at done
    cases done
    cases refused
  | error stop t =>
    simp only [ran] at done
    cases stop with
    | refusal reason =>
      cases done
      cases refused
      exact ⟨t, rfl, rfl⟩
    | fault fault => cases done

end Lowering

-- A procedure in which no field list is empty, and each call can be laid out.
structure Procedure.Admissible (settings : Settings) (proc : Procedure) : Prop where
  filled : ∀ node ∈ proc.nodes, node.kind ≠ .fieldList []
  calls : ∀ data ∈ proc.calls, data.Admissible settings

instance (settings : Settings) (proc : Procedure) : Decidable (proc.Admissible settings) :=
  decidable_of_iff ((∀ node ∈ proc.nodes, node.kind ≠ .fieldList [])
      ∧ ∀ data ∈ proc.calls, data.Admissible settings)
    ⟨fun both => ⟨both.1, both.2⟩, fun admissible => ⟨admissible.filled, admissible.calls⟩⟩

theorem Procedure.AsBuilt.untouched (built : proc.AsBuilt)
    (admissible : proc.Admissible settings) (seen : List NodeId) :
    Untouched settings proc proc seen where
  calls := fun call named => by
    obtain ⟨id, _, isCall⟩ := mem_filterMap.mp named
    have here := Array.getElem?_eq_getElem (built.namedCalls id call isCall)
    obtain ⟨spec, made⟩ := built.calls call _ here
    exact ⟨spec, made ▸ here, made ▸ here, made ▸ admissible.calls _ (Array.getElem_mem _)⟩
  filled := fun id _ empty => by
    obtain ⟨node, here, isEmpty⟩ := proc.kindAt_some_iff.mp empty
    exact admissible.filled node (Array.mem_of_getElem? here) isEmpty

namespace Lowering

-- No check of a lowered call fails, and no pass finds what it should not: a refusal has its reason in
-- the call that was refused.
theorem refusals_warranted (settings : Settings) (triple : Triple) (name : String)
    (body : List Instruction) (made : List Made) (proc : Procedure) (before : List NodeId)
    (outcome : Outcome) (refusal : Refusal) (shipped : settings.target = Target.ofTriple triple)
    (declared : ∀ layout ∈ settings.types.layouts, layout.Natural)
    (builds : Procedure.build name body = .ok (made, proc)) (unshared : proc.Unshared before)
    (admissible : proc.Admissible settings)
    (done : proc.lower settings Transform.identity = .ok outcome)
    (refused : outcome.refusal = some refusal) :
    Warranted settings proc outcome.proc refusal
      ∧ ∀ call report, refusal ≠ .failedCheck call report := by
  have built := (Built.body builds).asBuilt
  obtain ⟨t, failed, same⟩ := lower_refused done refused
  simp only [lowerStatements, bind_error_iff, get_error_iff, get_ok_iff, false_or] at failed
  obtain ⟨_, _, ⟨rfl, rfl⟩, failed⟩ := failed
  have warranted : Warranted settings proc t.proc refusal :=
    (lowerTree_excused shipped declared proc).each (s := { proc }) (lowerTree_lowers settings _)
      (built.forest unshared) (built.untouched admissible before) (CopyPool.empty_sound proc) failed
  rw [same] at warranted
  refine ⟨warranted, fun call report isCheck => ?_⟩
  subst isCheck
  cases warranted with
  | unfit id data here unfit => cases unfit
  | unmovable id data here unmovable => cases unmovable

-- A store among the arguments, a pair, and a call that takes the pair too.
def storePairAndCall : List Instruction :=
  [.declare (.struct 0), .declare .i32, .intConst 7 .i32, .storeLocal 1 0, .readLocal 0, .readLocal 0,
    .call { target := .method "inner", returnType := .i32, args := [(3, .struct 0)] },
    .call { target := .method "outer", args := [(1, .i32), (2, .struct 0), (4, .i32)] }, .statement 5]

def pairSettings : Settings where
  target := Target.ofTriple ⟨.x64, .linux⟩
  types := { layouts := #[⟨"Pair", 16, [⟨0, .i64⟩, ⟨8, .i64⟩]⟩] }

-- The store would have to move to a temp, and yields nothing.
theorem void_store_refused :
    ∃ made proc outcome, Procedure.build "caller" storePairAndCall = .ok (made, proc)
      ∧ proc.Unshared [0, 1, 2, 3, 4, 5] ∧ proc.Admissible pairSettings
      ∧ proc.lower pairSettings Transform.identity = .ok outcome
      ∧ outcome.refusal = some (.inconsistent 1 (.noValue 0))
      ∧ Warranted pairSettings proc outcome.proc (.inconsistent 1 (.noValue 0)) := by
  obtain ⟨made, proc, outcome, builds, ⟨span, admissible⟩, done, refused⟩ := lowered_of_check
    storePairAndCall pairSettings
    (fun proc => proc.unshared? = some [0, 1, 2, 3, 4, 5] ∧ proc.Admissible pairSettings)
    (fun outcome => outcome.refusal = some (.inconsistent 1 (.noValue 0))) (by decide +kernel)
  have unshared := proc.unshared?_sound span
  have declared : ∀ layout ∈ pairSettings.types.layouts, layout.Natural := by
    intro layout inside
    obtain rfl : layout = ⟨"Pair", 16, [⟨0, .i64⟩, ⟨8, .i64⟩]⟩ := by simpa [pairSettings] using inside
    exact ⟨"Pair", [.i64, .i64], 8, rfl⟩
  exact ⟨made, proc, outcome, builds, unshared, admissible, done, refused,
    (refusals_warranted _ ⟨.x64, .linux⟩ _ _ made proc _ outcome _ rfl declared builds unshared admissible
      done refused).1⟩

end Lowering

end CallLowering
