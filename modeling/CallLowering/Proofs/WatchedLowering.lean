import CallLowering.Proofs.Accuracy
import CallLowering.Proofs.SideBySide

/-!
Lowering under watch. Somebody looks at the procedure each time the arguments of a call are about to be
analysed.
-/

namespace CallLowering

variable {proc after : Procedure} {seen : List NodeId} {id : CallId} {data : Call}

-- Everything under the arguments of a call can be walked, and its cached impacts are accurate.
def Procedure.ArgumentsAccurate (proc : Procedure) (id : CallId) : Prop :=
  ∃ data, proc.calls[id]? = some data ∧ ∀ arg ∈ data.args.args, ∀ root,
    arg.early = some root ∨ arg.late = some root →
    ∃ visited, proc.walk root = .ok visited ∧ ∀ node ∈ visited, proc.Accurate node

theorem Holds.argumentsAccurate (holds : Holds proc id data seen)
    (done : Done proc seen) (isOpen : data.args.isMaterialized = false) : proc.ArgumentsAccurate id := by
  refine ⟨data, holds.here, fun arg mem root isRoot => ?_⟩
  obtain ⟨part, covered, _⟩ := holds.argumentCovered done isOpen mem isRoot
  exact ⟨part, covered.walk, covered.accurate⟩

namespace Lowering

-- The second half of the first visit of a call, with a look at the procedure before the analysis.
def finishWatched (watch : CallId → Attempt Unit) (settings : Settings) (id : CallId) : Step Unit := do
  Shape.shapeArgs settings id
  watch id
  Interference.complete settings id
  let order ← Schedule.schedule (Schedule.costModel settings) id
  Materialize.materialize settings id order
  checkCall settings id

end Lowering

open Lowering in
def Procedure.lowerWatched (proc : Procedure) (watch : CallId → Attempt Unit) (settings : Settings) :
    Except Fault Outcome :=
  ending (proc.statements.forM (lowerTreeWith settings (finishWatched watch settings) (depthLimit proc))
    { proc })

namespace Lowering

def Content (watch : CallId → Attempt Unit) : Prop :=
  ∀ id proc, proc.ArgumentsAccurate id → watch id proc = .ok () proc

theorem finishWatched_same {watch : CallId → Attempt Unit} (content : Content watch) (settings : Settings)
    {s : LoweringState} (loose : data.Loose) (holds : Holds s.proc id data seen) (done : Done s.proc seen)
    (sound : s.Sound) : finishWatched watch settings id s = finishCall settings id s := by
  refine bind_next fun _ t shapes => ?_
  obtain ⟨seen', args, copies, ready⟩ := Shape.shapeArgs_ready loose holds
    sound shapes
  have accurate := ready.passage.holds.argumentsAccurate (ready.passage.done done) loose.isOpen
  have watched : (liftM (watch id) : Step Unit) t = .ok () t :=
    lift_attempt_ok_iff.mpr ⟨t.proc, content id t.proc accurate, rfl⟩
  exact bind_of_ok watched

theorem eq_of_alike {r r' : EStateM.Result Stop LoweringState Unit}
    (alike : Alike (fun _ t _ t' => t = t') (fun e t e' t' => e = e' ∧ t = t') r r') : r = r' := by
  cases r <;> cases r'
  · exact congrArg _ alike
  · exact False.elim alike
  · exact False.elim alike
  · obtain ⟨rfl, rfl⟩ := alike
    rfl

def watching (watch : CallId → Attempt Unit) (content : Content watch) (settings : Settings) :
    Abreast settings settings (finishWatched watch settings) :=
  .unmoved settings _ (fun e t e' t' => e = e' ∧ t = t') (fun _ _ => ⟨rfl, rfl⟩)
    (fun _ _ _ _ same => ⟨same.1, by rw [same.2]⟩)
    fun s id data visited loose holds done sound => by
      rw [finishWatched_same content settings loose holds done sound]
      exact (Alike.self (fun _ _ => ⟨rfl, rfl⟩)).mono fun _ _ _ _ _ _ same => same.2

theorem lowerWatched_built (watch : CallId → Attempt Unit) (content : Content watch) (settings : Settings)
    (built : proc.AsBuilt) (unshared : proc.Unshared seen) :
    proc.lowerWatched watch settings = proc.lower settings Transform.identity := by
  rw [lower_eq_ending]
  have alike := (watching watch content settings).statements () (built.forest unshared) (built.fresh seen)
    (fun _ _ => trivial) rfl
  exact congrArg ending (eq_of_alike alike).symm

def Finished (proc : Procedure) : Prop :=
  ∃ visited, Forest proc proc.statements visited ∧ Done proc visited

theorem lowerWatched_finished (watch : CallId → Attempt Unit) (settings : Settings) (finished : Finished proc) :
    proc.lowerWatched watch settings = proc.lower settings Transform.identity := by
  obtain ⟨seen, forest, done⟩ := finished
  have idle := Idle.forM (lowerTreeWith_idle settings settings (finishWatched watch settings)
    (finishCall settings) forest done)
  obtain ⟨t, ran, ran', _⟩ := idle { proc } rfl
  rw [lower_eq_ending, lowerTree_eq_with, ran', Procedure.lowerWatched, ran]

def RunsTo (p q : Procedure) : Prop :=
  ∃ settings outcome, p.lower settings Transform.identity = .ok outcome ∧ outcome.refusal = none
    ∧ outcome.proc = q

theorem Success.finished {seen' : List NodeId} {copies : List LocalId}
    (success : Success proc after seen seen' copies) : Finished after := by
  have reworked := success.reworked
  exact ⟨seen', reworked.grown.statements ▸ reworked.forest, reworked.done⟩

theorem Finished.stays {p q : Procedure} (finished : Finished p)
    (runs : Relation.ReflTransGen RunsTo p q) : q = p := by
  induction runs with
  | refl => rfl
  | tail _ last ih =>
    subst ih
    obtain ⟨settings, outcome, done, _, rfl⟩ := last
    obtain ⟨seen, forest, upToDate⟩ := finished
    obtain ⟨visits, again⟩ := lowered_twice settings forest upToDate
    cases done.symm.trans again
    rfl

theorem runs_cases {name : String} {body : List Instruction} {made : List Made}
    (builds : Procedure.build name body = .ok (made, proc)) (unshared : proc.Unshared seen)
    (runs : Relation.ReflTransGen RunsTo proc after) : after = proc ∨ Finished after := by
  rcases runs.cases_head with rfl | ⟨first, ⟨settings, outcome, done, unrefused, rfl⟩, rest⟩
  · exact .inl rfl
  · obtain ⟨_, _, success⟩ :=
      lower_succeeds builds unshared done unrefused
    exact .inr (success.finished.stays rest ▸ success.finished)

theorem cached_impacts_accurate (name : String) (body : List Instruction) (made : List Made)
    (proc after : Procedure) (before : List NodeId) (builds : Procedure.build name body = .ok (made, proc))
    (unshared : proc.Unshared before) (runs : Relation.ReflTransGen RunsTo proc after) :
    (∃ visited, after.walkAll = .ok visited ∧ ∀ id ∈ visited, after.Accurate id)
      ∧ ∀ (settings : Settings) (watch : CallId → Attempt Unit), Content watch →
        after.lowerWatched watch settings = after.lower settings Transform.identity := by
  have built := Built.body builds
  rcases runs_cases builds unshared runs with rfl | finished
  · obtain ⟨visited, covered, _⟩ := unshared.covered built
    obtain ⟨parts, walked, rfl⟩ := covered.walks
    refine ⟨⟨parts.flatten, ?_, covered.accurate⟩, fun settings watch content =>
      lowerWatched_built watch content settings built.asBuilt unshared⟩
    exact except_bind_ok_iff.mpr ⟨parts, walked, rfl⟩
  · have watched := fun settings watch => lowerWatched_finished watch settings finished
    obtain ⟨visited, forest, done⟩ := finished
    exact ⟨⟨visited, done.walkAll forest, (done.covered forest).accurate⟩, fun settings watch _ =>
      watched settings watch⟩

open Classical in
-- Stops the lowering where an impact is wrong.
noncomputable def inspector (id : CallId) : Attempt Unit := fun proc =>
  if proc.ArgumentsAccurate id then .ok () proc else .error (.fault .tooDeep) proc

-- The analyses of three calls pass the inspection, and all impacts are accurate afterwards.
theorem nested_calls_inspected :
    ∃ made proc outcome after, Procedure.build "caller" callThroughCall = .ok (made, proc)
      ∧ proc.lowerWatched inspector { target := Target.ofTriple ⟨.x64, .linux⟩ } = .ok outcome
      ∧ outcome.refusal = none ∧ outcome.proc.walkAll = .ok after
      ∧ (outcome.proc.callsIn after).length = 3 ∧ ∀ id ∈ after, outcome.proc.Accurate id := by
  obtain ⟨made, proc, outcome, builds, span, done, unrefused, walks⟩ := lowered_of_check callThroughCall
    { target := Target.ofTriple ⟨.x64, .linux⟩ } (fun proc => proc.unshared? = some [4, 0, 1, 2, 3, 5, 6])
    (fun outcome => outcome.refusal = none
      ∧ outcome.proc.walkAll.toOption.any fun after => (outcome.proc.callsIn after).length == 3)
    (by decide +kernel)
  have unshared := proc.unshared?_sound span
  obtain ⟨_, watched⟩ := cached_impacts_accurate _ _ made proc proc _ builds unshared .refl
  obtain ⟨⟨after, walked, accurate⟩, _⟩ := cached_impacts_accurate _ _ made proc outcome.proc _ builds
    unshared (.single ⟨_, outcome, done, unrefused, rfl⟩)
  have content : Content inspector := fun id proc accurate => if_pos accurate
  simp only [walked, Except.toOption, Option.any_some, beq_iff_eq] at walks
  exact ⟨made, proc, outcome, after, builds, (watched _ inspector content).trans done, unrefused, walked,
    walks, accurate⟩

end Lowering

end CallLowering
