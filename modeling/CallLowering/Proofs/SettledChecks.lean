import CallLowering.Proofs.SideBySide
import CallLowering.Proofs.VerifiedLists
import CallLowering.Proofs.VerifierExact

/-! What the checks can still find once the arguments of a call are settled. -/

namespace CallLowering

def NodeKind.isEmptyList : NodeKind → Bool
  | .fieldList [] => true
  | _ => false

theorem NodeKind.isEmptyList_iff {kind : NodeKind} : kind.isEmptyList = true ↔ kind = .fieldList [] := by
  cases kind with
  | fieldList uses => cases uses <;> simp [isEmptyList]
  | _ => simp [isEmptyList]

namespace Verifier

-- Whether an empty list stands where the temp of an argument should be read.
def readsNothing (proc : Procedure) (arg : Argument) : Except Fault Bool :=
  match arg.flags.isTemp, arg.late with
  | true, some late => do pure (← proc.node late).kind.isEmptyList
  | _, _ => pure false

def settledVerdict (config : CheckConfig) (proc : Procedure) (list : ArgList) : Except Fault Bool := do
  let shapes ← perArgument (shape proc) list.args
  let placed ← (if config.checksPlacements then placements list else .ok [])
  let empty ← (if config.checksTemps then list.args.mapM (readsNothing proc) else .ok [])
  pure (shapes.isEmpty && placed.isEmpty && empty.all fun reads => !reads)

section Temps

variable {proc : Procedure} {arg : Argument} {full : Prop}

variable (finished : arg.Finished full proc)
  (done : ∀ root, arg.early = some root ∨ arg.late = some root → ∀ part, Forest proc [root] part → Done proc part)

include finished done

theorem readsNothing_exact : ∃ answer, readsNothing proc arg = .ok answer ∧ (answer = false ↔ arg.TempUsed proc) := by
  rw [finished.tempUsed_iff done]
  unfold readsNothing
  cases isTemp : arg.flags.isTemp with
  | false => exact ⟨false, rfl, by simp⟩
  | true =>
    obtain ⟨_, _, late, _, _, isLate, _, part, atPart, _⟩ := finished.temp isTemp
    have here := Array.getElem?_eq_getElem (atPart.valid late (Spans.root_mem atPart.spans (by simp)))
    simp only [isLate, proc.node_ok_iff.mpr here]
    refine ⟨_, rfl, ?_⟩
    rw [← Bool.not_eq_true, NodeKind.isEmptyList_iff]
    simp only [true_implies, Option.some.injEq, forall_eq', Procedure.kindAt, here, Option.map_some, ne_eq]

theorem temps_exact : ∃ found, temps proc arg = .ok found ∧ (found = [] ↔ arg.TempUsed proc) := by
  have succeeds : ∃ found, temps proc arg = .ok found := by
    by_cases isTemp : arg.flags.isTemp = true
    · obtain ⟨_, early, late, _, isEarly, isLate, ⟨part, atPart, _⟩, part', atPart', _⟩ := finished.temp isTemp
      refine temps_succeeds fun id isNode => ?_
      rcases isNode with same | same
      · cases isEarly.symm.trans same
        exact ⟨part, (done early (.inl isEarly) part atPart).walk atPart⟩
      · cases isLate.symm.trans same
        exact ⟨part', (done late (.inr isLate) part' atPart').walk atPart'⟩
    · exact ⟨[], if_pos (by simpa using isTemp)⟩
  obtain ⟨found, answered⟩ := succeeds
  exact ⟨found, answered, temps_clean proc arg found answered⟩

end Temps

theorem mapM_answers {α : Type} {f : α → Except Fault Bool} (holds : α → Prop) {items : List α}
    (each : ∀ item ∈ items, ∃ answer, f item = .ok answer ∧ (answer = false ↔ holds item)) :
    ∃ answers, items.mapM f = .ok answers
      ∧ ((answers.all fun answer => !answer) = true ↔ ∀ item ∈ items, holds item) := by
  induction items with
  | nil => exact ⟨[], rfl, by simp⟩
  | cons item rest ih =>
    obtain ⟨here, later⟩ := List.forall_mem_cons.mp each
    obtain ⟨answer, found, isExact⟩ := here
    obtain ⟨answers, others, areExact⟩ := ih later
    refine ⟨answer :: answers, ?_, ?_⟩
    · rw [List.mapM_cons, found, others]
      rfl
    · rw [List.all_cons, Bool.and_eq_true, Bool.not_eq_true', isExact, areExact, List.forall_mem_cons]

end Verifier

namespace Lowering

open Verifier

variable {settings : Settings} {full : Prop} {id : CallId} {data : Call} {p q : Procedure}

theorem Settled.findings_iff (settled : Settled settings full id data p) (config : CheckConfig) :
    findings config p data.args = .ok [] ↔ settledVerdict config p data.args = .ok true := by
  obtain ⟨found, tested⟩ := perArgument_succeeds (temps p) fun arg mem => by
    obtain ⟨found, answered, _⟩ := temps_exact (settled.finished arg mem) (settled.under arg mem)
    exact ⟨found, answered⟩
  have used := perArgument_clean (temps_clean p) tested
  obtain ⟨answers, answered, unused⟩ := mapM_answers (Argument.TempUsed p)
    fun arg mem => readsNothing_exact (settled.finished arg mem) (settled.under arg mem)
  have ordered : (if config.checksLateOrder = true then lateOrder data.args else []) = [] := by
    rw [lateOrder_clean.mpr settled.ordered, ite_self]
  constructor
  · intro clean
    obtain ⟨shapes, placed, temporary, shaped, checked, temporaries, none⟩ :=
      (findings_ok_iff settled.materialized).mp clean
    obtain ⟨⟨⟨noShape, _⟩, noPlacement⟩, noTemp⟩ := by
      simpa only [List.append_eq_nil_iff] using none
    subst noShape noPlacement noTemp
    refine except_bind_ok_iff.mpr ⟨[], shaped, ?_⟩
    refine except_bind_ok_iff.mpr ⟨[], checked, ?_⟩
    by_cases on : config.checksTemps = true
    · rw [if_pos on] at temporaries ⊢
      cases tested.symm.trans temporaries
      refine except_bind_ok_iff.mpr ⟨answers, answered, ?_⟩
      rw [unused.mpr (used.mp rfl)]
      rfl
    · rw [if_neg on]
      rfl
  · intro good
    obtain ⟨shapes, shaped, good⟩ := except_bind_ok_iff.mp good
    obtain ⟨placed, checked, good⟩ := except_bind_ok_iff.mp good
    obtain ⟨empty, read, good⟩ := except_bind_ok_iff.mp good
    simp only [except_pure_ok_iff, Bool.and_eq_true, List.isEmpty_iff] at good
    obtain ⟨⟨rfl, rfl⟩, nonempty⟩ := good
    have clean : (if config.checksTemps = true then perArgument (temps p) data.args.args else .ok []) = .ok [] := by
      by_cases on : config.checksTemps = true
      · rw [if_pos on] at read ⊢
        cases answered.symm.trans read
        rw [tested, used.mpr (unused.mp nonempty)]
      · rw [if_neg on]
    exact (findings_ok_iff settled.materialized).mpr ⟨[], [], [], shaped, checked, clean, by rw [ordered]; rfl⟩

theorem checkCall_ok_iff (here : p.calls[id]? = some data) :
    checkCall settings id p = .ok () q
      ↔ q = p ∧ findings (CheckConfig.ofLevel settings.options.checkLevel) p data.args = .ok [] := by
  simp only [checkCall, bind_ok_iff, lift_edit_ok_iff, ask_ok_iff]
  constructor
  · intro checked
    obtain ⟨report, _, ⟨verified, rfl⟩, checked⟩ := checked
    obtain ⟨found, searched, isGood⟩ := Procedure.verifyCall_isOk _ here verified
    by_cases good : report.isOk = true
    · rw [if_neg (by simp [good])] at checked
      obtain ⟨_, rfl⟩ := pure_ok_iff.mp checked
      exact ⟨rfl, isGood.mp good ▸ searched⟩
    · rw [if_pos (by simp [good])] at checked
      cases checked
  · intro clean
    obtain ⟨rfl, clean⟩ := clean
    generalize CheckConfig.ofLevel settings.options.checkLevel = config at clean ⊢
    obtain ⟨report, verified⟩ : ∃ report, q.verifyCall config id = .ok report :=
      ⟨{}, except_bind_ok_iff.mpr ⟨data, q.call_ok_iff.mpr here, except_bind_ok_iff.mpr ⟨[], clean, rfl⟩⟩⟩
    obtain ⟨found, searched, isGood⟩ := Procedure.verifyCall_isOk _ here verified
    cases clean.symm.trans searched
    refine ⟨report, q, ⟨verified, rfl⟩, ?_⟩
    rw [if_neg (by simp [isGood.mpr rfl])]
    rfl

def checkSettled (settings : Settings) (id : CallId) : Attempt Unit := do
  let config := CheckConfig.ofLevel settings.options.checkLevel
  let good ← Edit.ask fun proc => do settledVerdict config proc (← proc.call id).args
  if !good then throw (.refusal (.failedCheck id {}))

theorem checkSettled_ok_iff (here : p.calls[id]? = some data) :
    checkSettled settings id p = .ok () q
      ↔ q = p ∧ settledVerdict (CheckConfig.ofLevel settings.options.checkLevel) p data.args = .ok true := by
  simp only [checkSettled, bind_ok_iff, lift_edit_ok_iff, ask_ok_iff, p.call_ok_iff.mpr here]
  constructor
  · intro checked
    obtain ⟨good, _, ⟨verified, rfl⟩, checked⟩ := checked
    cases good with
    | true =>
      obtain ⟨_, rfl⟩ := pure_ok_iff.mp checked
      exact ⟨rfl, verified⟩
    | false => cases checked
  · intro good
    obtain ⟨rfl, good⟩ := good
    exact ⟨true, q, ⟨good, rfl⟩, rfl⟩

theorem Settled.check_iff (settled : Settled settings full id data p) :
    checkCall settings id p = .ok () q ↔ checkSettled settings id p = .ok () q := by
  rw [checkCall_ok_iff settled.here, checkSettled_ok_iff settled.here, settled.findings_iff]

-- The second half of the first visit of a call, with the check of settled arguments at its end.
def finishSettled (settings : Settings) (id : CallId) : Step Unit := do
  Shape.shapeArgs settings id
  Interference.complete settings id
  let order ← Schedule.schedule (Schedule.costModel settings) id
  Materialize.materialize settings id order
  checkSettled settings id

theorem finishSettled_alike (settings : Settings) (s : LoweringState) (id : CallId) (data : Call)
    (seen : List NodeId) (loose : data.Loose) (holds : Holds s.proc id data seen)
    (done : Done s.proc seen) (sound : s.Sound) :
    Alike (fun _ t _ t' => t = t') (fun _ _ _ _ => True) (finishCall settings id s)
      (finishSettled settings id s) := by
  have refl : ∀ (_ : Stop) (_ : LoweringState), True := fun _ _ => trivial
  refine Alike.bind (Alike.self refl) fun _ t _ _ shapes _ same => ?_
  obtain ⟨rfl, rfl⟩ := same
  refine Alike.bind (Alike.self refl) fun _ u _ _ complete _ same => ?_
  obtain ⟨rfl, rfl⟩ := same
  refine Alike.bind (Alike.self refl) fun order v _ _ schedule _ same => ?_
  obtain ⟨rfl, rfl⟩ := same
  refine Alike.bind (Alike.self refl) fun _ w _ _ settle _ same => ?_
  obtain ⟨rfl, rfl⟩ := same
  obtain ⟨m, completes, rfl⟩ := lift_attempt_ok_iff.mp complete
  obtain ⟨q, schedules, rfl⟩ := lift_attempt_ok_iff.mp schedule
  obtain ⟨r, settles, rfl⟩ := lift_attempt_ok_iff.mp settle
  obtain ⟨data', settled⟩ := settled loose holds done sound (fun no : False => no.elim) (fun no => no.elim)
    shapes completes schedules settles
  refine Alike.ofIff ?_ ?_
  · simp only [lift_attempt_ok_iff, settled.check_iff]
  · intro _ t _ t' check check'
    obtain ⟨_, checked, rfl⟩ := lift_attempt_ok_iff.mp check
    obtain ⟨_, checked', rfl⟩ := lift_attempt_ok_iff.mp check'
    rw [((checkCall_ok_iff settled.here).mp checked).1, ((checkSettled_ok_iff settled.here).mp checked').1]

end Lowering

end CallLowering
