import CallLowering.Lowering.Step
import Mathlib.Data.List.Forall2

/-!
Runs taken apart. A composed step that ended well is a chain of parts that ended well; one that
failed did so in its first part, or in the second after the first ended well.
-/

namespace CallLowering

open List

variable {call : CallId} {reason : Inconsistency} {s t : LoweringState} {a : PUnit} {p q : Procedure}

namespace LoweringState

abbrev opened (s : LoweringState) : LoweringState := { s with pool := s.pool.openScope }

abbrev closed (s : LoweringState) : LoweringState := { s with pool := s.pool.closeScope }

end LoweringState

section Steps

variable {ε σ α β : Type} {x : EStateM ε σ α} {f : α → EStateM ε σ β} {s t : σ} {a : α} {b : β} {e : ε}
  {items : List α} {index : Nat} {item : α}

theorem lt_size {items : Array α} (here : items[index]? = some item) : index < items.size :=
  (Array.getElem?_eq_some_iff.mp here).1

theorem lt_length (here : items[index]? = some item) : index < items.length :=
  (List.getElem?_eq_some_iff.mp here).1

def endOf : EStateM.Result ε σ α → σ
  | .ok _ state => state
  | .error _ state => state

def answerOf : EStateM.Result ε σ α → Option α
  | .ok answer _ => some answer
  | .error _ _ => none

theorem ok_of_answerOf (result : EStateM.Result ε σ α) (answer : α)
    (found : answerOf result = some answer) : result = .ok answer (endOf result) := by
  cases result with
  | ok other state =>
    cases found
    rfl
  | error stop state => cases found

def stopOf : EStateM.Result ε σ α → Option ε
  | .ok _ _ => none
  | .error stop _ => some stop

theorem error_of_stopOf {result : EStateM.Result ε σ α} {stop : ε} (found : stopOf result = some stop) :
    result = .error stop (endOf result) := by
  cases result with
  | ok answer state => cases found
  | error other state =>
    cases found
    rfl

theorem bind_ok_iff : (x >>= f) s = .ok b t ↔ ∃ a m, x s = .ok a m ∧ f a m = .ok b t := by
  change EStateM.bind x f s = _ ↔ _
  unfold EStateM.bind
  cases x s with
  | ok a m => simp [and_assoc]
  | error e m => simp

theorem bind_of_ok (first : x s = .ok a t) : (x >>= f) s = f a t := by
  change EStateM.bind x f s = _
  simp only [EStateM.bind, first]

theorem bind_error_iff :
    (x >>= f) s = .error e t ↔ x s = .error e t ∨ ∃ a m, x s = .ok a m ∧ f a m = .error e t := by
  change EStateM.bind x f s = _ ↔ _
  unfold EStateM.bind
  cases x s with
  | ok a m => simp [and_assoc]
  | error e m => simp

theorem map_ok_iff {f : α → β} : (f <$> x) s = .ok b t ↔ ∃ a, x s = .ok a t ∧ f a = b := by
  change EStateM.map f x s = _ ↔ _
  unfold EStateM.map
  cases x s with
  | ok a m => simp [and_assoc, and_comm]
  | error e m => simp

@[simp]
theorem pure_ok_iff {b : α} : (pure a : EStateM ε σ α) s = .ok b t ↔ a = b ∧ s = t := by
  change EStateM.Result.ok a s = .ok b t ↔ _
  simp

@[simp]
theorem pure_error_iff : (pure a : EStateM ε σ α) s = .error e t ↔ False := by
  change EStateM.Result.ok a s = .error e t ↔ _
  simp

@[simp]
theorem throw_ok_iff : (throw e : EStateM ε σ α) s = .ok a t ↔ False := by
  change EStateM.Result.error e s = .ok a t ↔ _
  simp

@[simp]
theorem throw_error_iff {e' : ε} : (throw e : EStateM ε σ α) s = .error e' t ↔ e = e' ∧ s = t := by
  change EStateM.Result.error e s = .error e' t ↔ _
  simp

@[simp]
theorem get_ok_iff (a s t : σ) : (get : EStateM ε σ σ) s = .ok a t ↔ s = a ∧ s = t := by
  change EStateM.Result.ok s s = .ok a t ↔ _
  simp

@[simp]
theorem get_error_iff (e : ε) (s t : σ) : (get : EStateM ε σ σ) s = .error e t ↔ False := by
  change EStateM.Result.ok s s = .error e t ↔ _
  simp

@[simp]
theorem modify_ok_iff {f : σ → σ} {a : PUnit} : (modify f : EStateM ε σ PUnit) s = .ok a t ↔ f s = t := by
  change EStateM.Result.ok PUnit.unit (f s) = .ok a t ↔ _
  simp

section Condition

variable (condition : Prop) [Decidable condition] (step : EStateM ε σ PUnit)

include condition step

theorem when_ok_iff {u : PUnit} : (if condition then step else pure ⟨⟩) s = .ok u t
      ↔ if condition then step s = .ok u t else t = s := by
  by_cases holds : condition
  · simp [holds]
  · simp [holds, eq_comm]

theorem when_bind_ok_iff {after : EStateM ε σ β} :
    (if condition then (step >>= fun _ => after) else after) s = .ok b t
      ↔ ∃ m, (if condition then step s = .ok ⟨⟩ m else m = s) ∧ after m = .ok b t := by
  by_cases holds : condition
  · simp only [if_pos holds, bind_ok_iff]
    exact ⟨fun ⟨_, m, stepped, rest⟩ => ⟨m, stepped, rest⟩,
      fun ⟨m, stepped, rest⟩ => ⟨_, m, stepped, rest⟩⟩
  · simp only [if_neg holds, exists_eq_left]

theorem when_bind_error_iff {after : EStateM ε σ β} :
    (if condition then (step >>= fun _ => after) else after) s = .error e t
      ↔ (condition ∧ step s = .error e t)
        ∨ ∃ m, (if condition then step s = .ok ⟨⟩ m else m = s) ∧ after m = .error e t := by
  by_cases holds : condition
  · simp only [holds, if_true, true_and, bind_error_iff]
    exact or_congr_right ⟨fun ⟨_, m, stepped, rest⟩ => ⟨m, stepped, rest⟩,
      fun ⟨m, stepped, rest⟩ => ⟨_, m, stepped, rest⟩⟩
  · simp only [holds, if_false, false_and, false_or, exists_eq_left]

end Condition

theorem mapM_ok_related (related : σ → σ → Prop) (refl : ∀ s, related s s)
    (trans : ∀ s t u, related s t → related t u → related s u)
    (round : ∀ item ∈ items, ∀ s b t, f item s = .ok b t → related s t) (s : σ) (results : List β)
    (done : items.mapM f s = .ok results t) : related s t := by
  induction items generalizing s results with
  | nil =>
    obtain ⟨_, rfl⟩ := pure_ok_iff.mp done
    exact refl s
  | cons head rest ih =>
    simp only [mapM_cons, bind_ok_iff, pure_ok_iff] at done
    obtain ⟨first, middle, atHead, others, last, atRest, _, rfl⟩ := done
    exact trans s middle last (round head (by simp) s first middle atHead)
      (ih (fun item member => round item (by simp [member])) middle others atRest)

theorem mapM_ok_length {results : List β}
    (done : items.mapM f s = .ok results t) : results.length = items.length := by
  induction items generalizing s results with
  | nil =>
    obtain ⟨rfl, _⟩ := pure_ok_iff.mp done
    rfl
  | cons head rest ih =>
    simp only [mapM_cons, bind_ok_iff, pure_ok_iff] at done
    obtain ⟨_, middle, _, others, _, atRest, rfl, rfl⟩ := done
    simp [ih atRest]

-- An invariant indexed by the number of rounds done so far.
theorem forM_range_ok (step : Nat → EStateM ε σ PUnit) (holds : Nat → σ → Prop) {count : Nat} (started : holds 0 s)
    (round : ∀ index before after, index < count → holds index before →
      step index before = .ok ⟨⟩ after → holds (index + 1) after)
    (done : (List.range count).forM step s = .ok ⟨⟩ t) : holds count t := by
  induction count generalizing t with
  | zero =>
    have same : s = t := by simpa using done
    exact same ▸ started
  | succ count ih =>
    rw [range_succ, forM_eq_forM, forM_append, bind_ok_iff] at done
    obtain ⟨_, middle, front, last⟩ := done
    have reached := ih
      (fun index before after bound => round index before after (Nat.lt_succ_of_lt bound)) front
    apply round count middle t (Nat.lt_succ_self count) reached
    simp only [forM_cons, forM_nil, bind_ok_iff] at last
    obtain ⟨_, after, stepped, ended⟩ := last
    have same : after = t := by simpa using ended
    exact same ▸ stepped

theorem forM_error (step : α → EStateM ε σ PUnit) (failed : items.forM step s = .error e t) :
    ∃ front item rest u, items = front ++ item :: rest ∧ front.forM step s = .ok ⟨⟩ u
      ∧ step item u = .error e t := by
  induction items generalizing s with
  | nil => exact (pure_error_iff.mp failed).elim
  | cons head others ih =>
    rcases (bind_error_iff).mp failed with here | ⟨_, m, stepped, later⟩
    · exact ⟨[], head, others, s, rfl, pure_ok_iff.mpr ⟨rfl, rfl⟩, here⟩
    · obtain ⟨front, item, rest, u, parts, before, failure⟩ := ih later
      exact ⟨head :: front, item, rest, u, by rw [parts]; rfl,
        bind_ok_iff.mpr ⟨_, m, stepped, before⟩, failure⟩

theorem forM_range_error {step : Nat → EStateM ε σ PUnit} {count : Nat}
    (failed : (List.range count).forM step s = .error e t) :
    ∃ index u, index < count ∧ (List.range index).forM step s = .ok ⟨⟩ u ∧ step index u = .error e t := by
  obtain ⟨front, index, rest, u, parts, before, failure⟩ := forM_error step failed
  have bound : front.length < count := by
    have lengths := congrArg List.length parts
    simp only [length_range, length_append, length_cons] at lengths
    omega
  have same : (List.range count).take front.length = front := by rw [parts, take_left]
  have position : index = front.length := by
    have atIndex : (List.range count)[front.length]? = some index := by simp [parts]
    simpa [bound] using atIndex.symm
  rw [take_range, Nat.min_eq_left (Nat.le_of_lt bound)] at same
  rw [← same] at before
  exact ⟨front.length, u, bound, before, position ▸ failure⟩

theorem mapM_error (failed : items.mapM f s = .error e t) :
    ∃ front item rest results u, items = front ++ item :: rest ∧ front.mapM f s = .ok results u
      ∧ f item u = .error e t := by
  induction items generalizing s with
  | nil => exact (pure_error_iff.mp failed).elim
  | cons head others ih =>
    simp only [mapM_cons, bind_error_iff, pure_error_iff, and_false, exists_false, or_false] at failed
    rcases failed with here | ⟨first, m, stepped, later⟩
    · exact ⟨[], head, others, [], s, rfl, pure_ok_iff.mpr ⟨rfl, rfl⟩, here⟩
    · obtain ⟨front, item, rest, results, u, parts, before, failure⟩ := ih later
      refine ⟨head :: front, item, rest, first :: results, u, by rw [parts]; rfl, ?_, failure⟩
      simp only [mapM_cons, bind_ok_iff, pure_ok_iff]
      exact ⟨first, m, stepped, results, u, before, rfl, rfl⟩

end Steps

section Success

variable {ε α β : Type} {f : α → Except ε β}

theorem bind_succeeds {x : Except ε α} (first : ∃ a, x = .ok a)
    (second : ∀ a, x = .ok a → ∃ b, f a = .ok b) : ∃ b, (x >>= f) = .ok b := by
  obtain ⟨a, done⟩ := first
  rw [done]
  exact second a done

theorem mapM_succeeds {items : List α}
    (each : ∀ item ∈ items, ∃ result, f item = .ok result) : ∃ results, items.mapM f = .ok results := by
  induction items with
  | nil => exact ⟨[], rfl⟩
  | cons item rest ih =>
    obtain ⟨here, later⟩ := forall_mem_cons.mp each
    rw [mapM_cons]
    exact bind_succeeds here fun _ _ => bind_succeeds (ih later) fun _ _ => ⟨_, rfl⟩

end Success

section Pairing

variable {α β γ : Type} {items : List α} {others : List β} {item : α} {R : α → β → Prop} {S : β → γ → Prop}
  {T : α → γ → Prop}

theorem forall₂_partner (paired : List.Forall₂ R items others)
    (mem : item ∈ items) : ∃ other ∈ others, R item other := by
  induction paired with
  | nil => cases mem
  | cons here _ ih =>
    rcases mem_cons.mp mem with rfl | later
    · exact ⟨_, mem_cons_self, here⟩
    · obtain ⟨other, found, related⟩ := ih later
      exact ⟨other, mem_cons_of_mem _ found, related⟩

theorem forall₂_at (paired : List.Forall₂ R items others) {index : Nat} {other : β}
    (here : items[index]? = some item) (there : others[index]? = some other) : R item other := by
  obtain ⟨inItems, rfl⟩ := List.getElem?_eq_some_iff.mp here
  obtain ⟨inOthers, rfl⟩ := List.getElem?_eq_some_iff.mp there
  exact paired.get inItems inOthers

theorem forall₂_through {middle : List β} {last : List γ}
    (first : List.Forall₂ R items middle) (second : List.Forall₂ S middle last)
    (through : ∀ item ∈ items, ∀ between result, R item between → S between result → T item result) :
    List.Forall₂ T items last := by
  induction first generalizing last with
  | nil =>
    cases second
    exact .nil
  | cons here _ ih =>
    obtain ⟨result, results, there, later, rfl⟩ := List.forall₂_cons_left_iff.mp second
    obtain ⟨now, rest⟩ := forall_mem_cons.mp through
    exact .cons (now _ _ here there) (ih later rest)

end Pairing

section Lifts

variable {ε σ α β : Type} {a b : α} {x : Except ε α} {f : α → Except ε β} {edit : Edit α}

theorem except_bind_ok_iff {b : β} : (x >>= f) = .ok b ↔ ∃ a, x = .ok a ∧ f a = .ok b := by
  cases x with
  | ok a => simp [bind, Except.bind]
  | error e => simp [bind, Except.bind]

theorem except_pure_ok_iff : (pure a : Except ε α) = .ok b ↔ a = b := by
  simp [pure, Except.pure]

theorem except_bind_error_iff (x : Except ε α) (f : α → Except ε β) (e : ε) :
    (x >>= f) = .error e ↔ x = .error e ∨ ∃ a, x = .ok a ∧ f a = .error e := by
  cases x with
  | ok a => simp [bind, Except.bind]
  | error e => simp [bind, Except.bind]

theorem except_ok_of_any (x : Except ε α) (test : α → Bool)
    (holds : x.toOption.any test = true) : ∃ a, x = .ok a ∧ test a = true := by
  cases x with
  | ok a => exact ⟨a, rfl, holds⟩
  | error e => cases holds

theorem mapM_except_ok_iff {items : List α} {results : List β} :
    items.mapM f = .ok results ↔ List.Forall₂ (fun item result => f item = .ok result) items results := by
  induction items generalizing results with
  | nil => cases results <;> simp [pure, Except.pure]
  | cons head rest ih =>
    simp only [mapM_cons, except_bind_ok_iff, ih]
    cases results with
    | nil => simp [pure, Except.pure]
    | cons first others => simp [pure, Except.pure]

@[simp]
theorem lift_except_ok_iff {x : Except Fault α} : (liftM x : Except Stop α) = .ok a ↔ x = .ok a := by
  cases x with
  | ok b => exact Iff.of_eq (by simp [liftM, monadLift, MonadLift.monadLift])
  | error fault => simp [liftM, monadLift, MonadLift.monadLift]

@[simp]
theorem lift_except_refused {x : Except Fault α} {refusal : Refusal} :
    (liftM x : Except Stop α) = .error (.refusal refusal) ↔ False := by
  cases x with
  | ok a => simp [liftM, monadLift, MonadLift.monadLift]
  | error fault => simp [liftM, monadLift, MonadLift.monadLift]

@[simp]
theorem ask_ok_iff {question : Procedure → Except Fault α} :
    Edit.ask question p = .ok a q ↔ question p = .ok a ∧ p = q := by
  unfold Edit.ask
  cases question p with
  | ok a => simp
  | error fault => simp

@[simp]
theorem lift_edit_ok_iff : (liftM edit : Attempt α) p = .ok a q ↔ edit p = .ok a q := by
  simp only [liftM, monadLift, MonadLift.monadLift]
  cases edit p with
  | ok a q => simp
  | error fault q => simp

@[simp]
theorem lift_fault_ok_iff (x : Except Fault α) (a : α) (p q : σ) :
    (liftM x : EStateM Stop σ α) p = .ok a q ↔ x = .ok a ∧ p = q := by
  cases x with
  | ok a => exact pure_ok_iff |>.trans (by simp)
  | error fault => exact throw_ok_iff |>.trans (by simp)

@[simp]
theorem lift_stop_ok_iff {x : Except Stop α} {p q : σ} :
    (liftM x : EStateM Stop σ α) p = .ok a q ↔ x = .ok a ∧ p = q := by
  cases x with
  | ok a => exact pure_ok_iff |>.trans (by simp)
  | error stop => exact throw_ok_iff |>.trans (by simp)

@[simp]
theorem lift_attempt_ok_iff {attempt : Attempt α} :
    (liftM attempt : Step α) s = .ok a t
      ↔ ∃ q, attempt s.proc = .ok a q ∧ { s with proc := q } = t := by
  simp only [liftM, monadLift, MonadLift.monadLift]
  cases attempt s.proc with
  | ok a q => simp
  | error stop q => simp

@[simp]
theorem lift_step_edit_ok_iff :
    (liftM edit : Step α) s = .ok a t
      ↔ ∃ q, edit s.proc = .ok a q ∧ { s with proc := q } = t := by
  exact lift_attempt_ok_iff.trans (exists_congr fun _ => and_congr_left fun _ => lift_edit_ok_iff)

theorem Step.asks {question : Edit α} {answer : α}
    (answered : question s.proc = .ok answer s.proc) : (liftM question : Step α) s = .ok answer s :=
  lift_step_edit_ok_iff.mpr ⟨s.proc, answered, rfl⟩

@[simp]
theorem refuse_ok_iff {s t : σ} : (refuse call reason : EStateM Stop σ α) s = .ok a t ↔ False :=
  throw_ok_iff

@[simp]
theorem refuse_error_iff {e : Stop} {s t : σ} :
    (refuse call reason : EStateM Stop σ α) s = .error e t
      ↔ Stop.refusal (.inconsistent call reason) = e ∧ s = t :=
  throw_error_iff

-- An edit can fault, but it is never refused.
@[simp]
theorem lift_edit_refused (edit : Edit α) (refusal : Refusal) (p q : Procedure) :
    (liftM edit : Attempt α) p = .error (.refusal refusal) q ↔ False := by
  simp only [liftM, monadLift, MonadLift.monadLift]
  cases edit p with
  | ok a q => simp
  | error fault q => simp

@[simp]
theorem lift_fault_refused (x : Except Fault α) (refusal : Refusal) (p q : σ) :
    (liftM x : EStateM Stop σ α) p = .error (.refusal refusal) q ↔ False := by
  cases x with
  | ok a => exact pure_error_iff
  | error fault => exact throw_error_iff.trans (by simp)

@[simp]
theorem lift_stop_error_iff (x : Except Stop α) (e : Stop) (p q : σ) :
    (liftM x : EStateM Stop σ α) p = .error e q ↔ x = .error e ∧ p = q := by
  cases x with
  | ok a => exact pure_error_iff.trans (by simp)
  | error stop => exact throw_error_iff.trans (by simp)

@[simp]
theorem lift_attempt_error_iff (attempt : Attempt α) (e : Stop) (s t : LoweringState) :
    (liftM attempt : Step α) s = .error e t
      ↔ ∃ q, attempt s.proc = .error e q ∧ { s with proc := q } = t := by
  simp only [liftM, monadLift, MonadLift.monadLift]
  cases attempt s.proc with
  | ok a q => simp
  | error stop q => simp

@[simp]
theorem lift_step_edit_refused (edit : Edit α) (refusal : Refusal) (s t : LoweringState) :
    (liftM edit : Step α) s = .error (.refusal refusal) t ↔ False := by
  have parts := lift_attempt_error_iff (liftM edit) (.refusal refusal) s t
  simp only [lift_edit_refused, false_and, exists_false] at parts
  exact parts

end Lifts

-- A computation that fails, if at all, with none of the given errors.
def Avoids {ε α : Type} (bad : ε → Bool) (x : Except ε α) : Prop :=
  ∀ e, x = .error e → bad e = false

namespace Avoids

variable {ε α β : Type} {bad : ε → Bool} {x : Except ε α} {f : α → Except ε β}

theorem ok (a : α) : Avoids bad (.ok a) := fun _ failed => by cases failed

theorem pure (a : α) : Avoids bad (Pure.pure a : Except ε α) := ok a

theorem error {e : ε} (harmless : bad e = false) : Avoids bad (.error e : Except ε α) := by
  intro other failed
  cases failed
  exact harmless

theorem bind (first : Avoids bad x) (rest : ∀ a, Avoids bad (f a)) : Avoids bad (x >>= f) := by
  intro e failed
  rcases (except_bind_error_iff x f e).mp failed with here | ⟨a, _, later⟩
  · exact first e here
  · exact rest a e later

theorem first_of_bind {e : ε} (rest : ∀ a, x = .ok a → Avoids bad (f a))
    (failed : (x >>= f) = .error e) : x = .error e ∨ bad e = false := by
  rcases (except_bind_error_iff x f e).mp failed with here | ⟨a, found, later⟩
  · exact .inl here
  · exact .inr (rest a found e later)

theorem choice {condition : Prop} [Decidable condition] {y : Except ε α}
    (yes : Avoids bad x) (no : Avoids bad y) (rest : ∀ a, Avoids bad (f a)) :
    Avoids bad (if condition then x >>= f else y >>= f) := by
  split
  · exact yes.bind rest
  · exact no.bind rest

theorem mapM (each : ∀ item, Avoids bad (f item)) (items : List α) : Avoids bad (items.mapM f) := by
  induction items with
  | nil => exact pure []
  | cons item rest ih =>
    rw [mapM_cons]
    exact (each item).bind fun _ => ih.bind fun _ => pure _

theorem foldlM {f : β → α → Except ε β} (each : ∀ b item, Avoids bad (f b item)) (items : List α)
    (start : β) : Avoids bad (items.foldlM f start) := by
  induction items generalizing start with
  | nil => exact pure start
  | cons item rest ih =>
    rw [foldlM_cons]
    exact (each start item).bind ih

theorem lift {bad : Stop → Bool} {x : Except Fault α} (inner : Avoids (fun raised => bad (.fault raised)) x) :
    Avoids bad (liftM x : Except Stop α) := by
  cases x with
  | ok a => exact ok a
  | error fault => exact error (inner fault rfl)

end Avoids

theorem Word.check_ok_iff {n result : Nat} : Word.check n = .ok result ↔ n < Word.limit ∧ n = result := by
  by_cases fits : n < limit
  · simp [check, fits]
  · simp [check, fits]

end CallLowering
