import CallLowering.Proofs.SettledChecks
import CallLowering.Proofs.TwinSettling

/-!
Checking twins. Where the arguments of a call are settled, the verdict looks at the impacts of nodes,
at placements and at which lists are empty, and twins have all of these in common.
-/

namespace CallLowering

variable {list other : ArgList} {rename : LocalId → LocalId}

theorem mapM_of_forall₂ {ε α β γ : Type} {R : α → β → Prop} {f : α → Except ε γ} {g : β → Except ε γ}
    {items : List α} {others : List β} (related : List.Forall₂ R items others)
    (same : ∀ a b, R a b → g b = f a) : others.mapM g = items.mapM f := by
  induction related with
  | nil => rfl
  | cons here _ ih => rw [List.mapM_cons, List.mapM_cons, same _ _ here, ih]

theorem NodeKind.Mirrors.isEmptyList {kind other : NodeKind}
    (mirrors : kind.Mirrors rename other) : other.isEmptyList = kind.isEmptyList := by
  cases mirrors <;> rfl

namespace Verifier

theorem placementsFrom_forall₂ {entries others : List (Argument × Nat)} {stackSize : Nat}
    (related : List.Forall₂ (fun (entry other : Argument × Nat) =>
      (other.1.masked, other.2) = (entry.1.masked, entry.2)) entries others) (used : List Reg) :
    placementsFrom stackSize used others = placementsFrom stackSize used entries := by
  induction related generalizing used with
  | nil => rfl
  | @cons entry other _ _ here _ ih =>
    obtain ⟨arg, index⟩ := entry
    obtain ⟨arg', index'⟩ := other
    obtain ⟨masked, rfl⟩ := Prod.mk.inj here
    have samePlacement : arg'.placement = arg.placement :=
      Argument.masked_read masked Argument.placement fun _ => rfl
    simp only [placementsFrom, samePlacement, ih]

theorem placements_twins (both : list.Twins other) : placements other = placements list := by
  have sameSlots : slots other.args = slots list.args := by
    rw [slots_eq, slots_eq, both.map Argument.placement fun _ => rfl]
  rw [placements, placements, both.stackSize, placementsFrom_forall₂ both.zipped, sameSlots]

theorem perArgument_twins (both : list.Twins other) {check check' : Argument → Except Fault (List Finding)}
    (same : ∀ arg arg', arg'.masked = arg.masked → check' arg' = check arg) :
    perArgument check' other.args = perArgument check list.args := by
  unfold perArgument
  rw [mapM_of_forall₂ both.zipped]
  intro entry entry' paired
  obtain ⟨arg, index⟩ := entry
  obtain ⟨arg', index'⟩ := entry'
  obtain ⟨masked, rfl⟩ := Prod.mk.inj paired
  simp only [same arg arg' masked]

end Verifier

namespace Twins

open Verifier

variable {frame : Frame} {rename : LocalId → LocalId} {p q : Procedure} {arg arg' : Argument}

theorem shape (twins : Twins frame rename p q) (masked : arg'.masked = arg.masked) :
    Verifier.shape q arg' = Verifier.shape p arg := by
  unfold Verifier.shape
  rw [Argument.masked_read masked Argument.early fun _ => rfl, Argument.masked_read masked Argument.late fun _ => rfl,
    Argument.masked_read masked Argument.placement fun _ => rfl]
  cases arg.early with
  | none => cases arg.late <;> rfl
  | some early =>
    cases arg.late with
    | none => rfl
    | some late =>
      rcases twins.lookup early with ⟨node, _, here, there, _⟩ | ⟨fault, here, there⟩
      · rcases twins.lookup late with ⟨node', _, here', there', _⟩ | ⟨fault, here', there'⟩
        · simp only [here, there, here', there']
          rfl
        · simp only [here, there, here', there']
          rfl
      · simp only [here, there]
        rfl

theorem readsNothing (twins : Twins frame rename p q) (masked : arg'.masked = arg.masked) :
    Verifier.readsNothing q arg' = Verifier.readsNothing p arg := by
  unfold Verifier.readsNothing
  rw [Argument.masked_read masked Argument.flags fun _ => rfl, Argument.masked_read masked Argument.late fun _ => rfl]
  cases arg.flags.isTemp with
  | false => rfl
  | true =>
    cases arg.late with
    | none => rfl
    | some late =>
      rcases twins.lookup late with ⟨node, kind, here, there, mirrors⟩ | ⟨fault, here, there⟩
      · simp only [here, there]
        exact congrArg Except.ok mirrors.isEmptyList
      · simp only [here, there]

theorem settledVerdict (twins : Twins frame rename p q) (both : list.Twins other)
    (config : CheckConfig) : Verifier.settledVerdict config q other = Verifier.settledVerdict config p list := by
  have paired : List.Forall₂ (fun arg arg' : Argument => arg'.masked = arg.masked) list.args other.args :=
    forall₂_of_map both.args
  unfold Verifier.settledVerdict
  rw [perArgument_twins both fun _ _ masked => twins.shape masked, placements_twins both,
    mapM_of_forall₂ paired fun _ _ masked => twins.readsNothing masked]

end Twins

open Lowering in
theorem Both.check {frame : Frame} {p q : Procedure}
    (twins : Twins frame rename p q) {settings settings' : Settings} {full : Prop} {id : CallId} {data : Call}
    (sameLevel : settings'.options.checkLevel = settings.options.checkLevel)
    (settled : Settled settings full id data p) :
    Both frame rename p q (checkCall settings id) (checkSettled settings' id) fun _ _ a b => b = a := by
  obtain ⟨data', there, both⟩ := twins.call id data settled.here
  have same := twins.settledVerdict both.list (CheckConfig.ofLevel settings.options.checkLevel)
  refine Alike.ofIff ⟨?_, ?_⟩ ?_
  · intro passes
    obtain ⟨_, _, checked⟩ := passes
    have good := (settled.findings_iff _).mp ((checkCall_ok_iff settled.here).mp checked).2
    exact ⟨(), q, (checkSettled_ok_iff there).mpr ⟨rfl, by rw [sameLevel, same, good]⟩⟩
  · intro passes
    obtain ⟨_, _, checked⟩ := passes
    have good := ((checkSettled_ok_iff there).mp checked).2
    rw [sameLevel, same] at good
    exact ⟨(), p, (checkCall_ok_iff settled.here).mpr ⟨rfl, (settled.findings_iff _).mpr good⟩⟩
  · intro _ p' _ q' checked checked'
    rw [((checkCall_ok_iff settled.here).mp checked).1, ((checkSettled_ok_iff there).mp checked').1]
    exact ⟨rename, twins, .refl p rename, rfl⟩

end CallLowering
