import CallLowering.Lowering.Interference
import CallLowering.Proofs.Sequencing
import Mathlib.Data.List.Induction

/-!
Arguments pinned one after the other. A pin takes along the side effects in front of it at the moment it is
first asked for, and never again.
-/

namespace CallLowering.Interference

open List

variable {profiles : List Profile} {pinned : List Bool} {asked : Nat → Prop} {profile : Profile}
  {index target earlier later : Nat} {a b : List Bool}

-- The argument was asked for itself, or is a side effect in front of one that was.
def Reached (profiles : List Profile) (asked : Nat → Prop) (index : Nat) : Prop :=
  ∃ profile, profiles[index]? = some profile ∧ profile.arg.value.isSome = true
    ∧ (asked index ∨ profile.arg.effects.isSideEffect = true
      ∧ ∃ later other, index < later ∧ profiles[later]? = some other
        ∧ other.arg.value.isSome = true ∧ asked later)

theorem Reached.spreads (reached : Reached profiles asked later) (inFront : earlier < later)
    (here : profiles[earlier]? = some profile) (hasValue : profile.arg.value.isSome = true)
    (acts : profile.arg.effects.isSideEffect = true) : Reached profiles asked earlier := by
  obtain ⟨other, atLater, otherValue, wanted | ⟨_, last, third, beyond, more⟩⟩ := reached
  · exact ⟨profile, here, hasValue, .inr ⟨acts, later, other, inFront, atLater, otherValue, wanted⟩⟩
  · exact ⟨profile, here, hasValue, .inr ⟨acts, last, third, Nat.lt_trans inFront beyond, more⟩⟩

theorem Reached.mono {more : Nat → Prop} (reached : Reached profiles asked index)
    (wider : ∀ other, asked other → more other) : Reached profiles more index := by
  obtain ⟨profile, here, hasValue, wanted | ⟨acts, later, other, inFront, atLater, otherValue, wanted⟩⟩ := reached
  · exact ⟨profile, here, hasValue, .inl (wider _ wanted)⟩
  · exact ⟨profile, here, hasValue, .inr ⟨acts, later, other, inFront, atLater, otherValue, wider _ wanted⟩⟩

def Acts (profiles : List Profile) (index : Nat) : Prop :=
  ∃ profile, profiles[index]? = some profile ∧ profile.arg.value.isSome = true
    ∧ profile.arg.effects.isSideEffect = true

theorem isOpen_iff : isOpen profiles pinned index = true
    ↔ (∃ profile, profiles[index]? = some profile ∧ profile.arg.value.isSome = true) ∧ pinned[index]? = some false := by
  simp [isOpen, Option.any_eq_true]

-- A round of the loop is a pin itself.
theorem pinEffects_succ (profiles : List Profile) (index : Nat) (pinned : List Bool) :
    pinEffects profiles (index + 1) pinned
      = if (profiles[index]?.any fun profile => profile.arg.effects.isSideEffect) = true then
          pin profiles (pinEffects profiles index pinned) index
        else pinEffects profiles index pinned := by
  simp only [pinEffects, pin, Bool.and_eq_true, ite_and]

-- What the loop over the arguments in front of `count` adds.
def Sweeps (profiles : List Profile) (count : Nat) : Prop :=
  ∀ pinned : List Bool, pinned.length = profiles.length →
    (pinEffects profiles count pinned).length = profiles.length
      ∧ ∀ index, (pinEffects profiles count pinned)[index]? = some true
        ↔ pinned[index]? = some true ∨ index < count ∧ Acts profiles index

theorem Sweeps.pin_iff (sweeps : Sweeps profiles target) (sameLength : pinned.length = profiles.length) :
    (pin profiles pinned target).length = profiles.length
      ∧ ∀ index, (pin profiles pinned target)[index]? = some true ↔ pinned[index]? = some true
        ∨ isOpen profiles pinned target = true ∧ (index = target ∨ index < target ∧ Acts profiles index) := by
  by_cases isOpen_ : isOpen profiles pinned target = true
  · have bound : target < pinned.length := lt_length (isOpen_iff.mp isOpen_).2
    obtain ⟨length, each⟩ := sweeps (pinned.set target true) (by rw [length_set, sameLength])
    simp only [pin, isOpen_, if_true, true_and]
    refine ⟨length, fun index => ?_⟩
    rw [each, getElem?_set]
    by_cases isTarget : target = index
    · subst isTarget
      simp [bound]
    · simp [isTarget, Ne.symm isTarget]
  · simp only [pin, isOpen_, Bool.false_eq_true, if_false, false_and, or_false]
    exact ⟨sameLength, fun _ => trivial⟩

theorem sweeps (profiles : List Profile) (count : Nat) : Sweeps profiles count := by
  induction count with
  | zero => exact fun pinned sameLength => ⟨sameLength, fun index => by simp [pinEffects]⟩
  | succ last ih =>
    intro pinned sameLength
    obtain ⟨length, each⟩ := ih pinned sameLength
    rw [pinEffects_succ]
    split
    · rename_i effect
      obtain ⟨profile, here, acts⟩ := (Option.any_eq_true _ _).mp effect
      obtain ⟨pinLength, pins⟩ := ih.pin_iff length
      refine ⟨pinLength, fun index => (pins index).trans ?_⟩
      rw [each, isOpen_iff]
      constructor
      · rintro ((before | ⟨inFront, effects⟩) | ⟨⟨⟨_, same, hasValue⟩, _⟩, rfl | ⟨inFront, effects⟩⟩)
        · exact .inl before
        · exact .inr ⟨Nat.lt_succ_of_lt inFront, effects⟩
        · cases here.symm.trans same
          exact .inr ⟨Nat.lt_succ_self _, profile, here, hasValue, acts⟩
        · exact .inr ⟨Nat.lt_succ_of_lt inFront, effects⟩
      · rintro (before | ⟨inFront, effects⟩)
        · exact .inl (.inl before)
        · rcases Nat.lt_succ_iff_lt_or_eq.mp inFront with inFront | rfl
          · exact .inl (.inr ⟨inFront, effects⟩)
          · obtain ⟨_, same, hasValue, _⟩ := effects
            have bound : index < (pinEffects profiles index pinned).length := length ▸ lt_length here
            cases now : (pinEffects profiles index pinned)[index] with
            | true => exact .inl ((each index).mp ((getElem?_eq_getElem bound).trans (congrArg some now)))
            | false =>
              exact .inr ⟨⟨⟨_, same, hasValue⟩, (getElem?_eq_getElem bound).trans (congrArg some now)⟩, .inl rfl⟩
    · rename_i noEffect
      refine ⟨length, fun index => (each index).trans (or_congr_right ?_)⟩
      refine ⟨fun ⟨inFront, effects⟩ => ⟨Nat.lt_succ_of_lt inFront, effects⟩, fun ⟨inFront, effects⟩ => ⟨?_, effects⟩⟩
      refine Nat.lt_of_le_of_ne (Nat.le_of_lt_succ inFront) ?_
      rintro rfl
      obtain ⟨profile, here, _, acts⟩ := effects
      exact noEffect ((Option.any_eq_true _ _).mpr ⟨profile, here, acts⟩)

-- One more request reaches the argument itself and the effects in front of it.
theorem reached_or_iff : Reached profiles (fun other => asked other ∨ other = target) index
    ↔ Reached profiles asked index
      ∨ (∃ profile, profiles[target]? = some profile ∧ profile.arg.value.isSome = true)
        ∧ (index = target ∨ index < target ∧ Acts profiles index) := by
  constructor
  · rintro ⟨profile, here, hasValue,
      (wanted | rfl) | ⟨acts, later, other, inFront, atLater, otherValue, wanted | rfl⟩⟩
    · exact .inl ⟨profile, here, hasValue, .inl wanted⟩
    · exact .inr ⟨⟨profile, here, hasValue⟩, .inl rfl⟩
    · exact .inl ⟨profile, here, hasValue, .inr ⟨acts, later, other, inFront, atLater, otherValue, wanted⟩⟩
    · exact .inr ⟨⟨other, atLater, otherValue⟩, .inr ⟨inFront, profile, here, hasValue, acts⟩⟩
  · rintro (reached | ⟨⟨aim, atTarget, aimValue⟩, rfl | ⟨inFront, profile, here, hasValue, acts⟩⟩)
    · exact reached.mono fun _ => .inl
    · exact ⟨aim, atTarget, aimValue, .inl (.inr rfl)⟩
    · exact ⟨profile, here, hasValue, .inr ⟨acts, target, aim, inFront, atTarget, aimValue, .inr rfl⟩⟩

-- The early return is safe since whatever the argument takes along was taken when it was first pinned.
theorem pin_reached (sameLength : pinned.length = profiles.length)
    (before : ∀ index, pinned[index]? = some true ↔ Reached profiles asked index) (target : Nat) :
    (pin profiles pinned target).length = profiles.length
      ∧ ∀ index, (pin profiles pinned target)[index]? = some true
        ↔ Reached profiles (fun other => asked other ∨ other = target) index := by
  obtain ⟨length, pins⟩ := (sweeps profiles target).pin_iff sameLength
  refine ⟨length, fun index => (pins index).trans ?_⟩
  rw [before, reached_or_iff, isOpen_iff]
  refine ⟨Or.imp_right fun ⟨open_, taken⟩ => ⟨open_.1, taken⟩, Or.rec .inl ?_⟩
  rintro ⟨⟨aim, atTarget, aimValue⟩, taken⟩
  have bound : target < pinned.length := sameLength ▸ lt_length atTarget
  have atPin := getElem?_eq_getElem bound
  cases now : pinned[target] with
  | false => exact .inr ⟨⟨⟨aim, atTarget, aimValue⟩, atPin.trans (congrArg some now)⟩, taken⟩
  | true =>
    have known := (before target).mp (atPin.trans (congrArg some now))
    rcases taken with rfl | ⟨inFront, profile, here, hasValue, acts⟩
    · exact .inl known
    · exact .inl (known.spreads inFront here hasValue acts)

-- The run of any requests, from nothing pinned: by induction over them, with those before it.
theorem pins_reached (profiles : List Profile) (order : List Nat) :
    (order.foldl (pin profiles) (unpinned profiles)).length = profiles.length
      ∧ ∀ index, (order.foldl (pin profiles) (unpinned profiles))[index]? = some true
        ↔ Reached profiles (· ∈ order) index := by
  induction order using List.reverseRecOn with
  | nil => exact ⟨length_map .., fun index => by simp [unpinned, Reached, getElem?_replicate]⟩
  | append_singleton order last ih =>
    simp only [foldl_append, foldl_cons, foldl_nil, mem_append, mem_singleton]
    exact pin_reached ih.1 ih.2 last

theorem pins_congr {order other : List Nat} (same : ∀ index, index ∈ order ↔ index ∈ other) :
    order.foldl (pin profiles) (unpinned profiles) = other.foldl (pin profiles) (unpinned profiles) := by
  obtain ⟨length, reached⟩ := pins_reached profiles order
  obtain ⟨otherLength, otherReached⟩ := pins_reached profiles other
  refine ext_getElem (length.trans otherLength.symm) fun index inFirst inSecond => ?_
  have asked : (fun index => index ∈ order) = fun index => index ∈ other := funext fun index => propext (same index)
  have both := (asked ▸ reached index).trans (otherReached index).symm
  rw [getElem?_eq_getElem inFirst, getElem?_eq_getElem inSecond] at both
  exact Bool.eq_iff_iff.mpr (by simpa using both)

def wanted (requested : List Bool) : List Nat := (requested.zipIdx.filter Prod.fst).map Prod.snd

theorem mem_wanted {requested : List Bool} : index ∈ wanted requested ↔ requested[index]? = some true := by
  simp [wanted, mem_zipIdx_iff_getElem?]

theorem pinAll_eq_foldl (pinned requested : List Bool) :
    pinAll profiles pinned requested = (wanted requested).foldl (pin profiles) pinned := by
  rw [pinAll, wanted, foldl_map, foldl_filter]

def union (a b : List Bool) : List Bool := List.zipWith (· || ·) a b

theorem union_length (sameLength : a.length = b.length) : (union a b).length = a.length := by
  simp [union, sameLength]

theorem union_iff (sameLength : a.length = b.length) :
    (union a b)[index]? = some true ↔ a[index]? = some true ∨ b[index]? = some true := by
  rcases Nat.lt_or_ge index a.length with inside | outside
  · have bound : index < b.length := sameLength ▸ inside
    simp [union, getElem?_zipWith, getElem?_eq_getElem inside, getElem?_eq_getElem bound]
  · have beyond : b.length ≤ index := sameLength ▸ outside
    simp [union, getElem?_zipWith, getElem?_eq_none outside, getElem?_eq_none beyond]

end CallLowering.Interference
