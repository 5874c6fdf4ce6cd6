import CallLowering.Placement.Allocation
import CallLowering.Proofs.Sequencing
import Mathlib.Data.List.Basic

/-!
Registers handed out in order. Whatever is taken, the cursor stays within the list, so that the registers left
can always be counted and a slice of them is always there.
-/

namespace CallLowering

open List

variable {count unit : Nat}

theorem except_and_ok {ε : Type} {x y : Except ε Bool} {a b : Bool} (first : x = .ok a) (second : y = .ok b) :
    (x <&&> y) = .ok (a && b) := by
  subst first second
  cases a
  · rfl
  · rfl

theorem except_and_true {ε : Type} {x y : Except ε Bool} (done : (x <&&> y) = .ok true) :
    x = .ok true ∧ y = .ok true := by
  cases x with
  | error => cases done
  | ok a =>
    cases a with
    | false => cases done
    | true => exact ⟨rfl, done⟩

theorem elementAt_ok {α : Type} {items : List α} {index : Nat} (bound : index < items.length) :
    elementAt items index = .ok items[index] := by
  rw [elementAt, getElem?_eq_getElem bound]

theorem le_roundUp (n : Nat) (positive : 0 < unit) : n ≤ roundUp n unit := by
  have parts := Nat.div_add_mod (n + (unit - 1)) unit
  have small := Nat.mod_lt (n + (unit - 1)) positive
  rw [Nat.mul_comm] at parts
  simp only [roundUp]
  omega

namespace RegSequence

variable {seq later : RegSequence} {reg : Reg} {regs : List Reg}

def free (seq : RegSequence) : List Reg := seq.regs.drop seq.next

def Within (seq : RegSequence) : Prop := seq.next ≤ seq.regs.length

-- The same registers at a later time. Those left are the last of what was left, and the cursor has not passed
-- the end.
structure Follows (later seq : RegSequence) : Prop where
  regs : later.regs = seq.regs
  left : later.free <:+ seq.free
  within : seq.Within → later.Within

theorem Follows.refl (seq : RegSequence) : seq.Follows seq := ⟨rfl, suffix_refl _, id⟩

theorem Follows.trans {last : RegSequence} (second : last.Follows later) (first : later.Follows seq) :
    last.Follows seq :=
  ⟨second.regs.trans first.regs, second.left.trans first.left, fun within => second.within (first.within within)⟩

theorem free_subset (follows : later.Follows seq) : later.free ⊆ seq.regs :=
  follows.regs ▸ (drop_suffix _ _).subset

theorem remaining_ok (within : seq.Within) : seq.remaining = .ok seq.free.length := by
  have inside : seq.next ≤ seq.regs.length := within
  rw [remaining, if_pos inside, free, length_drop]

theorem has_ok (within : seq.Within) (count : Nat) : seq.has count = .ok (count ≤ seq.free.length) := by
  rw [has, remaining_ok within]
  rfl

theorem has_true (done : seq.has count = .ok true) : count ≤ seq.free.length := by
  simp only [has, remaining, except_bind_ok_iff] at done
  obtain ⟨left, counted, enough⟩ := done
  split at counted
  · cases counted
    rw [free, length_drop]
    exact of_decide_eq_true (Except.ok.inj enough)
  · cases counted

theorem pop_some (done : seq.pop = (some reg, later)) : seq.free = reg :: later.free ∧ later.Follows seq := by
  unfold pop at done
  split at done
  · rename_i found here
    cases done
    obtain ⟨bound, same⟩ := List.getElem?_eq_some_iff.mp here
    have split : seq.free = reg :: seq.regs.drop (seq.next + 1) := by rw [free, drop_eq_getElem_cons bound, same]
    exact ⟨split, rfl, split ▸ suffix_cons _ _, fun _ => bound⟩
  · cases done

theorem pop_none (done : seq.pop = (none, later)) : later = seq ∧ seq.free = [] := by
  unfold pop at done
  split at done
  · cases done
  · rename_i gone
    cases done
    exact ⟨rfl, drop_eq_nil_of_le (getElem?_eq_none_iff.mp gone)⟩

theorem take_some (done : seq.take count = .ok (some regs, later)) :
    seq.free = regs ++ later.free ∧ regs.length = count ∧ later.Follows seq := by
  simp only [take, except_bind_ok_iff] at done
  obtain ⟨left, _, done⟩ := done
  split at done
  · cases done
  · simp only [slice, except_bind_ok_iff] at done
    obtain ⟨found, sliced, same⟩ := done
    split at sliced
    · rename_i inside
      cases sliced
      cases same
      have split : seq.free = ((seq.regs.take (seq.next + count)).drop seq.next)
          ++ seq.regs.drop (seq.next + count) := by
        rw [free, ← drop_append_of_le_length (by rw [length_take]; omega), take_append_drop]
      exact ⟨split, by rw [length_drop, length_take]; omega, rfl, split ▸ suffix_append _ _, fun _ => inside.2⟩
    · cases sliced

theorem take_none (done : seq.take count = .ok (none, later)) : later = seq ∧ seq.free.length < count := by
  simp only [take, except_bind_ok_iff, remaining] at done
  obtain ⟨left, has, done⟩ := done
  split at has
  · cases has
    split at done
    · rename_i few
      cases done
      exact ⟨rfl, by rwa [free, length_drop]⟩
    · simp only [except_bind_ok_iff] at done
      obtain ⟨_, _, same⟩ := done
      cases same
  · cases has

theorem take_ok (within : seq.Within) (count : Nat) : ∃ found later, seq.take count = .ok (found, later) := by
  have fits := within
  unfold Within at fits
  rw [take, remaining_ok within]
  by_cases few : seq.free.length < count
  · exact ⟨none, seq, by simp only [bind, Except.bind, few, if_true]; rfl⟩
  · have inside : seq.next ≤ seq.next + count ∧ seq.next + count ≤ seq.regs.length := by
      rw [free, length_drop] at few
      omega
    exact ⟨_, _, by simp only [bind, Except.bind, few, if_false, slice, if_pos inside]; rfl⟩

theorem exhaust_free (seq : RegSequence) : seq.exhaust.free = [] := drop_length

theorem exhaust_follows (seq : RegSequence) : seq.exhaust.Follows seq :=
  ⟨rfl, seq.exhaust_free ▸ nil_suffix, fun _ => Nat.le_refl _⟩

theorem alignEven_follows (seq : RegSequence) : seq.alignEven.Follows seq := by
  refine ⟨rfl, ?_, fun _ => Nat.min_le_right _ _⟩
  rcases Nat.le_total seq.next seq.regs.length with within | past
  · exact drop_suffix_drop_left _ (Nat.le_min.mpr ⟨le_roundUp _ (by omega), within⟩)
  · rw [free, alignEven, Nat.min_eq_right (Nat.le_trans past (le_roundUp _ (by omega))), drop_length]
    exact nil_suffix

end RegSequence

end CallLowering
