import CallLowering.Proofs.Ledger
import CallLowering.Proofs.Shaping

/-!
The pool of struct copies. No copy is held twice or free while it is held, so the copies taken within
one outermost scope are all different.
-/

namespace CallLowering

open List

variable {proc : Procedure} {copies : List LocalId} {after before pool : CopyPool} {var : LocalId}

theorem LocalSet.mem_foldl_insert (vars : List LocalId) (set : LocalSet) (var : LocalId) :
    var ∈ (vars.foldl LocalSet.insert set).members ↔ var ∈ set.members ∨ var ∈ vars := by
  induction vars generalizing set with
  | nil => simp
  | cons head rest ih =>
    rw [foldl_cons, ih, LocalSet.insert, mem_insertSorted, mem_cons]
    constructor
    · rintro ((here | before) | later)
      · exact .inr (.inl here)
      · exact .inl before
      · exact .inr (.inr later)
    · rintro (before | here | later)
      · exact .inl (.inr before)
      · exact .inl (.inl here)
      · exact .inr later

namespace CopyPool

structure Sound (proc : Procedure) (pool : CopyPool) : Prop where
  heldOnce : pool.held.Nodup
  apart : ∀ var ∈ pool.available.members, var ∉ pool.held
  copies : ∀ var, var ∈ pool.available.members ∨ var ∈ pool.held → ∃ ty, proc.IsCopy var ty

-- The innermost scope, if there is one, holds some more copies.
def Holding (before after : CopyPool) (copies : List LocalId) : Prop :=
  after.scopes = before.scopes.modifyHead (· ++ copies)

theorem empty_sound (proc : Procedure) : Sound proc {} := by
  refine ⟨nodup_nil, ?_, ?_⟩
  · intro var free
    cases free
  · intro var either
    rcases either with free | held
    · cases free
    · cases held

theorem Sound.kept {nodes : NodeId → Prop} {calls : CallId → Prop} {p q : Procedure}
    (sound : Sound p pool) (grown : Extends nodes calls p q) : Sound q pool := by
  refine { sound with copies := fun var either => ?_ }
  obtain ⟨ty, isCopy⟩ := sound.copies var either
  exact ⟨ty, isCopy.kept grown⟩

theorem holding_refl : Holding pool pool [] := by
  unfold Holding
  cases pool.scopes <;> simp

theorem holding_trans {a b c : CopyPool} {copies' : List LocalId} (first : Holding a b copies)
    (second : Holding b c copies') : Holding a c (copies ++ copies') := by
  unfold Holding at first second ⊢
  rw [second, first]
  cases a.scopes <;> simp

theorem openScope_sound (sound : Sound proc pool) : Sound proc pool.openScope := by
  have same : pool.openScope.held = pool.held := by simp [held, openScope]
  exact ⟨same ▸ sound.heldOnce, fun var free => same ▸ sound.apart var free,
    fun var either => sound.copies var (same ▸ either)⟩

theorem closeScope_sound (sound : Sound proc pool) : Sound proc pool.closeScope := by
  unfold closeScope
  split
  · exact sound
  · rename_i outermost open_
    have heldEq : pool.held = outermost := by simp [held, open_]
    refine ⟨nodup_nil, fun _ _ => not_mem_nil, fun var either => ?_⟩
    apply sound.copies
    rcases either with free | held
    · rw [LocalSet.mem_foldl_insert] at free
      exact heldEq ▸ free
    · cases held
  · rename_i inner parent rest open_
    have sameHeld : pool.held.Perm ((parent ++ inner) :: rest).flatten := by
      rw [held, open_]
      simp only [flatten_cons, ← append_assoc]
      exact perm_append_comm.append_right rest.flatten
    exact ⟨sameHeld.nodup_iff.mp sound.heldOnce,
      fun var free held => sound.apart var free (sameHeld.mem_iff.mpr held),
      fun var either => sound.copies var (either.imp_right sameHeld.mem_iff.mpr)⟩

theorem closeScope_holding (taken : Holding before.openScope after copies) :
    Holding before after.closeScope copies := by
  unfold Holding at taken ⊢
  simp only [openScope, modifyHead_cons, nil_append] at taken
  unfold closeScope
  rw [taken]
  cases before.scopes with
  | nil => rfl
  | cons parent rest => rfl

theorem holding_once (outermost : before.scopes = [])
    (taken : Holding before.openScope after copies) (sound : Sound proc after) : copies.Nodup := by
  unfold Holding at taken
  simp only [openScope, outermost, modifyHead_cons, nil_append] at taken
  have once := sound.heldOnce
  rw [held, taken, flatten_singleton] at once
  exact once

theorem hold_sound {inner : List LocalId} {rest : List (List LocalId)} (sound : Sound proc pool)
    (isOpen : pool.scopes = inner :: rest) (scopes : after.scopes = (inner ++ [var]) :: rest)
    (notHeld : var ∉ pool.held) (isCopy : ∃ ty, proc.IsCopy var ty)
    (fewer : ∀ other ∈ after.available.members, other ∈ pool.available.members ∧ other ≠ var) :
    Sound proc after := by
  have more : List.Perm after.held (var :: pool.held) := by
    rw [held, held, isOpen, scopes]
    simp only [flatten_cons, append_assoc, singleton_append]
    exact perm_middle
  refine ⟨more.nodup_iff.mpr (nodup_cons.mpr ⟨notHeld, sound.heldOnce⟩), ?_, ?_⟩
  · intro other free mem
    obtain ⟨wasFree, different⟩ := fewer other free
    rcases mem_cons.mp (more.mem_iff.mp mem) with same | before
    · exact different same
    · exact sound.apart other wasFree before
  · intro other either
    rcases either with free | mem
    · exact sound.copies other (.inl (fewer other free).1)
    · rcases mem_cons.mp (more.mem_iff.mp mem) with rfl | before
      · exact isCopy
      · exact sound.copies other (.inr before)

end CopyPool

abbrev LoweringState.Sound (s : LoweringState) : Prop := s.pool.Sound s.proc

namespace Step

theorem structCopy_sound {settings : Settings} {ty : ValueType} {s t : LoweringState} (sound : s.Sound)
    (done : structCopy settings ty s = .ok var t) :
    t.Sound ∧ CopyPool.Holding s.pool t.pool [var] ∧ t.proc.IsCopy var ty := by
  have grown := structCopy_adds done
  obtain ⟨choice, inner, rest, isOpen, scopes⟩ := structCopy_ok done
  have holding : CopyPool.Holding s.pool t.pool [var] := by simp [CopyPool.Holding, isOpen, scopes]
  suffices copied : t.proc.IsCopy var ty ∧ var ∉ s.pool.held
      ∧ ∀ other ∈ t.pool.available.members, other ∈ s.pool.available.members ∧ other ≠ var from
    ⟨CopyPool.hold_sound (sound.kept grown) isOpen scopes copied.2.1 ⟨ty, copied.1⟩ copied.2.2, holding, copied.1⟩
  cases choice with
  | reused _ free fits _ same left =>
    obtain ⟨data, here, sameType⟩ := Option.map_eq_some_iff.mp fits
    obtain ⟨_, data', here', isCopy, _⟩ := sound.copies var (.inl free)
    cases here.symm.trans here'
    refine ⟨⟨data, same ▸ here, isCopy, sameType⟩, sound.apart var free, fun other mem => ?_⟩
    rw [left] at mem
    simpa [LocalSet.erase] using mem
  | fresh _ new made left =>
    -- A new local is beyond every local that the pool knows.
    have unknown : ∀ ty, ¬ s.proc.IsCopy var ty := by
      rintro ty ⟨data, here, _⟩
      exact Nat.lt_irrefl _ (Nat.lt_of_lt_of_eq (lt_size here) new.symm)
    refine ⟨⟨{ ty, kind := .structCopy }, ?_, rfl, rfl⟩, fun mem => ?_, fun other mem => ?_⟩
    · rw [made, new]
      exact Array.getElem?_push_size
    · obtain ⟨ty, known⟩ := sound.copies var (.inr mem)
      exact unknown ty known
    · rw [left] at mem
      refine ⟨mem, fun same => ?_⟩
      obtain ⟨ty, known⟩ := sound.copies other (.inl mem)
      exact unknown ty (same ▸ known)

end Step

end CallLowering
