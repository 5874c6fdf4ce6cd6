import CallLowering.Proofs.LoweredProcedures

/-! Lowering loses no evaluation and repeats none. -/

namespace CallLowering

open List

namespace Lowering

namespace Success

variable {proc after : Procedure} {seen seen' : List NodeId} {copies : List LocalId}

variable (success : Success proc after seen seen' copies) (id : NodeId)

include success id

theorem acting_once (met : id ∈ seen) (acts : proc.actsAt id = true) : seen'.count id = 1 := by
  have reworked := success.reworked
  obtain ⟨stores, perm, isNew, _⟩ := reworked.carries.acts
  have bound := success.forest.valid id met
  have acts : after.actsAt id = true := (reworked.grown.actsAt bound).trans acts
  have old : id ∉ stores := fun mem =>
    Nat.lt_irrefl _ (Nat.lt_of_lt_of_le bound (isNew id mem))
  have counts := perm.count_eq id
  rw [count_append, count_filter acts, count_filter acts, count_eq_zero.mpr old,
    count_eq_one_of_mem success.forest.once met] at counts
  exact counts

-- A node that acts keeps its kind, since it is no field list.
theorem acting_kind (met : id ∈ seen) (acts : proc.actsAt id = true) : after.kindAt id = proc.kindAt id := by
  obtain ⟨old, new, atOld, atNew, kept⟩ :=
    success.reworked.grown.kindAt (success.forest.valid id met)
  rw [proc.actsAt_eq atOld] at acts
  rcases kept with rfl | ⟨_, _, rfl, _, _⟩
  · exact atNew.trans atOld.symm
  · cases acts

theorem acting_new (met : id ∈ seen') (acts : after.actsAt id = true) (new : id ∉ seen) :
    ∃ var, after.storeAt id = some var ∧ proc.locals.size ≤ var ∧ var < after.locals.size := by
  obtain ⟨stores, perm, _, targets⟩ := success.reworked.carries.acts
  have inStores : id ∈ stores := by
    have mem := perm.mem_iff.mp (mem_filter.mpr ⟨met, acts⟩)
    exact (mem_append.mp mem).resolve_left fun old => new (mem_filter.mp old).1
  obtain ⟨var, held, stored⟩ := mem_map.mp (targets.mem_iff.mp (mem_map_of_mem inStores))
  refine ⟨var, stored.symm, ?_⟩
  rcases mem_append.mp held with isTemp | isCopy
  · have isTemp := after.tempsFrom_isArgTemp isTemp
    exact ⟨success.new_of_argTemp isTemp, after.isArgTemp_bound isTemp⟩
  · obtain ⟨ty, isCopy⟩ := success.areCopies isCopy
    exact ⟨success.new_of_copy isCopy, Procedure.IsCopy.bound isCopy⟩

end Success

theorem evaluation_neither_lost_nor_repeated (settings : Settings) (name : String)
    (body : List Instruction) (made : List Made) (proc : Procedure) (before : List NodeId)
    (outcome : Outcome) (builds : Procedure.build name body = .ok (made, proc))
    (unshared : proc.Unshared before)
    (done : proc.lower settings Transform.identity = .ok outcome) (unrefused : outcome.refusal = none) :
    ∃ after, outcome.proc.walkAll = .ok after
      ∧ (∀ id ∈ before, proc.actsAt id = true →
        after.count id = 1 ∧ outcome.proc.kindAt id = proc.kindAt id)
      ∧ (∀ id ∈ after, outcome.proc.actsAt id = true → id ∉ before →
        ∃ var, outcome.proc.storeAt id = some var
          ∧ proc.locals.size ≤ var ∧ var < outcome.proc.locals.size) := by
  obtain ⟨after, copies, success⟩ :=
    lower_succeeds builds unshared done unrefused
  refine ⟨after, success.walkAll, fun id met acts => ⟨?_, ?_⟩, fun id met acts new => ?_⟩
  · exact success.acting_once id met acts
  · exact success.acting_kind id met acts
  · exact success.acting_new id met acts new

-- An indirect call with a load that may fault and a store among its arguments, and a call as its
-- cookie.
def storeBesideCookie : List Instruction :=
  [.declare .ptr, .declare .i32, .readLocal 0, .load 0 false .i32,
    .call { target := .method "cookie", returnType := .ptr }, .intConst 7 .i32, .assign 1 3,
    .readLocal 0,
    .call { target := .indirect 7, cookie := some 2, args := [(1, .i32), (6, .i32)] }, .statement 8]

theorem store_and_cookie_evaluated_once :
    ∃ made proc outcome after, Procedure.build "caller" storeBesideCookie = .ok (made, proc)
      ∧ proc.Unshared [0, 1, 3, 4, 5, 6, 2, 7, 8]
      ∧ proc.lower { target := Target.ofTriple ⟨.x64, .linux⟩ } Transform.identity = .ok outcome
      ∧ outcome.refusal = none ∧ outcome.proc.walkAll = .ok after
      ∧ after.count 2 = 1 ∧ after.count 4 = 1 ∧ after.count 8 = 1 := by
  obtain ⟨made, proc, outcome, builds, ⟨span, cookie, store, call⟩, done, unrefused⟩ := lowered_of_check
    storeBesideCookie { target := Target.ofTriple ⟨.x64, .linux⟩ }
    (fun proc => proc.unshared? = some [0, 1, 3, 4, 5, 6, 2, 7, 8]
      ∧ proc.actsAt 2 = true ∧ proc.actsAt 4 = true ∧ proc.actsAt 8 = true)
    (fun outcome => outcome.refusal = none) (by decide +kernel)
  have unshared := proc.unshared?_sound span
  obtain ⟨after, walked, kept, _⟩ := evaluation_neither_lost_nor_repeated _ _ _ made proc _ outcome builds
    unshared done unrefused
  exact ⟨made, proc, outcome, after, builds, unshared, done, unrefused, walked,
    (kept 2 (by decide) cookie).1, (kept 4 (by decide) store).1, (kept 8 (by decide) call).1⟩

end Lowering

end CallLowering
