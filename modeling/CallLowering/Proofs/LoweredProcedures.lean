import CallLowering.Proofs.Building
import CallLowering.Proofs.LoweredTrees

/-!
Lowering a built procedure whose nodes are not shared. When it succeeds, all its statements are
lowered, and a walk over them meets exactly the nodes that the account has.
-/

namespace CallLowering

variable {proc : Procedure} {seen : List NodeId} {var : LocalId} {outcome : Lowering.Outcome} {settings : Settings}

def Procedure.walkAll (proc : Procedure) : Except Fault (List NodeId) := do
  pure (← proc.statements.mapM proc.walk).flatten

theorem length_le_of_bounded {ids : List Nat} {bound : Nat} (once : ids.Nodup)
    (bounded : ∀ id ∈ ids, id < bound) : ids.length ≤ bound := by
  have mem : ids ⊆ List.range bound := fun id met => List.mem_range.mpr (bounded id met)
  simpa using (List.subperm_of_subset once mem).length_le

theorem Done.walks {roots : List NodeId} (done : Done proc seen) (forest : Forest proc roots seen) :
    ∃ parts, roots.mapM proc.walk = .ok parts ∧ seen = parts.flatten := by
  apply proc.spans_mapM_walk (done.inputs forest)
  · intro id met
    obtain ⟨node, here, _⟩ := done.upToDate id met
    refine ⟨node, here, ?_⟩
    have atKind := proc.kindAt_of here rfl
    unfold Procedure.inputs Procedure.links Procedure.evaluated
    rw [here]
    cases kind : node.kind with
    | call call =>
      have named : proc.callAt id = some call := by rw [proc.callAt_eq atKind, kind]; rfl
      obtain ⟨data, atCall, settled, _⟩ := done.settled call (List.mem_filterMap.mpr ⟨id, met, named⟩)
      simp only [kind, atCall, proc.call_ok_iff.mpr atCall]
      exact data.settled_evaluated settled
    | _ => simp only [kind]
  · exact Nat.le_succ_of_le (length_le_of_bounded forest.once forest.valid)

theorem Done.walk {root : NodeId} (done : Done proc seen) (forest : Forest proc [root] seen) :
    proc.walk root = .ok seen := by
  obtain ⟨parts, walked, same⟩ := done.walks forest
  simp only [List.mapM_cons, List.mapM_nil, except_bind_ok_iff] at walked
  obtain ⟨part, atRoot, _, rest, last⟩ := walked
  cases rest
  cases last
  rw [same, atRoot, List.flatten_singleton]

theorem Done.walkAll (done : Done proc seen) (forest : Forest proc proc.statements seen) :
    proc.walkAll = .ok seen := by
  obtain ⟨parts, walked, same⟩ := done.walks forest
  simp only [Procedure.walkAll, except_bind_ok_iff]
  exact ⟨parts, walked, by rw [same]; rfl⟩

namespace Lowering

theorem lower_ok {transform : Transform}
    (done : proc.lower settings transform = .ok outcome) (unrefused : outcome.refusal = none) :
    ∃ t, lowerStatements settings transform { proc } = .ok () t ∧ t.proc = outcome.proc := by
  unfold Procedure.lower at done
  cases ran : lowerStatements settings transform { proc } with
  | ok _ t =>
    simp only [ran] at done
    cases done
    exact ⟨t, rfl, rfl⟩
  | error stop t =>
    simp only [ran] at done
    cases stop with
    | refusal refusal =>
      cases done
      cases unrefused
    | fault fault => cases done

structure Success (proc after : Procedure) (visited visited' : List NodeId) (copies : List LocalId) :
    Prop where
  built : proc.AsBuilt
  forest : Forest proc proc.statements visited
  lowered : ∃ t : LoweringState, t.proc = after
    ∧ Lowered { proc } t proc.statements visited visited' copies

theorem lower_succeeds {name : String} {body : List Instruction} {made : List Made}
    (builds : Procedure.build name body = .ok (made, proc)) (unshared : proc.Unshared seen)
    (done : proc.lower settings Transform.identity = .ok outcome) (unrefused : outcome.refusal = none) :
    ∃ seen' copies, Success proc outcome.proc seen seen' copies := by
  have built := (Built.body builds).asBuilt
  have forest := built.forest unshared
  obtain ⟨t, ran, same⟩ := lower_ok done unrefused
  simp only [lowerStatements, bind_ok_iff, get_ok_iff] at ran
  obtain ⟨_, _, ⟨rfl, rfl⟩, ran⟩ := ran
  obtain ⟨seen', copies, lowered⟩ := Lowered.each (lowerTree_lowers settings _)
    { proc } seen forest (built.fresh seen) (CopyPool.empty_sound proc) ran
  exact ⟨seen', copies, built, forest, t, same, lowered⟩

namespace Success

variable {proc after : Procedure} {seen seen' : List NodeId} {copies : List LocalId}

variable (success : Success proc after seen seen' copies)

include success

theorem reworked : Reworked proc after proc.statements seen seen' copies := by
  obtain ⟨t, rfl, lowered⟩ := success.lowered
  exact lowered.toReworked

theorem walkAll : after.walkAll = .ok seen' := by
  have reworked := success.reworked
  refine reworked.done.walkAll ?_
  rw [reworked.grown.statements]
  exact reworked.forest

theorem new_of_temp {data : LocalVar} (here : after.locals[var]? = some data) (isTemp : data.kind ≠ .user) :
    proc.locals.size ≤ var := by
  by_contra old
  have before := Array.getElem?_eq_getElem (Nat.lt_of_not_le old)
  have kept := success.reworked.grown.varKept var _ before
  cases here.symm.trans kept
  exact isTemp (success.built.userLocals var _ before)

theorem new_of_argTemp (isTemp : after.isArgTemp var = true) : proc.locals.size ≤ var := by
  obtain ⟨data, here, isKind⟩ := (Option.any_eq_true _ _).mp isTemp
  refine success.new_of_temp here fun isUser => ?_
  rw [isUser] at isKind
  cases isKind

theorem new_of_copy {ty : ValueType} (isCopy : after.IsCopy var ty) : proc.locals.size ≤ var := by
  obtain ⟨data, here, isKind, _⟩ := isCopy
  refine success.new_of_temp here fun isUser => ?_
  rw [isUser] at isKind
  cases isKind

theorem areCopies (held : var ∈ copies) : ∃ ty, after.IsCopy var ty := by
  obtain ⟨t, rfl, lowered⟩ := success.lowered
  exact lowered.areCopies var held

end Success

end Lowering

end CallLowering
