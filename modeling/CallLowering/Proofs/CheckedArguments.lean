import CallLowering.Proofs.FilledLists
import CallLowering.Proofs.LoweredProcedures
import CallLowering.Proofs.Verifying

/-! Arguments that pass the checks. -/

namespace CallLowering

open List

variable {data : Call} {id : CallId} {seen : List NodeId} {kind : NodeKind} {p proc q : Procedure}

namespace Procedure

theorem exact_quiet (proc : Procedure) {roots : List NodeId}
    (spans : Spans proc.inputs roots seen) (exact_ : ∀ id ∈ seen, proc.Exact id)
    (quiet : proc.Quiet seen) : ∀ id ∈ seen, ∀ node, proc.nodes[id]? = some node →
      node.effects.isPersistent = false := by
  refine proc.exact_hidden exact_ spans .isPersistent fun id met node own here atOwn => ?_
  have isQuiet := quiet id met
  rw [proc.actsAt_eq (proc.kindAt_of here rfl)] at isQuiet
  refine ⟨?_, fun ids refers child mem =>
    proc.inputs_of_references here (node.kind.plain_of_quiet isQuiet) refers ▸ mem⟩
  rw [Effects.isPersistent, (proc.ownImpact_signs atOwn).assigns, (proc.ownImpact_signs atOwn).calls]
  cases kind : node.kind with
  | storeLocal | storeInd | call => simp [kind, NodeKind.acts] at isQuiet
  | _ => rfl

end Procedure

theorem Procedure.MentionedIn.kept {nodes : NodeId → Prop} {calls : CallId → Prop} {var : LocalId}
    (mentioned : p.MentionedIn seen var) (grown : Extends nodes calls p q)
    (valid : ∀ id ∈ seen, id < p.nodes.size) : q.MentionedIn seen var := by
  obtain ⟨id, mem, atId⟩ := mentioned
  exact ⟨id, mem, (grown.mentionAt (valid id mem)).trans atId⟩

-- An argument once it is settled. Some of this takes lists that are `full`, where none is empty.
structure Argument.Finished (full : Prop) (proc : Procedure) (arg : Argument) : Prop where
  present : arg.value.isSome = true
  stores : full → ∀ early late, arg.early = some early → arg.late = some late →
    ∃ part, Forest proc [early] part ∧ proc.storedIn part ≠ []
  silent : ∀ early late, arg.early = some early → arg.late = some late →
    ∃ part, Forest proc [late] part ∧ proc.Quiet part
  onStack : arg.late = none → arg.placement.hasReg = false
  temp : arg.flags.isTemp = true → ∃ temp early late,
    arg.temp = some temp ∧ arg.early = some early ∧ arg.late = some late
      ∧ (∃ part, Forest proc [early] part ∧ temp ∈ proc.storedIn part)
      ∧ ∃ part, Forest proc [late] part
        ∧ (proc.kindAt late = some (.fieldList []) ∨ proc.MentionedIn part temp)
  solid : full → arg.flags.isTemp = true → ∀ late, arg.late = some late → proc.Listed late

namespace Argument

theorem finished_framed (full : Prop) : Framed (Finished full) := by
  intro p q nodes calls arg finished grown apart
  -- What holds of a tree under the argument goes on to hold of it.
  have framed : ∀ (root : NodeId) (holds : Procedure → List NodeId → Prop),
      arg.early = some root ∨ arg.late = some root →
      (∀ part, (∀ id ∈ part, id < p.nodes.size) → holds p part → holds q part) →
      (∃ part, Forest p [root] part ∧ holds p part) → ∃ part, Forest q [root] part ∧ holds q part := by
    rintro root holds isNode stable ⟨part, atPart, held⟩
    obtain ⟨nodesApart, callsApart⟩ := apart root isNode part atPart
    exact ⟨part, atPart.frame grown nodesApart callsApart, stable part atPart.valid held⟩
  refine ⟨finished.present, fun isFull early late isEarly isLate => ?_, fun early late isEarly isLate => ?_,
    finished.onStack, fun isTemp => ?_, fun isFull isTemp late isLate => ?_⟩
  · refine framed early (fun proc part => proc.storedIn part ≠ []) (.inl isEarly) (fun part valid stored => ?_)
      (finished.stores isFull early late isEarly isLate)
    rwa [grown.storedIn valid]
  · exact framed late Procedure.Quiet (.inr isLate) (fun part valid quiet => quiet.kept grown valid)
      (finished.silent early late isEarly isLate)
  · obtain ⟨temp, early, late, held, isEarly, isLate, stored, mentioned⟩ := finished.temp isTemp
    refine ⟨temp, early, late, held, isEarly, isLate, ?_, ?_⟩
    · refine framed early (fun proc part => temp ∈ proc.storedIn part) (.inl isEarly) (fun part valid held => ?_)
        stored
      rwa [grown.storedIn valid]
    · exact framed late (fun proc part => proc.kindAt late = some (.fieldList []) ∨ proc.MentionedIn part temp)
        (.inr isLate) (fun part valid mentioned =>
          mentioned.imp (grown.staysEmpty) fun mentioned => mentioned.kept grown valid) mentioned
  · exact (finished.solid isFull isTemp late isLate).kept grown

end Argument

theorem Done.under {root id : NodeId} {part : List NodeId}
    {accept : NodeKind → Prop} (done : Done proc part) (forest : Forest proc [root] part)
    (met : id ∈ part) (here : proc.kindAt id = some kind) (accepted : accept kind) : proc.Under root accept := by
  obtain ⟨node, atNode, rfl⟩ := proc.kindAt_some_iff.mp here
  refine ⟨part.filterMap fun other => proc.nodes[other]?, ?_, node, mem_filterMap.mpr ⟨id, met, atNode⟩,
    accepted⟩
  simp only [Procedure.visited, done.walk forest]
  rfl

namespace Argument.Finished

variable {full : Prop} {proc : Procedure} {arg : Argument}

section Evaluated

variable (finished : arg.Finished full proc)
  (done : ∀ root, arg.early = some root ∨ arg.late = some root → ∀ part, Forest proc [root] part → Done proc part)

include finished done

theorem shaped (isFull : full) : arg.Shaped proc where
  present := by
    have present := finished.present
    cases early : arg.early with
    | none => exact .inr (by simpa [Argument.value, early] using present)
    | some value => exact .inl rfl
  stores := fun early late isEarly isLate => by
    obtain ⟨part, atPart, stored⟩ := finished.stores isFull early late isEarly isLate
    obtain ⟨below, rfl, _⟩ := atPart.atRoot
    have here := Array.getElem?_eq_getElem (atPart.valid early (by simp))
    refine ⟨_, here, ?_⟩
    by_contra silent
    exact stored ((done early (.inl isEarly) _ atPart).storeless atPart here (by simpa using silent))
  silent := fun early late isEarly isLate => by
    obtain ⟨part, atPart, quiet⟩ := finished.silent early late isEarly isLate
    obtain ⟨below, rfl, _⟩ := atPart.atRoot
    have isDone := done late (.inr isLate) _ atPart
    have here := Array.getElem?_eq_getElem (atPart.valid late (by simp))
    have silent := proc.exact_quiet (isDone.inputs atPart) isDone.upToDate quiet late (by simp) _
      here
    exact ⟨_, here, by simpa [Effects.isPersistent] using silent⟩
  onStack := fun _ loose segment mem => by
    have noReg := finished.onStack loose
    simp only [Placement.hasReg, any_eq_false, Segment.isReg, Bool.not_eq_true,
      Option.isSome_eq_false_iff, Option.isNone_iff_eq_none] at noReg
    exact noReg segment mem

-- The temp of a settled argument is used unless an empty list stands where it should be read.
theorem tempUsed_iff :
    arg.TempUsed proc ↔ (arg.flags.isTemp = true → ∀ late, arg.late = some late →
      proc.kindAt late ≠ some (.fieldList [])) := by
  constructor
  · intro used isTemp late isLate empty
    obtain ⟨temp, _, same, _, _, isSame, _, nodes, met, node, mem, mentions⟩ := used isTemp
    cases isLate.symm.trans isSame
    obtain ⟨_, _, _, _, _, isSame, _, part, atPart, _⟩ := finished.temp isTemp
    cases isLate.symm.trans isSame
    obtain ⟨below, rfl, under, _⟩ := atPart.plain empty rfl
    cases under.spans
    obtain ⟨only, here, isEmpty⟩ := proc.kindAt_some_iff.mp empty
    have walked := (done late (.inr isLate) _ atPart).walk atPart
    simp only [Procedure.visited, walked, nil_append] at met
    cases met
    simp only [filterMap_cons, here, filterMap_nil, mem_singleton] at mem
    subst mem
    rw [isEmpty] at mentions
    rcases mentions with isRead | ⟨_, isRead⟩ | isRead <;> cases isRead
  · intro solid isTemp
    obtain ⟨temp, early, late, held, isEarly, isLate, ⟨part, atPart, stored⟩, part', atPart', mentioned⟩ :=
      finished.temp isTemp
    refine ⟨temp, early, late, held, isEarly, isLate, ?_, ?_⟩
    · obtain ⟨id, met, stores⟩ := mem_filterMap.mp stored
      obtain ⟨kind, here, stores⟩ := Option.bind_eq_some_iff.mp stores
      refine (done early (.inl isEarly) part atPart).under atPart met here ?_
      cases kind with
      | storeLocal var value =>
        cases stores
        exact ⟨value, rfl⟩
      | _ => cases stores
    · obtain ⟨id, met, mentions⟩ := mentioned.resolve_left (solid isTemp late isLate)
      obtain ⟨kind, here, mentions⟩ := Option.bind_eq_some_iff.mp mentions
      refine (done late (.inr isLate) part' atPart').under atPart' met here ?_
      exact Verifier.mentionsLocal_iff.mp (by simpa using mentions)

theorem tempUsed (isFull : full) : arg.TempUsed proc :=
  (finished.tempUsed_iff done).mpr fun isTemp late isLate => (finished.solid isFull isTemp late isLate).filled

end Evaluated

end Argument.Finished

theorem Holds.doneUnder (holds : Holds proc id data seen) (settled : data.Settled) (done : Done proc seen)
    (arg : Argument) (mem : arg ∈ data.args.args) (root : NodeId)
    (isNode : arg.early = some root ∨ arg.late = some root) (part : List NodeId)
    (atPart : Forest proc [root] part) : Done proc part := by
  have isRoot : root ∈ data.owned := by
    apply data.settled_references settled
    simp only [Call.references, mem_append, mem_flatMap, Option.mem_toList]
    exact .inl ⟨arg, mem, isNode⟩
  exact done.subset fun node met =>
    Spans.root_part holds.forest.spans isRoot atPart.spans node met

theorem Materialize.marked_ordered (data : Call) {args : List Argument} {order : List Nat}
    (everyone : order.Perm (List.range args.length)) : (marked data args order).args.Ordered where
  once := (everyone.nodup_iff.mpr nodup_range).filter _
  listed := fun index => by
    change index ∈ order.filter (hasLate args) ↔ ∃ arg late, args[index]? = some arg ∧ arg.late = some late
    rw [mem_filter, everyone.mem_iff, mem_range]
    constructor
    · rintro ⟨_, isLate⟩
      obtain ⟨arg, atIndex, isLate⟩ := (Option.any_eq_true _ _).mp isLate
      obtain ⟨late, isLate⟩ := Option.isSome_iff_exists.mp isLate
      exact ⟨arg, late, atIndex, isLate⟩
    · rintro ⟨arg, late, atIndex, isLate⟩
      exact ⟨lt_length atIndex, by simp [hasLate, atIndex, isLate]⟩

theorem Lowering.checkCall_unrefused {settings : Settings} {refusal : Refusal} (here : p.calls[id]? = some data)
    (materialized : data.args.isMaterialized = true) (verified : data.args.Verified p) :
    checkCall settings id p ≠ .error (.refusal refusal) q := by
  intro failed
  simp only [checkCall, bind_error_iff, lift_edit_refused, lift_edit_ok_iff, ask_ok_iff, false_or] at failed
  obtain ⟨report, _, ⟨checked, rfl⟩, failed⟩ := failed
  obtain ⟨found, searched, good⟩ := Procedure.verifyCall_isOk _ here checked
  have nothing := Verifier.verified_findings materialized verified searched
  rw [if_neg (by simp [good.mpr nothing])] at failed
  exact pure_error_iff.mp failed

end CallLowering
