import CallLowering.Proofs.Dressing
import CallLowering.Proofs.FinalizedTrees
import CallLowering.Proofs.Lowered

/-!
The first half of a call's first visit: its list is finalized, and what the call then holds is
lowered, the target first and then the early nodes in list order.
-/

namespace CallLowering

open List

variable {data : Call} {seen front part : List NodeId} {arg : Argument} {id : CallId} {copies : List LocalId}
  {count : Nat} {root : Option NodeId} {p : Procedure}

section Nested

variable {p q : Procedure} {call : CallId} {data data' : Call} {seen seen' : List NodeId}
  {copies : List LocalId}

variable (passage : Passage call p q data' seen seen' copies) (holds : Holds p call data seen)

include passage holds

theorem Passage.nested (other : CallId) :
    (other ∈ q.callsIn seen' ↔ other ∈ p.callsIn seen)
      ∧ (other ∈ p.callsIn seen → q.calls[other]? = p.calls[other]?) := by
  refine ⟨passage.carries.mem_callsIn passage.grown holds.forest.valid other, fun named => ?_⟩
  exact passage.grown.callKept other fun same => holds.apart (same ▸ named)

theorem Passage.fresh (fresh : Fresh p seen) : Fresh q seen' := by
  intro other named
  obtain ⟨sameCalls, sameData⟩ := passage.nested holds other
  have named := sameCalls.mp named
  obtain ⟨found, here, isFresh⟩ := fresh other named
  exact ⟨found, (sameData named).trans here, isFresh⟩

theorem Passage.recorded {var : LocalId} (recorded : p.Recorded seen var) : q.Recorded seen' var := by
  obtain ⟨other, found, arg, named, here, rest⟩ := recorded
  obtain ⟨sameCalls, sameData⟩ := passage.nested holds other
  exact ⟨other, found, arg, sameCalls.mpr named, (sameData named).trans here, rest⟩

end Nested

structure Call.Loose (data : Call) : Prop where
  stage : data.args.stage = .finalized
  noCookie : data.ownCookie = []
  raw : ∀ arg ∈ data.args.args, arg.Raw

theorem Call.Loose.isOpen (loose : data.Loose) : data.args.isMaterialized = false := by
  simp [ArgList.isMaterialized, loose.stage]

theorem Call.Loose.owned (loose : data.Loose) :
    data.owned = data.args.args.filterMap Argument.early ++ data.target.node?.toList := by
  have owned := data.owned_loose loose.isOpen fun arg mem => (loose.raw arg mem).loose
  rw [loose.noCookie, nil_append] at owned
  exact owned

theorem AbiInfo.finalize_loose {settings : Settings} {q : Procedure}
    (holds : Holds p id data seen) (fresh : data.Fresh) (done : finalize settings id p = .ok () q) :
    ∃ data' seen', Passage id p q data' seen seen' [] ∧ data'.Loose := by
  have unplaced : Unplaced p id data seen :=
    ⟨holds, fresh.stage, fun arg mem => (fresh.raw arg mem).loose⟩
  obtain ⟨data', seen', passage, noCookie⟩ := finalize_passage unplaced done
  obtain ⟨same, atSame, stage, _, raw⟩ := finalize_each Argument.Raw
    (fun _ _ => ⟨rfl, rfl, rfl, rfl, rfl, rfl⟩)
    (fun arg _ raw => { raw with present := rfl }) (fun arg _ raw => { raw with })
    ⟨data, holds.here, fresh.stage, fresh.raw⟩ done
  cases passage.holds.here.symm.trans atSame
  exact ⟨data', seen', passage, stage, noCookie, raw⟩

theorem Accounted.holds {s t : LoweringState} {seen' : List NodeId}
    (accounted : Accounted s t data.owned seen seen' copies) (holds : Holds s.proc id data seen) :
    Holds t.proc id data seen' where
  here := (accounted.grown.callKept id holds.apart).trans holds.here
  forest := accounted.forest
  apart := by
    rw [accounted.carries.mem_callsIn accounted.grown holds.forest.valid]
    exact holds.apart

namespace Lowering

def Ran (lower : NodeId → Step Unit) (root : Option NodeId) (s t : LoweringState) : Prop :=
  match root with
  | some node => lower node s = .ok () t
  | none => t = s

section Inputs

variable {lower : NodeId → Step Unit} {id : CallId} {data : Call} {s t : LoweringState}

theorem Ran.accounted (ran : Ran lower root s t) (lowers : Lowers lower)
    (forest : Forest s.proc root.toList part) (fresh : Fresh s.proc part) (sound : s.Sound) :
    ∃ part' copies, Accounted s t root.toList part part' copies := by
  cases root with
  | none =>
    have same : t = s := ran
    subst same
    cases forest.spans
    exact ⟨[], [], Accounted.nil sound⟩
  | some node =>
    obtain ⟨part', copies, lowered⟩ := lowers node s t part forest fresh sound ran
    exact ⟨part', copies, lowered.toAccounted⟩

theorem lowerTarget_ran (here : s.proc.calls[id]? = some data)
    (done : lowerTarget lower id s = .ok () t) : Ran lower data.target.node? s t := by
  rw [lowerTarget, bind_of_ok (Step.asks (Edit.call_answers here))] at done
  cases isTarget : data.target.node? with
  | none =>
    simp only [isTarget, pure_ok_iff] at done
    exact done.2.symm
  | some node =>
    simp only [isTarget] at done
    exact done

theorem transformed_identity (node : NodeId) (s : LoweringState) :
    transformed Transform.identity node s = .ok node { s with visits := s.visits.push node } := rfl

theorem lowerEarly_ran {index : Nat} (here : s.proc.calls[id]? = some data)
    (atIndex : data.args.args[index]? = some arg)
    (kept : ∀ m, Ran lower arg.early s m → m.proc.calls[id]? = some data)
    (done : lowerEarly Transform.identity lower id index s = .ok () t) :
    ∃ m, Ran lower arg.early s m ∧ t.proc = m.proc ∧ t.pool = m.pool := by
  simp only [lowerEarly, lowerNode, bind_ok_iff, lift_step_edit_ok_iff] at done
  obtain ⟨same, _, ⟨q, found, rfl⟩, done⟩ := done
  obtain ⟨data', atCall, atArg, rfl⟩ := Edit.arg_ok found
  cases here.symm.trans atCall
  cases atIndex.symm.trans atArg
  cases hasEarly : arg.early with
  | none =>
    simp only [hasEarly, pure_ok_iff] at done
    exact ⟨s, rfl, by rw [← done.2], by rw [← done.2]⟩
  | some node =>
    simp only [hasEarly, bind_ok_iff, transformed_identity, EStateM.Result.ok.injEq,
      lift_step_edit_ok_iff] at done
    obtain ⟨_, m, lowered, value, u, ⟨rfl, rfl⟩, q, set, rfl⟩ := done
    have atM := kept m (hasEarly ▸ lowered)
    obtain ⟨now, other, atNow, atOther, rfl⟩ := Edit.modifyArg_ok set
    cases atM.symm.trans atNow
    cases atIndex.symm.trans atOther
    refine ⟨m, lowered, ?_, rfl⟩
    obtain ⟨bound, rfl⟩ := List.getElem?_eq_some_iff.mp atIndex
    have same : { data.args.args[index] with early := some node } = data.args.args[index] := by
      rw [← hasEarly]
    simp only [same, List.set_getElem_self]
    exact m.proc.setCall_self atM

theorem Ran.callKept (ran : Ran lower root s t) (lowers : Lowers lower)
    (forest : Forest s.proc root.toList part) (fresh : Fresh s.proc part) (sound : s.Sound)
    (apart : id ∉ s.proc.callsIn part) : t.proc.calls[id]? = s.proc.calls[id]? := by
  obtain ⟨_, _, accounted⟩ := ran.accounted lowers forest fresh sound
  exact accounted.grown.callKept id apart

theorem next_tree {args : List Argument} {trees : List NodeId}
    (forest : Forest p (args.filterMap Argument.early) trees) (atCount : args[count]? = some arg)
    (atFront : Forest p ((args.take count).filterMap Argument.early) front) :
    ∃ tree, Forest p arg.early.toList tree ∧ (∀ node ∈ front ++ tree, node ∈ trees) ∧ front.Disjoint tree
      ∧ (p.callsIn front).Disjoint (p.callsIn tree) := by
  have roots : args.filterMap Argument.early = (args.take count).filterMap Argument.early
      ++ (arg.early.toList ++ (args.drop (count + 1)).filterMap Argument.early) := by
    conv => lhs; rw [split_at atCount]
    cases hasEarly : arg.early <;> simp [hasEarly]
  rw [roots] at forest
  obtain ⟨same, others, rfl, atSame, others', apart, callsApart⟩ := forest.split _ _
  cases Spans.unique atFront.spans atSame.spans
  obtain ⟨tree, rest, rfl, atTree, _, _, _⟩ := others'.split _ _
  refine ⟨tree, atTree, fun node met => ?_, fun node inFront inTree => ?_, fun call inFront inTree => ?_⟩
  · rw [← append_assoc]
    exact mem_append_left _ met
  · exact apart inFront (mem_append_left _ inTree)
  · exact callsApart inFront (by rw [p.callsIn_append]; exact mem_append_left _ inTree)

-- What is known of the next argument once those in front of it are lowered.
structure Upcoming (s u : LoweringState) (id : CallId) (data : Call) (arg : Argument)
    (front tree : List NodeId) : Prop where
  before : Forest s.proc arg.early.toList tree
  apart : front.Disjoint tree
  callsApart : (s.proc.callsIn front).Disjoint (s.proc.callsIn tree)
  forest : Forest u.proc arg.early.toList tree
  fresh : Fresh u.proc tree
  here : u.proc.calls[id]? = some data
  outside : id ∉ u.proc.callsIn tree

structure Fronted (s u : LoweringState) (data : Call) (count : Nat) (front front' : List NodeId)
    (copies : List LocalId) : Prop where
  forest : Forest s.proc ((data.args.args.take count).filterMap Argument.early) front
  accounted : Accounted s u ((data.args.args.take count).filterMap Argument.early) front front' copies

theorem Fronted.upcoming {u : LoweringState} {front' trees : List NodeId}
    (fronted : Fronted s u data count front front' copies) (here : s.proc.calls[id]? = some data)
    (forest : Forest s.proc (data.args.args.filterMap Argument.early) trees) (apart : id ∉ s.proc.callsIn trees)
    (fresh : Fresh s.proc trees) (atCount : data.args.args[count]? = some arg) :
    ∃ tree, (∀ node ∈ tree, node ∈ trees) ∧ Upcoming s u id data arg front tree := by
  obtain ⟨tree, atTree, mem, apartTree, callsTree⟩ := next_tree forest atCount fronted.forest
  have grown := fronted.accounted.grown
  have outside : ∀ node ∈ tree, node ∉ front := fun node inTree inFront => apartTree inFront inTree
  have callsOutside : ∀ call ∈ s.proc.callsIn tree, call ∉ s.proc.callsIn front :=
    fun call inTree inFront => callsTree inFront inTree
  have apart : ∀ part, (∀ node ∈ part, node ∈ trees) → id ∉ s.proc.callsIn part :=
    fun part within named => apart (filterMap_subset _ within named)
  have inTrees : ∀ node ∈ tree, node ∈ trees := fun node met => mem node (mem_append_right _ met)
  refine ⟨tree, inTrees, atTree, apartTree, callsTree, atTree.frame grown outside callsOutside,
    (fresh.subset inTrees).frame grown atTree.valid callsOutside, ?_, ?_⟩
  · exact (grown.callKept id (apart front fun node met => mem node (mem_append_left _ met))).trans here
  · rw [grown.callsIn atTree.valid]
    exact apart tree inTrees

section Lowers

variable (lowers : Lowers lower) (here : s.proc.calls[id]? = some data) (trees : List NodeId)
  (forest : Forest s.proc (data.args.args.filterMap Argument.early) trees)
  (apart : id ∉ s.proc.callsIn trees) (fresh : Fresh s.proc trees) (sound : s.Sound)

include lowers here trees forest apart fresh sound

theorem lowerEarlies_front (count : Nat) (bounded : count ≤ data.args.args.length)
    (done : (List.range count).forM (lowerEarly Transform.identity lower id) s = .ok () t) :
    ∃ front front' copies, Fronted s t data count front front' copies := by
  apply forM_range_ok (lowerEarly Transform.identity lower id)
    (fun count u => ∃ front front' copies, Fronted s u data count front front' copies) ?_ ?_ done
  · exact ⟨[], [], [], Forest.nil _, Accounted.nil sound⟩
  · rintro index u v bound ⟨front, front', copies, fronted⟩ ran
    have atIndex := getElem?_eq_getElem (Nat.lt_of_lt_of_le bound bounded)
    generalize data.args.args[index] = arg at atIndex
    obtain ⟨tree, _, next⟩ := fronted.upcoming here forest apart fresh atIndex
    have soundU := fronted.accounted.sound
    obtain ⟨m, lowered, sameProc, samePool⟩ := lowerEarly_ran next.here atIndex
      (fun m lowered => (lowered.callKept lowers next.forest next.fresh soundU next.outside).trans next.here)
      ran
    obtain ⟨tree', copies', further⟩ := lowered.accounted lowers next.forest next.fresh soundU
    have taken : (data.args.args.take (index + 1)).filterMap Argument.early
        = (data.args.args.take index).filterMap Argument.early ++ arg.early.toList := by
      rw [take_add_one, atIndex, filterMap_append]
      cases hasEarly : arg.early <;> simp [hasEarly]
    refine ⟨front ++ tree, front' ++ tree', copies ++ copies', ?_, ?_⟩
    · rw [taken]
      exact fronted.forest.append next.before next.apart next.callsApart
    · rw [taken]
      exact fronted.accounted.append (further.later sameProc samePool) fronted.forest next.before next.apart
        next.callsApart

theorem lowerEarlies_accounted
    (done : (List.range data.args.size).forM (lowerEarly Transform.identity lower id) s = .ok () t) :
    ∃ trees' copies, Accounted s t (data.args.args.filterMap Argument.early) trees trees' copies := by
  obtain ⟨front, front', copies, atFront, accounted⟩ := lowerEarlies_front lowers here trees forest apart
    fresh sound data.args.size (Nat.le_refl _) done
  rw [show data.args.args.take data.args.size = data.args.args from take_length] at atFront accounted
  cases Spans.unique atFront.spans forest.spans
  exact ⟨front', copies, accounted⟩

end Lowers

-- The target of a call is lowered, and the trees of its arguments are as they were.
structure Targeted (s m : LoweringState) (id : CallId) (data : Call)
    (trees behind behind' : List NodeId) (copies : List LocalId) : Prop where
  before : Forest s.proc (data.args.args.filterMap Argument.early) trees
  atTarget : Forest s.proc data.target.node?.toList behind
  apart : trees.Disjoint behind
  callsApart : (s.proc.callsIn trees).Disjoint (s.proc.callsIn behind)
  accounted : Accounted s m data.target.node?.toList behind behind' copies
  forest : Forest m.proc (data.args.args.filterMap Argument.early) trees
  here : m.proc.calls[id]? = some data
  outside : id ∉ m.proc.callsIn trees

variable (lowers : Lowers lower) (loose : data.Loose) {m : LoweringState}
  (holds : Holds s.proc id data seen) (fresh : Fresh s.proc seen) (sound : s.Sound)
  (target : lowerTarget lower id s = .ok () m)

include lowers loose holds fresh sound target

theorem lowerTarget_targeted :
    ∃ trees behind behind' copies, seen = trees ++ behind
      ∧ Targeted s m id data trees behind behind' copies := by
  have forest := holds.forest
  rw [loose.owned] at forest
  obtain ⟨trees, behind, rfl, atTrees, atTarget, apart, callsApart⟩ := forest.split _ _
  have notHere := holds.apart
  simp only [s.proc.callsIn_append, mem_append, not_or] at notHere
  obtain ⟨behind', copies, accounted⟩ := (lowerTarget_ran holds.here target).accounted lowers atTarget
    (fresh.subset fun node mem => mem_append_right _ mem) sound
  refine ⟨trees, behind, behind', copies, rfl, atTrees, atTarget, apart, callsApart, accounted, ?_, ?_, ?_⟩
  · exact atTrees.frame accounted.grown (fun node inTrees inTarget => apart inTrees inTarget)
      (fun call inTrees inTarget => callsApart inTrees inTarget)
  · exact (accounted.grown.callKept id notHere.2).trans holds.here
  · rw [accounted.grown.callsIn atTrees.valid]
    exact notHere.1

theorem inputs_accounted {now : Call} (atNow : m.proc.calls[id]? = some now)
    (args : (List.range now.args.size).forM (lowerEarly Transform.identity lower id) m = .ok () t) :
    ∃ seen' copies, Accounted s t data.owned seen seen' copies := by
  obtain ⟨trees, behind, behind', copies, rfl, first⟩ := lowerTarget_targeted lowers loose holds fresh sound
    target
  cases first.here.symm.trans atNow
  have freshTrees := (fresh.subset fun node mem => mem_append_left _ mem).frame
    first.accounted.grown first.before.valid fun call inTrees inTarget => first.callsApart inTrees inTarget
  obtain ⟨trees', copies', second⟩ := lowerEarlies_accounted lowers first.here trees first.forest
    first.outside freshTrees first.accounted.sound args
  rw [loose.owned]
  exact ⟨trees' ++ behind', copies ++ copies', first.accounted.prepend second first.atTarget first.before
    (fun node inTarget inTrees => first.apart inTrees inTarget)
    (fun call inTarget inTrees => first.callsApart inTrees inTarget)⟩

end Inputs

end Lowering

end CallLowering
