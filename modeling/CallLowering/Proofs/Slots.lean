import CallLowering.Proofs.Holding

/-!
Going through the arguments of a call one by one. Each round rewrites the tree of one argument; what
the earlier rounds established about theirs stays.
-/

namespace CallLowering

open List

variable {arg : Argument} {index : Nat}

theorem split_at {α : Type} {items : List α} {item : α}
    (here : items[index]? = some item) : items = items.take index ++ item :: items.drop (index + 1) := by
  obtain ⟨bound, rfl⟩ := List.getElem?_eq_some_iff.mp here
  rw [← List.drop_eq_getElem_cons bound, List.take_append_drop]

section SlotsByIndex

variable {p q : Procedure} {call : CallId} {data : Call} {index : Nat} {arg after : Argument}
  {seen tree early late : List NodeId} {copies : List LocalId}

variable (holds : Holds p call data seen)

include holds

theorem Holds.withSplit (atIndex : data.args.args[index]? = some arg) :
    Holds p call (data.withArgs (data.args.args.take index ++ arg :: data.args.args.drop (index + 1))) seen := by
  rw [← split_at atIndex]
  exact holds

theorem Holds.treeOf (mem : arg ∈ data.args.args) {value : NodeId} (hasEarly : arg.early = some value) :
    ∃ tree, Forest p [value] tree ∧ call ∉ p.callsIn tree ∧ ∀ id ∈ tree, id ∈ seen := by
  have isRoot : value ∈ data.owned := by
    simp only [Call.owned, mem_append, mem_filterMap]
    exact .inl (.inl (.inl ⟨arg, mem, hasEarly⟩))
  obtain ⟨before, behind, rooted⟩ := append_of_mem isRoot
  have forest := holds.forest
  rw [rooted] at forest
  obtain ⟨a, bc, rfl, _, forest, _⟩ := forest.split before (value :: behind)
  obtain ⟨b, c, rfl, atValue, _, _⟩ := forest.split [value] behind
  refine ⟨b, atValue, fun named => holds.apart ?_, fun id met => by simp [met]⟩
  simp only [p.callsIn_append, mem_append]
  exact .inr (.inl named)

theorem Holds.notUnder (isOpen : data.args.isMaterialized = false)
    (mem : arg ∈ data.args.args) {root : NodeId} (isNode : arg.early = some root ∨ arg.late = some root)
    {part : List NodeId} (atPart : Forest p [root] part) : call ∉ p.callsIn part := by
  have isRoot : root ∈ data.owned := by
    simp only [Call.owned, Call.lateNodes, isOpen, mem_append, mem_filterMap]
    rcases isNode with isEarly | isLate
    · exact .inl (.inl (.inl ⟨arg, mem, isEarly⟩))
    · exact .inl (.inl (.inr (mem_filterMap.mpr ⟨arg, mem, isLate⟩)))
  exact fun named => holds.apart
    (filterMap_subset _ (Spans.root_part holds.forest.spans isRoot atPart.spans) named)

section Slot

variable (isOpen : data.args.isMaterialized = false) (atIndex : data.args.args[index]? = some arg)
  (loose : arg.late = none) (atTree : Forest p arg.early.toList tree)

include isOpen atIndex loose atTree

theorem Holds.slotAt (step : SlotStep call p q tree after early late copies)
    (now : q.calls[call]? = some (data.withArgs (data.args.args.set index after)))
    (inFront : data.args.args.length = 1 ∨ ∀ var ∈ q.storedIn tree, var ∈ q.storedIn early) :
    ∃ seen', Passage call p q (data.withArgs (data.args.args.set index after)) seen seen' copies := by
  have bound : index < data.args.args.length := lt_length atIndex
  have setEq : data.args.args.set index after
      = data.args.args.take index ++ after :: data.args.args.drop (index + 1) :=
    List.set_eq_take_append_cons_drop.trans (if_pos bound)
  rw [setEq] at now ⊢
  apply (holds.withSplit atIndex).slot isOpen loose atTree step now
  rcases inFront with single | inFront
  · refine .inl ⟨?_, ?_⟩
    · rw [take_eq_nil_iff]
      omega
    · rw [drop_eq_nil_iff]
      omega
  · exact .inr inFront

theorem Holds.othersAt {place : Nat} {other : Argument} (different : index ≠ place)
    (atPlace : data.args.args[place]? = some other) (root : NodeId)
    (isNode : other.early = some root ∨ other.late = some root) (part : List NodeId)
    (atPart : Forest p [root] part) : (∀ id ∈ part, id ∉ tree) ∧ ∀ named ∈ p.callsIn part, ¬ named = call := by
  refine (holds.withSplit atIndex).others isOpen loose atTree ?_ isNode atPart
  rcases Nat.lt_or_gt_of_ne different with later | earlier
  · apply mem_append_right
    apply mem_of_getElem? (i := place - (index + 1))
    rw [getElem?_drop, ← atPlace]
    congr 1
    omega
  · apply mem_append_left
    apply mem_of_getElem? (i := place)
    rw [getElem?_take_of_lt earlier, atPlace]

end Slot

end SlotsByIndex

-- A property of an argument that work on the other arguments cannot disturb.
def Framed (holds : Procedure → Argument → Prop) : Prop :=
  ∀ (p q : Procedure) (nodes : NodeId → Prop) (calls : CallId → Prop) (arg : Argument),
    holds p arg → Extends nodes calls p q →
    (∀ root, arg.early = some root ∨ arg.late = some root → ∀ part, Forest p [root] part →
      (∀ id ∈ part, ¬ nodes id) ∧ ∀ named ∈ p.callsIn part, ¬ calls named) →
    holds q arg

-- What is known of the arguments while a pass goes through them: of one whose turn is still to come,
-- and of one that came out of another.
structure Rounds where
  waiting : Procedure → Argument → Prop
  reached : Argument → Procedure → Argument → Prop
  waitingFramed : Framed waiting
  reachedFramed : ∀ before, Framed (reached before)

-- Some slots were gone through, each once; the others are as they were.
structure Progress (rounds : Rounds) (call : CallId) (data : Call) (touched : Nat → Prop)
    (p q : Procedure) (visited visited' : List NodeId) (args : List Argument)
    (copies : List LocalId) : Prop where
  passage : Passage call p q (data.withArgs args) visited visited' copies
  sameLength : args.length = data.args.args.length
  untouched : ∀ index : Nat, ¬ touched index → args[index]? = data.args.args[index]?
  waiting : ∀ (index : Nat) (arg : Argument), ¬ touched index → data.args.args[index]? = some arg →
    rounds.waiting q arg
  reached : ∀ (index : Nat) (before after : Argument), touched index →
    data.args.args[index]? = some before → args[index]? = some after → rounds.reached before q after

namespace Progress

variable {rounds : Rounds} {call : CallId} {data : Call} {touched : Nat → Prop} {p q r : Procedure}
  {seen seen' : List NodeId} {args : List Argument} {copies : List LocalId}

theorem start (holds : Holds p call data seen) (waiting : ∀ arg ∈ data.args.args, rounds.waiting p arg) :
    Progress rounds call data (fun _ => False) p p seen seen data.args.args [] where
  passage := Passage.refl holds
  sameLength := rfl
  untouched := fun _ _ => rfl
  waiting := fun _ arg _ atIndex => waiting arg (mem_of_getElem? atIndex)
  reached := fun _ _ _ mem => mem.elim

section Step

variable (progress : Progress rounds call data touched p q seen seen' args copies)

include progress

theorem skip (new : ¬ touched index) (atIndex : data.args.args[index]? = some arg)
    (here : rounds.reached arg q arg) :
    Progress rounds call data (fun other => other = index ∨ touched other) p q seen seen'
      (args.set index arg) copies := by
  have atArgs : args[index]? = some arg := (progress.untouched index new).trans atIndex
  have same : args.set index arg = args := by
    obtain ⟨bound, rfl⟩ := List.getElem?_eq_some_iff.mp atArgs
    exact List.set_getElem_self bound
  rw [same]
  refine { progress with
    untouched := fun other outside => progress.untouched other fun mem => outside (.inr mem)
    waiting := fun other before outside =>
      progress.waiting other before fun mem => outside (.inr mem)
    reached := fun other before after mem atBefore atAfter => ?_ }
  rcases mem with rfl | earlier
  · cases atIndex.symm.trans atBefore
    cases atArgs.symm.trans atAfter
    exact here
  · exact progress.reached other before after earlier atBefore atAfter

theorem step {after : Argument} {tree early late : List NodeId} {copies' : List LocalId}
    (valid : ∀ id ∈ seen, id < p.nodes.size) (isOpen : data.args.isMaterialized = false)
    (new : ¬ touched index) (atIndex : data.args.args[index]? = some arg) (loose : arg.late = none)
    (atTree : Forest q arg.early.toList tree) (slot : SlotStep call q r tree after early late copies')
    (now : r.calls[call]? = some (data.withArgs (args.set index after)))
    (inFront : args.length = 1 ∨ ∀ var ∈ r.storedIn tree, var ∈ r.storedIn early)
    (here : rounds.reached arg r after) :
    ∃ seen'', Progress rounds call data (fun other => other = index ∨ touched other) p r seen
      seen'' (args.set index after) (copies ++ copies') := by
  have atArgs : args[index]? = some arg := (progress.untouched index new).trans atIndex
  have bound : index < args.length := lt_length atArgs
  have holds := progress.passage.holds
  obtain ⟨seen'', passage⟩ := holds.slotAt isOpen atArgs loose atTree slot now inFront
  refine ⟨seen'', progress.passage.trans passage valid, by rw [List.length_set, progress.sameLength],
    ?_, ?_, ?_⟩
  · intro other outside
    rw [getElem?_set_ne fun same => outside (.inl same.symm)]
    exact progress.untouched other fun mem => outside (.inr mem)
  · intro other before outside atBefore
    have untouched : ¬ touched other := fun mem => outside (.inr mem)
    apply rounds.waitingFramed q r _ _ before (progress.waiting other before untouched atBefore) slot.grown
    exact holds.othersAt isOpen atArgs loose atTree (fun same => outside (.inl same.symm))
      ((progress.untouched other untouched).trans atBefore)
  · intro other before result mem atBefore atResult
    by_cases same : index = other
    · subst same
      rw [getElem?_set_self bound] at atResult
      cases atIndex.symm.trans atBefore
      cases atResult
      exact here
    · rw [getElem?_set_ne same] at atResult
      have earlier := mem.resolve_left fun here => same here.symm
      apply rounds.reachedFramed before q r _ _ result
        (progress.reached other before result earlier atBefore atResult) slot.grown
      exact holds.othersAt isOpen atArgs loose atTree same atResult

theorem touching {touched' : Nat → Prop} (same : ∀ index, touched' index ↔ touched index) :
    Progress rounds call data touched' p q seen seen' args copies := by
  have touchedEq : touched' = touched := funext fun index => propext (same index)
  rwa [touchedEq]

end Step

end Progress

end CallLowering
