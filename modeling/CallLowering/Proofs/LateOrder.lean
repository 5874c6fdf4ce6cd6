import CallLowering.Proofs.MaterializedTrees

/-!
The late order puts the late trees of a call in another order. That reorders nothing that matters:
the late trees store to no local, or there is only one of them.
-/

namespace CallLowering

open List

variable {order : List Nat} {p q : Procedure} {args : List Argument} {data : Call} {seen : List NodeId}
  {id : CallId}

theorem Carries.reorder (front rest : List NodeId) {middle middle' : List NodeId}
    (perm : middle.Perm middle') (storeless : p.storedIn middle = []) :
    Carries p p (front ++ middle ++ rest) (front ++ middle' ++ rest) [] where
  new := fun id met => .inl (((perm.append_left front).append_right rest).mem_iff.mpr met)
  acts := by
    refine ⟨[], ?_, by simp, by simp [p.tempsFrom_self]⟩
    rw [append_nil]
    exact (((perm.append_left front).append_right rest).filter _).symm
  reads := fun known reads => by
    have storeless' : p.storedIn middle' = [] := by
      have same : (p.storedIn middle).Perm (p.storedIn middle') := perm.filterMap p.storeAt
      rw [storeless] at same
      exact nil_perm.mp same
    rw [p.reads_append, p.reads_append] at reads ⊢
    obtain ⟨⟨inFront, inMiddle⟩, inRest⟩ := reads
    rw [p.reads_quiet_iff _ storeless] at inMiddle
    rw [p.storedIn_append, storeless] at inRest
    refine ⟨⟨inFront, (p.reads_quiet_iff _ storeless').mpr fun id met => ?_⟩, ?_⟩
    · exact inMiddle id (perm.mem_iff.mpr met)
    · rw [p.storedIn_append, storeless']
      exact inRest

theorem range_filterMap {α β : Type} (items : List α) (f : α → Option β) :
    ((List.range items.length).filterMap fun index => items[index]?.bind f) = items.filterMap f := by
  induction items with
  | nil => rfl
  | cons head rest ih =>
    rw [length_cons, range_succ_eq_map, filterMap_cons, filterMap_map,
      filterMap_cons]
    have shifted : ((fun index => (head :: rest)[index]?.bind f) ∘ Nat.succ)
        = fun index => rest[index]?.bind f := by
      funext index
      simp
    rw [shifted, ih]
    simp

theorem Forest.storeless {roots : List NodeId} (forest : Forest p roots seen)
    (each : ∀ root ∈ roots, ∃ part, Forest p [root] part ∧ p.storedIn part = []) : p.storedIn seen = [] := by
  induction roots generalizing seen with
  | nil =>
    cases forest.spans
    rfl
  | cons root rest ih =>
    obtain ⟨first, behind, rfl, atRoot, atRest, _⟩ := forest.split [root] rest
    obtain ⟨part, atPart, storeless⟩ := each root (by simp)
    cases Spans.unique atRoot.spans atPart.spans
    rw [p.storedIn_append, storeless, ih atRest fun other mem => each other (by simp [mem])]
    rfl

namespace Materialize

open Edit

theorem late_perm (everyone : order.Perm (List.range args.length)) :
    (args.filterMap Argument.late).Perm
      ((order.filter (hasLate args)).filterMap fun index => args[index]?.bind Argument.late) := by
  have filtered : (order.filter (hasLate args)).filterMap (fun index => args[index]?.bind Argument.late)
      = order.filterMap fun index => args[index]?.bind Argument.late := by
    rw [filterMap_filter]
    apply filterMap_congr
    intro index _
    cases atIndex : args[index]? with
    | none => simp [hasLate, atIndex]
    | some arg =>
      cases late : arg.late with
      | none => simp [hasLate, atIndex, late]
      | some node => simp [hasLate, atIndex, late]
  rw [filtered, ← range_filterMap]
  exact (everyone.symm.filterMap _)

def marked (data : Call) (args : List Argument) (order : List Nat) : Call :=
  { data with args :=
    { data.args with args, lateOrder := order.filter (hasLate args), stage := .materialized } }

theorem marked_passage (holds : Holds p id (data.withArgs args) seen)
    (isOpen : data.args.isMaterialized = false) (everyone : order.Perm (List.range args.length))
    (storeless : args.length ≤ 1 ∨ ∀ arg ∈ args, ∀ late, arg.late = some late →
      ∃ part, Forest p [late] part ∧ p.storedIn part = []) (set : q = p.setCall id (marked data args order)) :
    ∃ seen', Passage id p q (marked data args order) seen seen' [] := by
  have lates := late_perm everyone
  have ownedBefore : (data.withArgs args).owned = args.filterMap Argument.early
      ++ args.filterMap Argument.late ++ (data.ownCookie ++ data.target.node?.toList) := by
    have stillOpen : (data.withArgs args).args.isMaterialized = false := isOpen
    rw [Call.owned, Call.lateNodes, stillOpen, append_assoc]
    rfl
  have ownedAfter : (marked data args order).owned = args.filterMap Argument.early
      ++ ((order.filter (hasLate args)).filterMap fun index => args[index]?.bind Argument.late)
      ++ (data.ownCookie ++ data.target.node?.toList) := by
    rw [← append_assoc]
    rfl
  have forest := holds.forest
  rw [ownedBefore] at forest
  obtain ⟨reordered, after, perm⟩ := forest.reorder ((lates.append_left _).append_right _)
  obtain ⟨both, rest, same, parts, atRest, _⟩ := forest.split _ _
  obtain ⟨early, late, rfl, atEarly, atLate, _⟩ := parts.split _ _
  obtain ⟨late', atLate', latePerm⟩ := atLate.reorder lates
  have reorderedEq : reordered = early ++ late' ++ rest :=
    Spans.unique after.spans (Spans.append (Spans.append atEarly.spans atLate'.spans) atRest.spans)
  refine ⟨reordered, Passage.relabel holds set (ownedAfter ▸ after) ?_ fun node met => perm.mem_iff.mpr met⟩
  rw [same, reorderedEq]
  rcases storeless with single | storeless
  · -- At most one late node is in one order only.
    have few : (args.filterMap Argument.late).length ≤ 1 :=
      Nat.le_trans (length_filterMap_le _ _) single
    have sameLates : args.filterMap Argument.late
        = (order.filter (hasLate args)).filterMap fun index => args[index]?.bind Argument.late := by
      generalize args.filterMap Argument.late = before at few lates
      cases before with
      | nil => exact (nil_perm.mp lates).symm
      | cons only rest =>
        obtain rfl : rest = [] := eq_nil_of_length_eq_zero (Nat.le_zero.mp (Nat.le_of_succ_le_succ few))
        exact singleton_perm.mp lates
    rw [← sameLates] at atLate'
    cases Spans.unique atLate.spans atLate'.spans
    exact Carries.refl p _
  · apply Carries.reorder early rest latePerm
    apply atLate.storeless
    intro root isRoot
    obtain ⟨arg, mem, isLate⟩ := mem_filterMap.mp isRoot
    exact storeless arg mem root isLate

theorem marked_settled (everyone : order.Perm (List.range args.length)) (noCookie : data.ownCookie = []) :
    (marked data args order).Settled where
  materialized := rfl
  noCookie := noCookie
  covered := fun index arg atIndex isLate => by
    have bound := lt_length atIndex
    refine List.mem_filter.mpr ⟨everyone.mem_iff.mpr (List.mem_range.mpr bound), ?_⟩
    have atIndex : args[index]? = some arg := atIndex
    simp [hasLate, atIndex, isLate]
  bounded := fun index mem =>
    mem_range.mp (everyone.mem_iff.mp (mem_filter.mp mem).1)

-- The way of a call through its materialization, and what the rounds established on it.
structure Materialized (settings : Settings) (id : CallId) (data : Call) (rounds : Rounds)
    (order : List Nat) (p q : Procedure) (visited visited' : List NodeId) (args : List Argument) :
    Prop where
  passage : Passage id p q (marked data args order) visited visited' []
  sameLength : args.length = data.args.args.length
  reached : ∀ (index : Nat) (before after : Argument), data.args.args[index]? = some before →
    args[index]? = some after → rounds.reached before q after

theorem materialize_trees {settings : Settings} {rounds : Rounds}
    (holds : Holds p id data seen) (settling : Settling settings id data rounds)
    (waiting : ∀ arg ∈ data.args.args, rounds.waiting p arg)
    (everyone : order.Perm (List.range data.args.args.length))
    (storeless : data.args.args.length ≤ 1 ∨ ∀ before proc after late, rounds.reached before proc after →
      after.late = some late → ∃ part, Forest proc [late] part ∧ proc.storedIn part = [])
    (done : materialize settings id order p = .ok () q) :
    ∃ seen' args, Materialized settings id data rounds order p q seen seen' args := by
  obtain ⟨_, late, m, ran, set⟩ := materialize_steps holds.here done
  have bounded : ∀ index ∈ order, index < data.args.args.length := fun index mem =>
    mem_range.mp (everyone.mem_iff.mp mem)
  obtain ⟨visited₁, args, progress, listed, _⟩ := materializeArgs_progress settling late
    (everyone.nodup_iff.mpr nodup_range)
    (Progress.start holds waiting) holds.forest.valid (fun _ _ => not_false) bounded ran
  have set := set args progress.passage.holds.here
  rw [listed] at set
  have touched : ∀ (index : Nat) (before after : Argument), data.args.args[index]? = some before →
      args[index]? = some after → rounds.reached before m after := by
    intro index before after atBefore atAfter
    have bound := lt_length atBefore
    have inOrder : index ∈ order := everyone.mem_iff.mpr (List.mem_range.mpr bound)
    exact progress.reached index before after (.inl inOrder) atBefore atAfter
  have source : ∀ (index : Nat) (after : Argument), args[index]? = some after →
      ∃ before, data.args.args[index]? = some before := fun index after atAfter =>
    ⟨_, List.getElem?_eq_getElem (progress.sameLength ▸ (lt_length atAfter))⟩
  have everyone' : order.Perm (List.range args.length) := progress.sameLength ▸ everyone
  obtain ⟨visited₂, marking⟩ := marked_passage progress.passage.holds
    settling.isOpen everyone' (by
      rw [progress.sameLength]
      refine storeless.imp_right fun storeless after mem late isLate => ?_
      obtain ⟨index, atIndex⟩ := getElem?_of_mem mem
      obtain ⟨before, atBefore⟩ := source index after atIndex
      exact storeless before m after late (touched index before after atBefore atIndex) isLate) set
  have passage := progress.passage.trans marking holds.forest.valid
  refine ⟨visited₂, args, passage, progress.sameLength, fun index before after atBefore atAfter => ?_⟩
  have grown := setCall_extends set
  apply rounds.reachedFramed before m q _ _ after (touched index before after atBefore atAfter) grown
  intro root isNode part atPart
  have apart := progress.passage.holds.notUnder settling.isOpen (mem_of_getElem? atAfter) isNode
    atPart
  exact ⟨fun _ _ => not_false, fun named mem same => apart (same ▸ mem)⟩

end Materialize

end CallLowering
