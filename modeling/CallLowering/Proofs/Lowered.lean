import CallLowering.Lowering.Run
import CallLowering.Proofs.Holding
import CallLowering.Proofs.Pooling

/-!
What lowering makes of some trees: they keep their roots, nothing outside them changes, what they evaluate is
carried over, and below them the work is done.
-/

namespace CallLowering

open List

variable {seen roots more part : List NodeId} {p q proc : Procedure} {id found : NodeId} {calls : CallId → Prop}
  {nodes : NodeId → Prop} {bound : Nat} {var : LocalId}

structure Argument.Raw (arg : Argument) : Prop where
  present : arg.early.isSome = true
  loose : arg.late = none
  noTemp : arg.temp = none
  unpinned : arg.flags.needsTemp = false
  unplaced : arg.flags.needsPlace = false
  noRead : arg.flags.isTemp = false

structure Call.Fresh (data : Call) : Prop where
  stage : data.args.stage = .unfinalized
  raw : ∀ arg ∈ data.args.args, arg.Raw

def Fresh (proc : Procedure) (visited : List NodeId) : Prop :=
  ∀ call ∈ proc.callsIn visited, ∃ data, proc.calls[call]? = some data ∧ data.Fresh

theorem Fresh.subset (fresh : Fresh proc seen) (mem : ∀ id ∈ part, id ∈ seen) : Fresh proc part :=
  fun call named => fresh call (filterMap_subset _ mem named)

theorem Fresh.frame (fresh : Fresh p seen) (grown : Extends nodes calls p q)
    (valid : ∀ id ∈ seen, id < p.nodes.size) (callsApart : ∀ call ∈ p.callsIn seen, ¬ calls call) :
    Fresh q seen := by
  intro call named
  rw [grown.callsIn valid] at named
  obtain ⟨data, here, isFresh⟩ := fresh call named
  exact ⟨data, (grown.callKept call (callsApart call named)).trans here, isFresh⟩

namespace Procedure

def Recorded (proc : Procedure) (visited : List NodeId) (var : LocalId) : Prop :=
  ∃ call data arg, call ∈ proc.callsIn visited ∧ proc.calls[call]? = some data
    ∧ arg ∈ data.args.args ∧ arg.temp = some var

theorem Recorded.mono (recorded : proc.Recorded seen var) (mem : ∀ id ∈ seen, id ∈ more) :
    proc.Recorded more var := by
  obtain ⟨call, data, arg, named, rest⟩ := recorded
  exact ⟨call, data, arg, filterMap_subset _ mem named, rest⟩

theorem Recorded.frame (recorded : p.Recorded seen var) (grown : Extends nodes calls p q)
    (valid : ∀ id ∈ seen, id < p.nodes.size) (callsApart : ∀ call ∈ p.callsIn seen, ¬ calls call) :
    q.Recorded seen var := by
  obtain ⟨call, data, arg, named, here, rest⟩ := recorded
  refine ⟨call, data, arg, ?_, (grown.callKept call (callsApart call named)).trans here, rest⟩
  rw [grown.callsIn valid]
  exact named

-- A call that no other call contains, below a root.
inductive Outermost (proc : Procedure) : NodeId → NodeId → Prop where
  | here (id : NodeId) (call : CallId) (isCall : proc.callAt id = some call) : Outermost proc id id
  | under (id child found : NodeId) (kind : NodeKind) (isKind : proc.kindAt id = some kind)
      (isPlain : kind.call? = none) (isChild : child ∈ kind.children)
      (mem : Outermost proc child found) : Outermost proc id found

-- Locals below the bound were there before. The others are stored to once, before they are read,
-- and are temps for arguments or recorded with a call.
structure Sealed (proc : Procedure) (bound : Nat) (visited : List NodeId) : Prop where
  reads : proc.Reads (· < bound) visited
  storesOnce : ∀ var, bound ≤ var → (proc.storedIn visited).count var ≤ 1
  recorded : ∀ var ∈ proc.storedIn visited, bound ≤ var →
    proc.isArgTemp var = true ∨ proc.Recorded visited var

theorem Sealed.frame (isSealed : p.Sealed bound seen) (grown : Extends nodes calls p q)
    (valid : ∀ id ∈ seen, id < p.nodes.size) (callsApart : ∀ call ∈ p.callsIn seen, ¬ calls call) :
    q.Sealed bound seen where
  reads := (grown.reads _ valid).mpr isSealed.reads
  storesOnce := by
    rw [grown.storedIn valid]
    exact isSealed.storesOnce
  recorded := by
    rw [grown.storedIn valid]
    intro var held new
    rcases isSealed.recorded var held new with isTemp | recorded
    · exact .inl ((grown.isArgTemp (p.isArgTemp_bound isTemp)).trans isTemp)
    · exact .inr (recorded.frame grown valid callsApart)

-- These nodes mention and store to locals below the bound only.
def Within (proc : Procedure) (bound : Nat) (visited : List NodeId) : Prop :=
  ∀ id ∈ visited, ∀ var, proc.mentionAt id = some var ∨ proc.storeAt id = some var → var < bound

theorem Within.subset (within : proc.Within bound seen)
    (mem : ∀ id ∈ part, id ∈ seen) : proc.Within bound part :=
  fun id met => within id (mem id met)

theorem Within.kept (within : p.Within bound seen) (grown : Extends nodes calls p q)
    (valid : ∀ id ∈ seen, id < p.nodes.size) : q.Within bound seen := by
  intro id met
  rw [grown.mentionAt (valid id met), grown.storeAt (valid id met)]
  exact within id met

def Confined (proc : Procedure) (bound : Nat) (root : NodeId) : Prop :=
  ∀ id, proc.Outermost root id → ∃ part, Forest proc [id] part ∧ proc.Sealed bound part

theorem Outermost.member (outermost : proc.Outermost id found)
    (spans : Spans proc.owned roots seen) (met : id ∈ seen) : found ∈ seen := by
  induction outermost with
  | here id call isCall => exact met
  | under id child found kind isKind isPlain isChild _ ih =>
    rw [← proc.owned_of_kind isKind isPlain] at isChild
    exact ih (Spans.closed spans met isChild)

theorem Outermost.same (outermost : p.Outermost id found) (spans : Spans p.owned roots seen)
    (kinds : ∀ id ∈ seen, q.kindAt id = p.kindAt id) (met : id ∈ seen) : q.Outermost id found := by
  induction outermost with
  | here id call isCall =>
    refine .here id call (q.callAt_some_iff.mpr ?_)
    exact (kinds id met).trans (p.callAt_some_iff.mp isCall)
  | under id child found kind isKind isPlain isChild _ ih =>
    refine .under id child found kind ((kinds id met).trans isKind) isPlain isChild (ih ?_)
    rw [← p.owned_of_kind isKind isPlain] at isChild
    exact Spans.closed spans met isChild

theorem Confined.frame {root : NodeId} (confined : p.Confined bound root) (forest : Forest p roots seen)
    (isRoot : root ∈ roots) (grown : Extends nodes calls p q) (apart : ∀ id ∈ seen, ¬ nodes id)
    (callsApart : ∀ call ∈ p.callsIn seen, ¬ calls call) : q.Confined bound root := by
  intro id outermost
  have met := Spans.root_mem forest.spans isRoot
  have before := outermost.same (forest.frame grown apart callsApart).spans (fun other mem =>
    (grown.kindAt_outside (forest.valid other mem) (apart other mem)).symm) met
  obtain ⟨part, atPart, isSealed⟩ := confined id before
  have mem := Spans.part_subset forest.spans (before.member forest.spans met)
    atPart.spans
  have partCalls : ∀ call ∈ p.callsIn part, ¬ calls call := fun call named =>
    callsApart call (filterMap_subset _ mem named)
  exact ⟨part, atPart.frame grown (fun other inPart => apart other (mem other inPart)) partCalls,
    isSealed.frame grown atPart.valid partCalls⟩

def InCall (proc : Procedure) (roots : List NodeId) (id : NodeId) : Prop :=
  ∃ root ∈ roots, ∃ found part, proc.Outermost root found ∧ Forest proc [found] part ∧ id ∈ part

theorem InCall.mono (inCall : proc.InCall roots id) (mem : ∀ root ∈ roots, root ∈ more) : proc.InCall more id := by
  obtain ⟨root, isRoot, rest⟩ := inCall
  exact ⟨root, mem root isRoot, rest⟩

theorem InCall.frame (inCall : p.InCall roots id) (forest : Forest p roots seen)
    (grown : Extends nodes calls p q) (apart : ∀ id ∈ seen, ¬ nodes id)
    (callsApart : ∀ call ∈ p.callsIn seen, ¬ calls call) : q.InCall roots id := by
  obtain ⟨root, isRoot, found, part, outermost, atPart, inPart⟩ := inCall
  have met := Spans.root_mem forest.spans isRoot
  have mem := Spans.part_subset forest.spans (outermost.member forest.spans met)
    atPart.spans
  refine ⟨root, isRoot, found, part, outermost.same forest.spans (fun other mem =>
    grown.kindAt_outside (forest.valid other mem) (apart other mem)) met, ?_, inPart⟩
  exact atPart.frame grown (fun other inPart => apart other (mem other inPart))
    fun call named => callsApart call (filterMap_subset _ mem named)

end Procedure

namespace Edit

theorem refreshNode_same (done : refreshNode id p = .ok () q) :
    q.kindAt = p.kindAt ∧ q.calls = p.calls ∧ q.locals = p.locals := by
  obtain ⟨node, impact, here, _, rfl⟩ := refreshNode_ok done
  refine ⟨funext fun other => ?_, rfl, rfl⟩
  simp only [Procedure.kindAt, Procedure.setNode, Array.getElem?_setIfInBounds]
  by_cases same : id = other
  · subst same
    rw [if_pos rfl, if_pos (lt_size here), here]
    rfl
  · rw [if_neg same]

theorem refreshNode_exact (done : refreshNode id p = .ok () q)
    (outside : ∀ kind refs, p.kindAt id = some kind → p.references kind = .ok refs → id ∉ refs) : q.Exact id := by
  have grown := refreshNode_extends done
  obtain ⟨node, impact, here, computed, rfl⟩ := refreshNode_ok done
  have bound := lt_size here
  refine ⟨{ node with impact }, by simp [Procedure.setNode, bound], ?_⟩
  apply Procedure.impactOf_frame grown computed
  · exact fun _ _ => not_false
  · intro refs found other referred same
    exact outside node.kind refs (p.kindAt_of here rfl) found (same ▸ referred)

end Edit

-- The trees that visited `visited` in `p` are finished in `q` and visit `visited'` there.
structure Reworked (p q : Procedure) (roots visited visited' : List NodeId) (copies : List LocalId) :
    Prop where
  grown : Extends (· ∈ visited) (· ∈ p.callsIn visited) p q
  forest : Forest q roots visited'
  carries : Carries p q visited visited' copies
  done : Done q visited'

namespace Reworked

variable {p m q : Procedure} {roots roots' a a' b b' below below' : List NodeId} {id : NodeId}
  {copies copies' : List LocalId}

theorem nil (proc : Procedure) : Reworked proc proc [] [] [] [] where
  grown := Extends.refl
  forest := Forest.nil _
  carries := Carries.refl _ _
  done := Done.nil _

theorem apart (reworked : Reworked p m roots a a' copies) (validA : ∀ id ∈ a, id < p.nodes.size)
    (validB : ∀ id ∈ b, id < p.nodes.size) (apart : a.Disjoint b)
    (callsApart : (p.callsIn a).Disjoint (p.callsIn b)) : a'.Disjoint b ∧ (m.callsIn a').Disjoint (m.callsIn b) := by
  refine ⟨reworked.carries.disjoint apart validB, fun call inA inB => ?_⟩
  rw [reworked.carries.mem_callsIn reworked.grown validA] at inA
  rw [reworked.grown.callsIn validB] at inB
  exact callsApart inA inB

theorem stays (left : Reworked p m roots a a' copies) (right : Reworked m q roots' b b' copies')
    (others : Forest p roots' b) (apart' : a'.Disjoint b) (callsApart' : (m.callsIn a').Disjoint (m.callsIn b)) :
    Forest q roots a' ∧ Done q a' ∧ a'.Disjoint b' ∧ (q.callsIn a').Disjoint (q.callsIn b') := by
  have outside : ∀ id ∈ a', id ∉ b := fun id inA inB => apart' inA inB
  have callsOutside : ∀ call ∈ m.callsIn a', call ∉ m.callsIn b := fun call inA inB =>
    callsApart' inA inB
  have validB : ∀ id ∈ b, id < m.nodes.size := fun id met =>
    Nat.lt_of_lt_of_le (others.valid id met) left.grown.size_le
  obtain ⟨nodes, calls⟩ := right.apart validB left.forest.valid (fun id inB inA => apart' inA inB)
    (fun call inB inA => callsApart' inA inB)
  exact ⟨left.forest.frame right.grown outside callsOutside,
    left.done.frame left.forest right.grown outside callsOutside,
    fun id inA inB => nodes inB inA, fun call inA inB => calls inB inA⟩

theorem reach (left : Reworked p m roots a a' copies) (right : Reworked m q roots' b b' copies')
    (others : Forest p roots' b) : Extends (fun id => id ∈ a ∨ id ∈ b)
    (fun call => call ∈ p.callsIn a ∨ call ∈ p.callsIn b) p q := by
  refine (left.grown.mono (fun _ => .inl) (fun _ => .inl)).trans right.grown
    (fun _ mem _ => .inr mem) fun call named => .inr ?_
  rwa [left.grown.callsIn others.valid] at named

section Beside

variable (left : Reworked p m roots a a' copies) (right : Reworked m q roots' b b' copies')
  (forest : Forest p roots a) (others : Forest p roots' b) (apart' : a'.Disjoint b)
  (callsApart' : (m.callsIn a').Disjoint (m.callsIn b))

include left right forest others apart' callsApart'

theorem append : Reworked p q (roots ++ roots') (a ++ b) (a' ++ b') (copies ++ copies') := by
  obtain ⟨stays, finished, last, callsLast⟩ := left.stays right others apart' callsApart'
  refine ⟨?_, stays.append right.forest last callsLast, ?_, finished.append right.done⟩
  · simpa only [mem_append, p.callsIn_append] using left.reach right others
  · exact left.carries.beside right.carries left.grown right.grown forest.valid left.forest.valid
      others.valid

theorem prepend : Reworked p q (roots' ++ roots) (b ++ a) (b' ++ a') (copies ++ copies') := by
  obtain ⟨stays, finished, last, callsLast⟩ := left.stays right others apart' callsApart'
  refine ⟨?_, right.forest.append stays (fun id inB inA => last inA inB)
    (fun call inB inA => callsLast inA inB), ?_, right.done.append finished⟩
  · refine (left.reach right others).mono (fun id mem => ?_) (fun call named => ?_)
    · exact mem_append.mpr mem.symm
    · rw [p.callsIn_append]
      exact mem_append.mpr named.symm
  · have first : Carries p m (b ++ a) (b ++ a') copies := by
      simpa only [append_nil] using left.carries.within b []
    refine first.trans (right.carries.within [] a') left.grown right.grown ?_ ?_
    · intro id met
      exact (mem_append.mp met).elim (others.valid id) (forest.valid id)
    · intro id met
      exact (mem_append.mp met).elim (fun inB => Nat.lt_of_lt_of_le (others.valid id inB)
        left.grown.size_le) (left.forest.valid id)

end Beside

theorem withTop (forest : Forest p [id] (below ++ [id]))
    (grown : Extends (· ∈ below) (· ∈ p.callsIn (below ++ [id])) p m)
    (under : Forest m (m.owned id) below') (carries : Carries p m below below' copies) (done : Done m below')
    (settled : ∀ call, m.callAt id = some call → ∃ data, m.calls[call]? = some data ∧ data.Settled
      ∧ ∀ arg ∈ data.args.args, arg.OwnsTemp m) (refreshed : Edit.refreshNode id m = .ok () q) :
    Reworked p q [id] (below ++ [id]) (below' ++ [id]) copies := by
  have bound : id < p.nodes.size := forest.valid id (by simp)
  have validBelow : ∀ other ∈ below, other < p.nodes.size := fun other met =>
    forest.valid other (mem_append_left _ met)
  obtain ⟨_, parts, _, outside, callOutside⟩ := forest.atRoot
  cases append_cancel_right parts
  have outside' : id ∉ below' := fun mem =>
    (carries.new id mem).elim outside (fun new => Nat.lt_irrefl _ (Nat.lt_of_lt_of_le bound new))
  have callOutside' : ∀ call, m.callAt id = some call → call ∉ m.callsIn below' := by
    intro call named mem
    rw [carries.mem_callsIn grown validBelow] at mem
    exact callOutside call ((grown.callAt bound).symm.trans named) mem
  have tree : Forest m [id] (below' ++ [id]) :=
    under.root (Nat.lt_of_lt_of_le bound grown.size_le) outside' callOutside'
  obtain ⟨sameKinds, sameCalls, sameLocals⟩ := Edit.refreshNode_same refreshed
  have grown' := Edit.refreshNode_extends refreshed
  have apart : ∀ other ∈ below', ¬ other = id := fun other mem same => outside' (same ▸ mem)
  have sameOwned : q.owned = m.owned := Procedure.owned_congr sameKinds sameCalls
  refine ⟨?_, ?_, ?_, ?_⟩
  · apply (grown.mono _ (fun _ named => named)).trans grown'
    · rintro other rfl _
      simp
    · exact fun _ => False.elim
    · intro other mem
      simp [mem]
  · refine ⟨sameOwned ▸ tree.spans, tree.once, ?_, fun other met =>
      Nat.lt_of_lt_of_le (tree.valid other met) grown'.size_le⟩
    rw [grown'.callsIn tree.valid]
    exact tree.callsOnce
  · have carried := (carries.within [] [id]).later sameKinds sameLocals
    rwa [nil_append, nil_append] at carried
  · refine (done.frame under grown' apart (fun _ _ => not_false)).append ⟨?_, ?_⟩
    · intro other met
      cases mem_singleton.mp met
      apply Edit.refreshNode_exact refreshed
      intro kind refs here found referred
      have owned := m.references_owned here (fun call named => by
        obtain ⟨data, atCall, settled, _⟩ := settled call named
        exact ⟨data, atCall, settled⟩) found referred
      exact outside' (Spans.root_mem under.spans owned)
    · intro call named
      obtain ⟨other, met, named⟩ := mem_filterMap.mp named
      cases mem_singleton.mp met
      rw [grown'.callAt (Nat.lt_of_lt_of_le bound grown.size_le)] at named
      obtain ⟨data, atCall, settled, owns⟩ := settled call named
      exact ⟨data, sameCalls ▸ atCall, settled, fun arg mem => (owns arg mem).kept grown'⟩

theorem isSealed (reworked : Reworked p q roots a a' copies) (valid : ∀ id ∈ a, id < p.nodes.size)
    (within : p.Within bound a) (once : copies.Nodup) (areCopies : ∀ var ∈ copies, ∃ ty, q.IsCopy var ty)
    (recorded : ∀ var ∈ copies, q.Recorded a' var) : q.Sealed bound a' := by
  have within := within.kept reworked.grown valid
  have oldStores : ∀ var, bound ≤ var → var ∉ q.storedIn a := by
    intro var new held
    obtain ⟨id, met, atId⟩ := mem_filterMap.mp held
    exact Nat.lt_irrefl _ (Nat.lt_of_le_of_lt new (within id met var (.inr atId)))
  have stores := reworked.carries.storedIn
  refine ⟨?_, ?_, ?_⟩
  · apply reworked.carries.reads
    apply q.reads_of_known
    exact fun id met var mentioned => within id met var (.inl mentioned)
  · intro var new
    have tempsOnce := nodup_iff_count_le_one.mp (q.tempsFrom_nodup p.locals.size) var
    have copiesOnce := nodup_iff_count_le_one.mp once var
    have noOld := count_eq_zero.mpr (oldStores var new)
    have apart : (q.tempsFrom p.locals.size).count var = 0 ∨ copies.count var = 0 := by
      by_cases isCopy : var ∈ copies
      · obtain ⟨ty, isCopy⟩ := areCopies var isCopy
        refine .inl (count_eq_zero.mpr fun isTemp => ?_)
        exact Bool.false_ne_true (isCopy.notArgTemp.symm.trans (q.tempsFrom_isArgTemp isTemp))
      · exact .inr (count_eq_zero.mpr isCopy)
    rw [stores.count_eq, count_append, count_append]
    omega
  · intro var held new
    rcases mem_append.mp (stores.mem_iff.mp held) with old | made
    · exact absurd old (oldStores var new)
    · rcases mem_append.mp made with isTemp | isCopy
      · exact .inl (q.tempsFrom_isArgTemp isTemp)
      · exact .inr (recorded var isCopy)

end Reworked

-- The struct copies that were taken are recorded with the calls they were taken for.
structure Accounted (s t : LoweringState) (roots visited visited' : List NodeId)
    (copies : List LocalId) : Prop extends
    Reworked s.proc t.proc roots visited visited' copies where
  areCopies : ∀ var ∈ copies, ∃ ty, t.proc.IsCopy var ty
  recorded : ∀ var ∈ copies, t.proc.Recorded visited' var
  sound : t.pool.Sound t.proc
  holding : CopyPool.Holding s.pool t.pool copies

structure Lowered (s t : LoweringState) (roots visited visited' : List NodeId)
    (copies : List LocalId) : Prop extends Accounted s t roots visited visited' copies where
  inCalls : ∀ id ∈ visited', id ∈ visited ∨ t.proc.InCall roots id
  confined : s.pool.scopes = [] → ∀ bound, s.proc.Within bound visited →
    ∀ root ∈ roots, t.proc.Confined bound root

def Lowers (lower : NodeId → Step Unit) : Prop :=
  ∀ (id : NodeId) (s t : LoweringState) (visited : List NodeId), Forest s.proc [id] visited →
    Fresh s.proc visited → s.pool.Sound s.proc → lower id s = .ok () t →
    ∃ visited' copies, Lowered s t [id] visited visited' copies

section Beside

variable {s m t : LoweringState} {roots roots' a a' b b' : List NodeId} {copies copies' : List LocalId}

theorem Accounted.nil (sound : s.Sound) :
    Accounted s s [] [] [] [] where
  toReworked := Reworked.nil s.proc
  areCopies := by simp
  recorded := by simp
  sound := sound
  holding := CopyPool.holding_refl

theorem Accounted.later {t' : LoweringState} (accounted : Accounted s t roots a a' copies)
    (sameProc : t'.proc = t.proc) (samePool : t'.pool = t.pool) : Accounted s t' roots a a' copies := by
  obtain ⟨reworked, areCopies, recorded, sound, holding⟩ := accounted
  rw [← sameProc] at reworked areCopies recorded sound
  rw [← samePool] at sound holding
  exact ⟨reworked, areCopies, recorded, sound, holding⟩

section Composition

variable (left : Accounted s m roots a a' copies) (right : Accounted m t roots' b b' copies')
  (forest : Forest s.proc roots a) (others : Forest s.proc roots' b) (apart : a.Disjoint b)
  (callsApart : (s.proc.callsIn a).Disjoint (s.proc.callsIn b))

include left right forest others apart callsApart

theorem Accounted.beside {every seen seen' : List NodeId}
    (reworked : Reworked s.proc t.proc every seen seen' (copies ++ copies'))
    (whole : ∀ id, id ∈ a' ∨ id ∈ b' → id ∈ seen') : Accounted s t every seen seen' (copies ++ copies') where
  toReworked := reworked
  areCopies := fun var held => (mem_append.mp held).elim (fun first => by
    obtain ⟨ty, isCopy⟩ := left.areCopies var first
    exact ⟨ty, isCopy.kept right.grown⟩) (right.areCopies var)
  recorded := fun var held => by
    obtain ⟨_, callsApart'⟩ := left.apart forest.valid others.valid apart callsApart
    rcases mem_append.mp held with first | second
    · exact ((left.recorded var first).frame right.grown left.forest.valid fun call inA inB =>
        callsApart' inA inB).mono fun id mem => whole id (.inl mem)
    · exact (right.recorded var second).mono fun id mem => whole id (.inr mem)
  sound := right.sound
  holding := CopyPool.holding_trans left.holding right.holding

theorem Accounted.append : Accounted s t (roots ++ roots') (a ++ b) (a' ++ b') (copies ++ copies') := by
  obtain ⟨apart', callsApart'⟩ := left.apart forest.valid others.valid apart callsApart
  exact left.beside right forest others apart callsApart
    (left.toReworked.append right.toReworked forest others apart' callsApart') fun _ => mem_append.mpr

theorem Accounted.prepend : Accounted s t (roots' ++ roots) (b ++ a) (b' ++ a') (copies ++ copies') := by
  obtain ⟨apart', callsApart'⟩ := left.apart forest.valid others.valid apart callsApart
  exact left.beside right forest others apart callsApart
    (left.toReworked.prepend right.toReworked forest others apart' callsApart') fun _ mem => mem_append.mpr mem.symm

end Composition

end Beside

namespace Lowered

variable {s m t : LoweringState} {roots roots' a a' b b' : List NodeId} {copies copies' : List LocalId}

theorem append (left : Lowered s m roots a a' copies) (right : Lowered m t roots' b b' copies')
    (forest : Forest s.proc roots a) (others : Forest s.proc roots' b) (apart : a.Disjoint b)
    (callsApart : (s.proc.callsIn a).Disjoint (s.proc.callsIn b)) :
    Lowered s t (roots ++ roots') (a ++ b) (a' ++ b') (copies ++ copies') := by
  refine ⟨left.toAccounted.append right.toAccounted forest others apart callsApart, ?_, ?_⟩
  all_goals obtain ⟨apart', callsApart'⟩ := left.apart forest.valid others.valid apart callsApart
  · intro id met
    rcases mem_append.mp met with inA | inB
    · refine (left.inCalls id inA).imp (fun old => mem_append_left _ old) fun inCall => ?_
      exact (inCall.frame left.forest right.grown (fun id inA inB => apart' inA inB)
        (fun call inA inB => callsApart' inA inB)).mono fun root isRoot => mem_append_left _ isRoot
    · refine (right.inCalls id inB).imp (fun old => mem_append_right _ old) fun inCall => ?_
      exact inCall.mono fun root isRoot => mem_append_right _ isRoot
  intro outermost bound within root isRoot
  rcases mem_append.mp isRoot with first | second
  · have inA := within.subset fun id mem => mem_append_left b mem
    exact (left.confined outermost bound inA root first).frame left.forest first right.grown
      (fun id inA inB => apart' inA inB) (fun call inA inB => callsApart' inA inB)
  · have stillOutermost : m.pool.scopes = [] := by
      rw [left.holding, outermost]
      rfl
    have inB := (within.subset fun id mem => mem_append_right a mem).kept left.grown
      others.valid
    exact right.confined stillOutermost bound inB root second

theorem each {lower : NodeId → Step Unit} (lowers : Lowers lower) (s : LoweringState) (seen : List NodeId)
    (forest : Forest s.proc roots seen) (fresh : Fresh s.proc seen) (sound : s.Sound)
    (done : roots.forM lower s = .ok () t) : ∃ seen' copies, Lowered s t roots seen seen' copies := by
  induction roots generalizing s seen with
  | nil =>
    cases forest.spans
    obtain ⟨_, rfl⟩ := pure_ok_iff.mp done
    exact ⟨[], [], Accounted.nil sound, by simp, by simp⟩
  | cons root rest ih =>
    obtain ⟨a, b, rfl, atRoot, others, apart, callsApart⟩ := forest.split [root] rest
    simp only [forM_eq_forM, forM_cons, bind_ok_iff] at done
    obtain ⟨_, m, first, later⟩ := done
    obtain ⟨a', copies, left⟩ := lowers root s m a atRoot
      (fresh.subset fun id mem => mem_append_left _ mem) sound first
    have outside : ∀ id ∈ b, id ∉ a := fun id inB inA => apart inA inB
    have callsOutside : ∀ call ∈ s.proc.callsIn b, call ∉ s.proc.callsIn a := fun call inB inA =>
      callsApart inA inB
    obtain ⟨b', copies', right⟩ := ih m b (others.frame left.grown outside callsOutside)
      ((fresh.subset fun id mem => mem_append_right _ mem).frame left.grown others.valid
        callsOutside) left.sound later
    exact ⟨a' ++ b', copies ++ copies', left.append right atRoot others apart callsApart⟩

theorem plain {kind : NodeKind} {below below' : List NodeId}
    (lowered : Lowered s m kind.children below below' copies) (forest : Forest s.proc [id] (below ++ [id]))
    (here : s.proc.kindAt id = some kind) (isPlain : kind.call? = none)
    (refreshed : Edit.refreshNode id m.proc = .ok () t.proc) (samePool : t.pool = m.pool) :
    Lowered s t [id] (below ++ [id]) (below' ++ [id]) copies := by
  obtain ⟨_, parts, _, outside⟩ := forest.plain here isPlain
  cases append_cancel_right parts
  have bound := forest.valid id (by simp)
  have there : m.proc.kindAt id = some kind :=
    (lowered.grown.kindAt_outside bound outside).trans here
  have notCall : m.proc.callAt id = none := (m.proc.callAt_eq there).trans isPlain
  have grown := Edit.refreshNode_extends refreshed
  have now : t.proc.kindAt id = some kind := (congrFun (Edit.refreshNode_same refreshed).1 id).trans there
  have under : Forest m.proc (m.proc.owned id) below' := by
    rw [m.proc.owned_of_kind there isPlain]
    exact lowered.forest
  have apart : ∀ other ∈ below', ¬ other = id := fun other mem same =>
    (lowered.carries.new other mem).elim (fun old => outside (same ▸ old)) fun new =>
      Nat.lt_irrefl _ (Nat.lt_of_lt_of_le bound (same ▸ new))
  refine ⟨⟨Reworked.withTop forest (lowered.grown.mono (fun _ mem => mem) ?_) under lowered.carries
    lowered.done ?_ refreshed, ?_, ?_, ?_, ?_⟩, ?_, ?_⟩
  · intro call named
    rw [s.proc.callsIn_append]
    exact mem_append_left _ named
  · intro call named
    rw [notCall] at named
    cases named
  · intro var held
    obtain ⟨ty, isCopy⟩ := lowered.areCopies var held
    exact ⟨ty, isCopy.kept grown⟩
  · intro var held
    exact ((lowered.recorded var held).frame grown lowered.forest.valid (fun _ _ => not_false)).mono
      fun other mem => mem_append_left _ mem
  · rw [samePool]
    exact lowered.sound.kept grown
  · rw [samePool]
    exact lowered.holding
  · intro other met
    rcases mem_append.mp met with mem | last
    · refine (lowered.inCalls other mem).imp (fun old => mem_append_left _ old) fun inCall => ?_
      obtain ⟨child, isChild, found, part, outermost, rest⟩ :=
        inCall.frame lowered.forest grown apart (fun _ _ => not_false)
      exact ⟨id, by simp, found, part, .under id child found kind now isPlain isChild outermost, rest⟩
    · exact .inl (mem_append_right _ last)
  · intro outermost limit within root isRoot
    cases mem_singleton.mp isRoot
    have confined := lowered.confined outermost limit
      (within.subset fun other mem => mem_append_left _ mem)
    intro found isOutermost
    cases isOutermost with
    | here _ call isCall =>
      rw [grown.callAt (m.proc.kindAt_lt there), notCall] at isCall
      cases isCall
    | under _ child _ same isKind _ isChild mem =>
      cases now.symm.trans isKind
      exact (confined child isChild).frame lowered.forest isChild grown apart (fun _ _ => not_false)
        found mem

end Lowered

end CallLowering
