import CallLowering.Proofs.Forest
import Mathlib.Data.List.Perm.Basic

/-! What a rewrite of some trees has to account for. -/

namespace CallLowering

open Procedure

open List

variable {p q r proc : Procedure} {copies copies' : List LocalId}
  {after before tree a b early late seen : List NodeId} {var : LocalId} {calls calls' : CallId → Prop}
  {nodes nodes' : NodeId → Prop} {ty : ValueType} {start : Nat}

namespace Procedure

-- Going through the nodes in order, a local is mentioned only if it is known or was stored before.
def Reads (proc : Procedure) : (LocalId → Prop) → List NodeId → Prop
  | _, [] => True
  | known, id :: rest => (∀ var, proc.mentionAt id = some var → known var)
    ∧ proc.Reads (fun var => known var ∨ proc.storeAt id = some var) rest

theorem reads_mono (proc : Procedure) (known more : LocalId → Prop)
    (weaker : ∀ var, known var → more var) (reads : proc.Reads known seen) : proc.Reads more seen := by
  induction seen generalizing known more with
  | nil => trivial
  | cons id rest ih =>
    refine ⟨fun var mentioned => weaker var (reads.1 var mentioned), ?_⟩
    exact ih _ _ (fun var either => either.imp_left (weaker var)) reads.2

theorem reads_append (proc : Procedure) (known : LocalId → Prop) (a b : List NodeId) :
    proc.Reads known (a ++ b)
      ↔ proc.Reads known a ∧ proc.Reads (fun var => known var ∨ var ∈ proc.storedIn a) b := by
  induction a generalizing known with
  | nil => simp [Reads, storedIn]
  | cons id rest ih =>
    have sameKnown : (fun var => (known var ∨ proc.storeAt id = some var) ∨ var ∈ proc.storedIn rest)
        = fun var => known var ∨ var ∈ proc.storedIn (id :: rest) := by
      funext var
      simp only [storedIn, mem_filterMap, mem_cons, exists_eq_or_imp, or_assoc]
    rw [cons_append]
    simp only [Reads, ih, sameKnown, and_assoc]

theorem reads_congr (p q : Procedure) (known : LocalId → Prop) (seen : List NodeId)
    (mentions : ∀ id ∈ seen, q.mentionAt id = p.mentionAt id)
    (stores : ∀ id ∈ seen, q.storeAt id = p.storeAt id) : q.Reads known seen ↔ p.Reads known seen := by
  induction seen generalizing known with
  | nil => exact Iff.rfl
  | cons id rest ih =>
    simp only [Reads, mentions id (by simp), stores id (by simp)]
    rw [ih _ (fun other met => mentions other (by simp [met]))
      (fun other met => stores other (by simp [met]))]

theorem reads_of_known (proc : Procedure) (known : LocalId → Prop) (seen : List NodeId)
    (each : ∀ id ∈ seen, ∀ var, proc.mentionAt id = some var → known var) : proc.Reads known seen := by
  induction seen generalizing known with
  | nil => trivial
  | cons id rest ih =>
    refine ⟨each id (by simp), ih _ fun other met var mentioned => ?_⟩
    exact .inl (each other (by simp [met]) var mentioned)

theorem reads_quiet_iff (proc : Procedure) (known : LocalId → Prop) (quiet : proc.storedIn seen = []) :
    proc.Reads known seen
      ↔ ∀ id ∈ seen, ∀ var, proc.mentionAt id = some var → known var := by
  refine ⟨fun reads => ?_, proc.reads_of_known known seen⟩
  induction seen generalizing known with
  | nil => simp
  | cons id rest ih =>
    have silent := filterMap_eq_nil_iff.mp quiet
    have sameKnown : (fun var => known var ∨ proc.storeAt id = some var) = known := by
      funext var
      simp [silent id (by simp)]
    rw [Reads, sameKnown] at reads
    intro other met var mentioned
    rcases mem_cons.mp met with rfl | later
    · exact reads.1 var mentioned
    · exact ih known (filterMap_eq_nil_iff.mpr fun last mem => silent last (by simp [mem]))
        reads.2 other later var mentioned

theorem reads_mention (proc : Procedure) {known : LocalId → Prop}
    (reads : proc.Reads known seen) {id : NodeId} (met : id ∈ seen) (var : LocalId)
    (mentioned : proc.mentionAt id = some var) : known var ∨ var ∈ proc.storedIn seen := by
  obtain ⟨before, after, rfl⟩ := append_of_mem met
  have behind := ((proc.reads_append known before (id :: after)).mp reads).2
  rcases behind.1 var mentioned with atFirst | stored
  · exact .inl atFirst
  · rw [storedIn_append]
    exact .inr (mem_append_left _ stored)

def isArgTemp (proc : Procedure) (var : LocalId) : Bool :=
  proc.locals[var]?.any fun data => data.kind == .argTemp

def IsCopy (proc : Procedure) (var : LocalId) (ty : ValueType) : Prop :=
  ∃ data, proc.locals[var]? = some data ∧ data.kind = .structCopy ∧ data.ty = ty

theorem IsCopy.kept (isCopy : p.IsCopy var ty) (grown : Extends nodes calls p q) : q.IsCopy var ty := by
  obtain ⟨data, here, more⟩ := isCopy
  exact ⟨data, grown.varKept var data here, more⟩

theorem isArgTemp_bound (proc : Procedure) (isTemp : proc.isArgTemp var = true) : var < proc.locals.size := by
  obtain ⟨data, here, _⟩ := (Option.any_eq_true _ _).mp isTemp
  exact lt_size here

theorem IsCopy.bound (isCopy : proc.IsCopy var ty) : var < proc.locals.size := by
  obtain ⟨_, here, _⟩ := isCopy
  exact lt_size here

theorem IsCopy.notArgTemp (isCopy : proc.IsCopy var ty) : proc.isArgTemp var = false := by
  obtain ⟨data, here, kind, _⟩ := isCopy
  simp [isArgTemp, here, kind]

def tempsFrom (proc : Procedure) (start : Nat) : List LocalId :=
  (List.range' start (proc.locals.size - start)).filter proc.isArgTemp

theorem tempsFrom_self (proc : Procedure) : proc.tempsFrom proc.locals.size = [] := by
  simp [tempsFrom]

theorem tempsFrom_congr (p q : Procedure) (same : q.locals = p.locals) :
    q.tempsFrom start = p.tempsFrom start := by
  have sameTest : q.isArgTemp = p.isArgTemp := by
    funext var
    rw [isArgTemp, isArgTemp, same]
  rw [tempsFrom, tempsFrom, same, sameTest]

theorem tempsFrom_nodup (proc : Procedure) (start : Nat) : (proc.tempsFrom start).Nodup :=
  (nodup_range' 1).filter _

theorem mem_tempsFrom (proc : Procedure) (new : start ≤ var)
    (isTemp : proc.isArgTemp var = true) : var ∈ proc.tempsFrom start := by
  have bound : start + (proc.locals.size - start) = proc.locals.size :=
    Nat.add_sub_cancel' (Nat.le_trans new (Nat.le_of_lt (proc.isArgTemp_bound isTemp)))
  refine mem_filter.mpr ⟨mem_range'_1.mpr ⟨new, ?_⟩, isTemp⟩
  rw [bound]
  exact proc.isArgTemp_bound isTemp

theorem tempsFrom_isArgTemp (proc : Procedure) (mem : var ∈ proc.tempsFrom start) : proc.isArgTemp var = true :=
  (mem_filter.mp mem).2

end Procedure

theorem Edit.addLocal_tempsFrom {var : LocalVar} {id : LocalId} (done : Edit.addLocal var p = .ok id q) :
    q.tempsFrom p.locals.size = if var.kind = .argTemp then [id] else [] := by
  obtain ⟨rfl, rfl⟩ := addLocal_ok done
  have size : (p.locals.push var).size - p.locals.size = 1 := by simp
  have test : Procedure.isArgTemp { p with locals := p.locals.push var } p.locals.size
      = (var.kind == .argTemp) := by
    simp [Procedure.isArgTemp]
  rw [Procedure.tempsFrom, size, range'_one, filter_cons, test]
  by_cases isTemp : var.kind = .argTemp
  · simp [isTemp]
  · simp [isTemp]

namespace Extends

variable {nodes : NodeId → Prop} {calls : CallId → Prop} {p q : Procedure}

variable (grown : Extends nodes calls p q)

include grown

theorem reads (known : LocalId → Prop) (valid : ∀ id ∈ seen, id < p.nodes.size) :
    q.Reads known seen ↔ p.Reads known seen :=
  reads_congr p q known seen (fun id met => grown.mentionAt (valid id met))
    (fun id met => grown.storeAt (valid id met))

theorem acting (valid : ∀ id ∈ seen, id < p.nodes.size) : seen.filter q.actsAt = seen.filter p.actsAt :=
  filter_congr fun id met => grown.actsAt (valid id met)

theorem isArgTemp (bound : var < p.locals.size) : q.isArgTemp var = p.isArgTemp var := by
  have here := Array.getElem?_eq_getElem bound
  rw [Procedure.isArgTemp, Procedure.isArgTemp, here, grown.varKept var _ here]

theorem tempsFrom (bound : start ≤ p.locals.size) :
    q.tempsFrom start = p.tempsFrom start ++ q.tempsFrom p.locals.size := by
  have le := grown.locals_le
  have size : q.locals.size - start = (p.locals.size - start) + (q.locals.size - p.locals.size) := by
    omega
  have middle : start + (p.locals.size - start) = p.locals.size := by omega
  have same : (List.range' start (p.locals.size - start)).filter q.isArgTemp
      = (List.range' start (p.locals.size - start)).filter p.isArgTemp := by
    apply filter_congr
    intro var mem
    exact grown.isArgTemp (Nat.lt_of_lt_of_eq (mem_range'_1.mp mem).2 middle)
  rw [Procedure.tempsFrom, size, ← range'_append_1, filter_append, middle, same]
  rfl

end Extends

-- The trees that visited `before` in `p` visit `after` in `q`; `copies` are the struct copies that
-- were stored on the way.
structure Carries (p q : Procedure) (before after : List NodeId) (copies : List LocalId) : Prop where
  new : ∀ id ∈ after, id ∈ before ∨ p.nodes.size ≤ id
  acts : ∃ stores, (after.filter q.actsAt).Perm (before.filter q.actsAt ++ stores)
    ∧ (∀ id ∈ stores, p.nodes.size ≤ id)
    ∧ (stores.map q.storeAt).Perm ((q.tempsFrom p.locals.size ++ copies).map some)
  reads : ∀ known, q.Reads known before → q.Reads known after

namespace Carries

theorem still (sameLocals : q.locals = p.locals) (seen : List NodeId) :
    Carries p q seen seen [] where
  new := fun _ met => .inl met
  acts := by
    have noTemps : q.tempsFrom p.locals.size = [] := by
      rw [tempsFrom_congr p q sameLocals]
      exact p.tempsFrom_self
    exact ⟨[], by simp, by simp, by simp [noTemps]⟩
  reads := fun _ reads => reads

theorem refl (p : Procedure) (seen : List NodeId) : Carries p p seen seen [] :=
  still rfl seen

theorem reading {β : Type} (carries : Carries p q before after copies) (read : NodeId → Option β)
    (silent : ∀ id, q.actsAt id = false → read id = none) :
    ∃ stores : List NodeId, (after.filterMap read).Perm (before.filterMap read ++ stores.filterMap read)
      ∧ (stores.map q.storeAt).Perm ((q.tempsFrom p.locals.size ++ copies).map some) := by
  have acting : ∀ seen : List NodeId,
      (seen.filter q.actsAt).filterMap read = seen.filterMap read := by
    intro seen
    rw [filterMap_filter]
    apply filterMap_congr
    intro id _
    by_cases acts : q.actsAt id = true
    · rw [if_pos acts]
    · rw [if_neg acts, silent id (by simpa using acts)]
  obtain ⟨stores, perm, _, targets⟩ := carries.acts
  refine ⟨stores, ?_, targets⟩
  rw [← acting after, ← acting before, ← filterMap_append]
  exact perm.filterMap read

section Carries

variable (carries : Carries p q before after copies)

include carries

theorem callsIn : (q.callsIn after).Perm (q.callsIn before) := by
  obtain ⟨stores, perm, targets⟩ := carries.reading q.callAt q.callAt_of_quiet
  have none_ : stores.filterMap q.callAt = [] := by
    apply filterMap_eq_nil_iff.mpr
    intro id mem
    obtain ⟨var, _, stores⟩ := mem_map.mp (targets.mem_iff.mp (mem_map_of_mem mem))
    obtain ⟨kind, here, isStore⟩ := Option.bind_eq_some_iff.mp stores.symm
    rw [q.callAt_eq here]
    cases kind with
    | storeLocal var value => rfl
    | _ => cases isStore
  rwa [none_, append_nil] at perm

theorem storedIn : (q.storedIn after).Perm (q.storedIn before ++ (q.tempsFrom p.locals.size ++ copies)) := by
  obtain ⟨stores, perm, targets⟩ := carries.reading q.storeAt q.storeAt_of_quiet
  have filtered := targets.filterMap id
  simp only [filterMap_map, Function.id_comp, filterMap_some] at filtered
  exact perm.trans (filtered.append_left _)

theorem stored (var : LocalId) (held : var ∈ q.storedIn before) : var ∈ q.storedIn after :=
  carries.storedIn.mem_iff.mpr (mem_append_left _ held)

theorem later (sameKinds : r.kindAt = q.kindAt)
    (sameLocals : r.locals = q.locals) : Carries p r before after copies := by
  have sameReads : ∀ known seen, r.Reads known seen ↔ q.Reads known seen := by
    intro known seen
    apply reads_congr
    · intro id _
      rw [Procedure.mentionAt, Procedure.mentionAt, sameKinds]
    · intro id _
      rw [Procedure.storeAt, Procedure.storeAt, sameKinds]
  obtain ⟨new, acts, reads⟩ := carries
  refine ⟨new, ?_, fun known before => (sameReads _ _).mpr (reads known ((sameReads _ _).mp before))⟩
  have sameActs : r.actsAt = q.actsAt := by
    funext id
    rw [Procedure.actsAt, Procedure.actsAt, sameKinds]
  have sameStores : r.storeAt = q.storeAt := by
    funext id
    rw [Procedure.storeAt, Procedure.storeAt, sameKinds]
  rw [sameActs, sameStores, tempsFrom_congr q r sameLocals]
  exact acts

end Carries

theorem trans {c : List NodeId} (first : Carries p q a b copies) (second : Carries q r b c copies')
    (grown : Extends nodes calls p q) (grown' : Extends nodes' calls' q r)
    (validA : ∀ id ∈ a, id < p.nodes.size) (validB : ∀ id ∈ b, id < q.nodes.size) :
    Carries p r a c (copies ++ copies') where
  new := fun id met => by
    rcases second.new id met with inB | new
    · exact first.new id inB
    · exact .inr (Nat.le_trans grown.size_le new)
  acts := by
    obtain ⟨stores, perm, isNew, targets⟩ := first.acts
    obtain ⟨stores', perm', isNew', targets'⟩ := second.acts
    have storesValid : ∀ id ∈ stores, id < q.nodes.size := fun id mem =>
      validB id (mem_filter.mp (perm.mem_iff.mpr (mem_append_right _ mem))).1
    have sameTargets : stores.map r.storeAt = stores.map q.storeAt :=
      map_congr_left fun id mem => grown'.storeAt (storesValid id mem)
    have sameA : a.filter r.actsAt = a.filter q.actsAt := grown'.acting fun id met =>
      Nat.lt_of_lt_of_le (validA id met) grown.size_le
    refine ⟨stores ++ stores', ?_, ?_, ?_⟩
    · rw [grown'.acting validB] at perm'
      rw [sameA, ← append_assoc]
      exact perm'.trans (perm.append_right stores')
    · intro id met
      rcases mem_append.mp met with inFirst | inSecond
      · exact isNew id inFirst
      · exact Nat.le_trans grown.size_le (isNew' id inSecond)
    · rw [map_append, sameTargets, grown'.tempsFrom grown.locals_le]
      refine (targets.append targets').trans (perm_iff_count.mpr fun target => ?_)
      simp only [map_append, count_append]
      omega
  reads := fun known reads => by
    have validA' : ∀ id ∈ a, id < q.nodes.size := fun id met =>
      Nat.lt_of_lt_of_le (validA id met) grown.size_le
    apply second.reads known
    rw [grown'.reads known validB]
    rw [grown'.reads known validA'] at reads
    exact first.reads known reads

theorem extend {more : List NodeId} (new : ∀ id ∈ more, p.nodes.size ≤ id)
    (targets : ((more.filter q.actsAt).map q.storeAt).Perm
      ((q.tempsFrom p.locals.size ++ copies).map some)) (reads : ∀ known, q.Reads known seen →
      q.Reads (fun var => known var ∨ var ∈ q.storedIn seen) more) :
    Carries p q seen (seen ++ more) copies where
  new := fun id met => (mem_append.mp met).imp_right (new id)
  acts := ⟨more.filter q.actsAt, by rw [filter_append],
    fun id mem => new id (mem_filter.mp mem).1, targets⟩
  reads := fun known before => (q.reads_append known seen more).mpr ⟨before, reads known before⟩

-- One tree of several is carried to two places: `early` where it stood, `late` further back. What
-- stands between may rely on the stores of the tree, so these have to stay in front.
theorem spread (carries : Carries p q tree (early ++ late) copies) (front between rest : List NodeId)
    (inFront : between = [] ∨ ∀ var ∈ q.storedIn tree, var ∈ q.storedIn early) :
    Carries p q (front ++ tree ++ between ++ rest) (front ++ early ++ between ++ late ++ rest)
      copies where
  new := fun id met => by
    simp only [mem_append] at met ⊢
    rcases met with (((mem | mem) | mem) | mem) | mem
    · exact .inl (.inl (.inl (.inl mem)))
    · exact (carries.new id (mem_append_left _ mem)).imp_left fun old => .inl (.inl (.inr old))
    · exact .inl (.inl (.inr mem))
    · exact (carries.new id (mem_append_right _ mem)).imp_left fun old => .inl (.inl (.inr old))
    · exact .inl (.inr mem)
  acts := by
    obtain ⟨stores, perm, isNew, targets⟩ := carries.acts
    refine ⟨stores, perm_iff_count.mpr fun id => ?_, isNew, targets⟩
    have counts := perm.count_eq id
    simp only [filter_append, count_append] at counts ⊢
    omega
  reads := fun known reads => by
    simp only [reads_append, q.storedIn_append, mem_append] at reads ⊢
    obtain ⟨⟨⟨atFront, atTree⟩, atBetween⟩, atRest⟩ := reads
    obtain ⟨atEarly, atLate⟩ := (q.reads_append _ early late).mp (carries.reads _ atTree)
    have kept : ∀ var ∈ q.storedIn tree, var ∈ q.storedIn early ∨ var ∈ q.storedIn late := by
      intro var held
      have held := carries.stored var held
      rwa [q.storedIn_append, mem_append] at held
    refine ⟨⟨⟨⟨atFront, atEarly⟩, ?_⟩, ?_⟩, ?_⟩
    · rcases inFront with rfl | inFront
      · trivial
      · exact q.reads_mono _ _ (fun var => Or.imp_right (Or.imp_right (inFront var))) atBetween
    · exact q.reads_mono _ _ (fun var => by grind) atLate
    · exact q.reads_mono _ _ (fun var => by grind) atRest

theorem within (carries : Carries p q tree after copies) (front rest : List NodeId) :
    Carries p q (front ++ tree ++ rest) (front ++ after ++ rest) copies := by
  have joined : Carries p q tree (after ++ []) copies := by rwa [append_nil]
  simpa only [append_nil] using joined.spread front [] rest (.inl rfl)

theorem beside {a' b' : List NodeId} (left : Carries p q a a' copies) (right : Carries q r b b' copies')
    (grown : Extends nodes calls p q) (grown' : Extends nodes' calls' q r)
    (validA : ∀ id ∈ a, id < p.nodes.size) (validA' : ∀ id ∈ a', id < q.nodes.size)
    (validB : ∀ id ∈ b, id < p.nodes.size) : Carries p r (a ++ b) (a' ++ b') (copies ++ copies') := by
  have first : Carries p q (a ++ b) (a' ++ b) copies := left.within [] b
  have second : Carries q r (a' ++ b) (a' ++ b') copies' := by
    simpa only [append_nil] using right.within a' []
  refine first.trans second grown grown' ?_ ?_
  · intro id met
    exact (mem_append.mp met).elim (validA id) (validB id)
  · intro id met
    exact (mem_append.mp met).elim (validA' id) fun inB =>
      Nat.lt_of_lt_of_le (validB id inB) grown.size_le

theorem disjoint {others : List NodeId} (carries : Carries p q before after copies)
    (apart : before.Disjoint others) (valid : ∀ id ∈ others, id < p.nodes.size) : after.Disjoint others := by
  intro id mem outside
  rcases carries.new id mem with old | new
  · exact apart old outside
  · exact Nat.lt_irrefl _ (Nat.lt_of_lt_of_le (valid id outside) new)

theorem mem_callsIn (carries : Carries p q before after copies) (grown : Extends nodes calls p q)
    (valid : ∀ id ∈ before, id < p.nodes.size) (call : CallId) :
    call ∈ q.callsIn after ↔ call ∈ p.callsIn before := by
  rw [carries.callsIn.mem_iff, grown.callsIn valid]

end Carries

theorem Forest.spread {fr ro be re ro' rl front between rest : List NodeId}
    (forest : Forest p (fr ++ ro ++ be ++ re) (front ++ tree ++ between ++ rest))
    (atFront : Spans p.owned fr front) (atBetween : Spans p.owned be between)
    (atRest : Spans p.owned re rest) (grown : Extends nodes calls p q) (nodesIn : ∀ id, nodes id → id ∈ tree)
    (callsIn : ∀ call ∈ p.callsIn (front ++ between ++ rest), ¬ calls call) (atEarly : Forest q ro' early)
    (atLate : Forest q rl late) (once : (early ++ late).Nodup) (carries : Carries p q tree (early ++ late) copies) :
    Forest q (fr ++ ro' ++ be ++ rl ++ re) (front ++ early ++ between ++ late ++ rest) := by
  have others : List.Perm (front ++ between ++ rest ++ tree) (front ++ tree ++ between ++ rest) := by
    apply perm_iff_count.mpr
    intro id
    simp only [count_append]
    omega
  obtain ⟨othersOnce, _, apart⟩ := nodup_append'.mp (others.nodup_iff.mpr forest.once)
  have othersValid : ∀ id ∈ front ++ between ++ rest, id < p.nodes.size := fun id met =>
    forest.valid id (others.mem_iff.mp (mem_append_left _ met))
  have framed : ∀ roots seen, Spans p.owned roots seen →
      (∀ id ∈ seen, id ∈ front ++ between ++ rest) → Spans q.owned roots seen := by
    intro roots seen spans mem
    apply Spans.frame spans
    intro id met
    have met := mem id met
    exact grown.owned (othersValid id met) (fun changed => apart met (nodesIn id changed))
      fun call named => callsIn call (mem_filterMap.mpr ⟨id, met, named⟩)
  have pieces : List.Perm (front ++ between ++ rest ++ (early ++ late))
      (front ++ early ++ between ++ late ++ rest) := by
    apply perm_iff_count.mpr
    intro id
    simp only [count_append]
    omega
  exact {
    spans := by
      have first := framed fr front atFront fun id met => by simp [met]
      have second := framed be between atBetween fun id met => by simp [met]
      have third := framed re rest atRest fun id met => by simp [met]
      exact Spans.append (Spans.append (Spans.append
        (Spans.append first atEarly.spans) second) atLate.spans) third
    once := by
      refine pieces.nodup_iff.mp (nodup_append'.mpr ⟨othersOnce, once, ?_⟩)
      intro id inOthers inTree
      rcases carries.new id inTree with old | new
      · exact apart inOthers old
      · exact Nat.lt_irrefl _ (Nat.lt_of_lt_of_le (othersValid id inOthers) new)
    callsOnce := by
      have before := forest.callsOnce
      rw [← grown.callsIn forest.valid] at before
      have sameCalls : List.Perm (q.callsIn (front ++ tree ++ between ++ rest))
          (q.callsIn (front ++ early ++ between ++ late ++ rest)) := by
        apply perm_iff_count.mpr
        intro call
        have counts := carries.callsIn.count_eq call
        simp only [q.callsIn_append, count_append] at counts ⊢
        omega
      exact sameCalls.nodup_iff.mp before
    valid := by
      intro id met
      rcases mem_append.mp (pieces.mem_iff.mpr met) with old | new
      · exact Nat.lt_of_lt_of_le (othersValid id old) grown.size_le
      · exact (mem_append.mp new).elim (atEarly.valid id) (atLate.valid id) }

end CallLowering
