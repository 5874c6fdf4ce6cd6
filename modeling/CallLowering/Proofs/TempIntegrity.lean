import CallLowering.Proofs.LoweredProcedures

/-! The temps of a lowered procedure. -/

namespace CallLowering

open List

variable {back front : List NodeId} {var : LocalId} {top : NodeId} {proc : Procedure} {id : NodeId}

theorem filterMap_count_unique {α β : Type} [BEq β] [LawfulBEq β] {items : List α} {read : α → Option β}
    {a b : α} {value : β} (inA : a ∈ items) (inB : b ∈ items) (readA : read a = some value)
    (readB : read b = some value) (once : (items.filterMap read).count value ≤ 1) : a = b := by
  by_contra different
  obtain ⟨front, back, rfl⟩ := append_of_mem inA
  have elsewhere : b ∈ front ++ back := by
    simp only [mem_append, mem_cons] at inB ⊢
    rcases inB with inFront | same | inBack
    · exact .inl inFront
    · exact absurd same.symm different
    · exact .inr inBack
  have again : 0 < ((front ++ back).filterMap read).count value :=
    count_pos_iff.mpr (mem_filterMap.mpr ⟨b, elsewhere, readB⟩)
  simp only [filterMap_append, filterMap_cons, readA, count_append, count_cons_self]
    at once again
  omega

namespace Procedure

-- Every local that a node names is declared.
def Declared (proc : Procedure) : Prop :=
  ∀ node ∈ proc.nodes.toList,
    ∀ var ∈ node.kind.mentionsLocal?.toList ++ node.kind.storesLocal?.toList, var < proc.locals.size

instance (proc : Procedure) : Decidable proc.Declared :=
  inferInstanceAs (Decidable (∀ node ∈ proc.nodes.toList,
    ∀ var ∈ node.kind.mentionsLocal?.toList ++ node.kind.storesLocal?.toList, var < proc.locals.size))

theorem Declared.within (declared : proc.Declared) (seen : List NodeId) :
    proc.Within proc.locals.size seen := by
  intro id _ var named
  have found : ∃ kind, proc.kindAt id = some kind
      ∧ var ∈ kind.mentionsLocal?.toList ++ kind.storesLocal?.toList := by
    rcases named with mentioned | stored
    · obtain ⟨kind, here, mentions⟩ := Option.bind_eq_some_iff.mp mentioned
      exact ⟨kind, here, by simp [mentions]⟩
    · obtain ⟨kind, here, stores⟩ := Option.bind_eq_some_iff.mp stored
      exact ⟨kind, here, by simp [stores]⟩
  obtain ⟨kind, here, named⟩ := found
  obtain ⟨node, atNode, rfl⟩ := proc.kindAt_some_iff.mp here
  refine declared node ?_ var named
  exact mem_of_getElem? (by rw [← Array.getElem?_toList] at atNode; exact atNode)

-- What holds of the struct copies on the walk through one outermost call.
structure CopiesKept (proc : Procedure) (part : List NodeId) : Prop where
  storedOnce : ∀ var ty, proc.IsCopy var ty → (proc.storedIn part).count var ≤ 1
  storedBefore : ∀ front id back var ty, part = front ++ id :: back → proc.IsCopy var ty →
    proc.mentionAt id = some var → var ∈ proc.storedIn front
  -- the store is the early node of an argument of that type, whose temp the copy is
  stored : ∀ id ∈ part, ∀ var ty, proc.IsCopy var ty → proc.storeAt id = some var →
    ∃ call data arg, call ∈ proc.callsIn part ∧ proc.calls[call]? = some data ∧ arg ∈ data.args.args
      ∧ arg.early = some id ∧ arg.temp = some var ∧ arg.ty = ty
  typed : ∀ call ∈ proc.callsIn part, ∃ data, proc.calls[call]? = some data
    ∧ ∀ arg ∈ data.args.args, ∀ var ty, proc.IsCopy var ty → arg.temp = some var → arg.ty = ty

theorem reads_split (proc : Procedure) {known : LocalId → Prop} (reads : proc.Reads known (front ++ id :: back))
    (mentioned : proc.mentionAt id = some var) (unknown : ¬ known var) : var ∈ proc.storedIn front :=
  (((proc.reads_append known front (id :: back)).mp reads).2.1 var mentioned).resolve_left unknown

theorem IsCopy.unique {a b : ValueType} (first : proc.IsCopy var a) (second : proc.IsCopy var b) : a = b := by
  obtain ⟨data, here, _, rfl⟩ := first
  obtain ⟨same, there, _, rfl⟩ := second
  cases here.symm.trans there
  rfl

theorem copiesKept {part : List NodeId} {bound : Nat}
    (forest : Forest proc [top] part) (isSealed : proc.Sealed bound part) (done : Done proc part)
    (isNew : ∀ var ty, proc.IsCopy var ty → bound ≤ var) : proc.CopiesKept part where
  storedOnce := fun var ty isCopy => isSealed.storesOnce var (isNew var ty isCopy)
  storedBefore := by
    rintro front id back var ty rfl isCopy mentioned
    apply proc.reads_split isSealed.reads mentioned
    exact Nat.not_lt.mpr (isNew var ty isCopy)
  stored := by
    intro id met var ty isCopy stores
    have held : var ∈ proc.storedIn part := mem_filterMap.mpr ⟨id, met, stores⟩
    rcases isSealed.recorded var held (isNew var ty isCopy) with isTemp | recorded
    · rw [isCopy.notArgTemp] at isTemp
      cases isTemp
    · obtain ⟨call, data, arg, named, here, mem, isTemp⟩ := recorded
      obtain ⟨same, atSame, _, owns⟩ := done.settled call named
      cases here.symm.trans atSame
      rcases owns arg mem var isTemp with isArgTemp | ⟨ofType, store, isEarly, stored⟩
      · rw [isCopy.notArgTemp] at isArgTemp
        cases isArgTemp
      · have inPart : store ∈ part := by
          obtain ⟨node, inNode, isCall⟩ := mem_filterMap.mp named
          apply Spans.closed forest.spans inNode
          rw [proc.owned_of_call (proc.callAt_some_iff.mp isCall) here]
          simp only [Call.owned, mem_append, mem_filterMap]
          exact .inl (.inl (.inl ⟨arg, mem, isEarly⟩))
        have sameStore := filterMap_count_unique met inPart stores stored
          (isSealed.storesOnce var (isNew var ty isCopy))
        exact ⟨call, data, arg, named, here, mem, sameStore ▸ isEarly, isTemp, ofType.unique isCopy⟩
  typed := by
    intro call named
    obtain ⟨data, here, _, owns⟩ := done.settled call named
    refine ⟨data, here, fun arg mem var ty isCopy isTemp => ?_⟩
    rcases owns arg mem var isTemp with isArgTemp | ⟨ofType, _⟩
    · rw [isCopy.notArgTemp] at isArgTemp
      cases isArgTemp
    · exact ofType.unique isCopy

end Procedure

namespace Lowering

namespace Success

variable {proc after : Procedure} {seen seen' : List NodeId} {copies : List LocalId}

variable (success : Success proc after seen seen' copies) (declared : proc.Declared)

include success declared

theorem argTemp_storedOnce (isTemp : after.isArgTemp var = true) : (after.storedIn seen').count var = 1 := by
  have reworked := success.reworked
  have new := success.new_of_argTemp isTemp
  have bound := after.isArgTemp_bound isTemp
  have within := (declared.within seen).kept reworked.grown success.forest.valid
  have notOld : var ∉ after.storedIn seen := fun held => by
    obtain ⟨id, met, stores⟩ := mem_filterMap.mp held
    exact Nat.lt_irrefl _ (Nat.lt_of_lt_of_le (within id met var (.inr stores)) new)
  have notCopy : var ∉ copies := fun held => by
    obtain ⟨ty, isCopy⟩ := success.areCopies held
    rw [Procedure.IsCopy.notArgTemp isCopy] at isTemp
    cases isTemp
  have isFirst : var ∈ after.tempsFrom proc.locals.size := by
    refine mem_filter.mpr ⟨mem_range'_1.mpr ⟨new, ?_⟩, isTemp⟩
    rwa [Nat.add_sub_cancel' reworked.grown.locals_le]
  rw [reworked.carries.storedIn.count_eq, count_append, count_append,
    count_eq_zero.mpr notOld, count_eq_zero.mpr notCopy,
    count_eq_one_of_mem (after.tempsFrom_nodup _) isFirst]

theorem argTemp_storedBefore (split : seen' = front ++ id :: back) (isTemp : after.isArgTemp var = true)
    (mentioned : after.mentionAt id = some var) : var ∈ after.storedIn front := by
  have reworked := success.reworked
  have within := (declared.within seen).kept reworked.grown success.forest.valid
  have reads := reworked.carries.reads (· < proc.locals.size) (after.reads_of_known _ seen
    fun other met var mentioned => within other met var (.inl mentioned))
  rw [split] at reads
  apply after.reads_split reads mentioned
  exact Nat.not_lt.mpr (success.new_of_argTemp isTemp)

theorem outermost_copiesKept {root : NodeId} (isRoot : root ∈ proc.statements)
    (outermost : after.Outermost root top) : ∃ part, after.walk top = .ok part ∧ after.CopiesKept part := by
  obtain ⟨t, rfl, lowered⟩ := success.lowered
  obtain ⟨part, atPart, isSealed⟩ := lowered.confined rfl proc.locals.size (declared.within seen)
    root isRoot top outermost
  have met := outermost.member lowered.forest.spans (Spans.root_mem lowered.forest.spans isRoot)
  have done := lowered.done.subset
    (Spans.part_subset lowered.forest.spans met atPart.spans)
  exact ⟨part, done.walk atPart, Procedure.copiesKept atPart isSealed done fun var ty isCopy =>
    success.new_of_copy isCopy⟩

theorem copy_inCall (met : id ∈ seen') (ty : ValueType)
    (isCopy : after.IsCopy var ty) (named : after.mentionAt id = some var ∨ after.storeAt id = some var) :
    ∃ root ∈ proc.statements, ∃ top part, after.Outermost root top ∧ after.walk top = .ok part
      ∧ id ∈ part := by
  have new := success.new_of_copy isCopy
  obtain ⟨t, rfl, lowered⟩ := success.lowered
  rcases lowered.inCalls id met with old | ⟨root, isRoot, top, part, outermost, atPart, inPart⟩
  · have within := (declared.within seen).kept lowered.grown success.forest.valid
    exact absurd (within id old var named) (Nat.not_lt.mpr new)
  · have atTop := outermost.member lowered.forest.spans (Spans.root_mem lowered.forest.spans isRoot)
    have done := lowered.done.subset
      (Spans.part_subset lowered.forest.spans atTop atPart.spans)
    exact ⟨root, isRoot, top, part, outermost, done.walk atPart, inPart⟩

end Success

theorem temps_stored_once_before_use (settings : Settings) (name : String) (body : List Instruction)
    (made : List Made) (proc : Procedure) (before : List NodeId) (outcome : Outcome)
    (builds : Procedure.build name body = .ok (made, proc)) (unshared : proc.Unshared before)
    (declared : proc.Declared) (done : proc.lower settings Transform.identity = .ok outcome)
    (unrefused : outcome.refusal = none) :
    ∃ after, outcome.proc.walkAll = .ok after
      ∧ (∀ var, outcome.proc.isArgTemp var = true → (outcome.proc.storedIn after).count var = 1
        ∧ ∀ front id back, after = front ++ id :: back → outcome.proc.mentionAt id = some var →
          var ∈ outcome.proc.storedIn front)
      ∧ (∀ root ∈ outcome.proc.statements, ∀ top, outcome.proc.Outermost root top →
        ∃ part, outcome.proc.walk top = .ok part ∧ outcome.proc.CopiesKept part)
      ∧ (∀ id ∈ after, ∀ var ty, outcome.proc.IsCopy var ty →
        (outcome.proc.mentionAt id = some var ∨ outcome.proc.storeAt id = some var) →
        ∃ root ∈ outcome.proc.statements, ∃ top part, outcome.proc.Outermost root top
          ∧ outcome.proc.walk top = .ok part ∧ id ∈ part) := by
  obtain ⟨after, copies, success⟩ :=
    lower_succeeds builds unshared done unrefused
  rw [success.reworked.grown.statements]
  refine ⟨after, success.walkAll, fun var isTemp => ⟨?_, fun front id back split mentioned => ?_⟩,
    fun root isRoot top outermost => ?_, fun id met var ty isCopy named => ?_⟩
  · exact success.argTemp_storedOnce declared isTemp
  · exact success.argTemp_storedBefore declared split isTemp mentioned
  · exact success.outermost_copiesKept declared isRoot outermost
  · exact success.copy_inCall declared met ty isCopy named

-- A call and a load that may fault beside a struct of three words, which the inner call passes too.
def structPassedTwice : List Instruction :=
  [.declare (.struct 0), .declare .ptr, .readLocal 0,
    .call { target := .method "inner", returnType := .i32, args := [(0, .struct 0)] },
    .readLocal 1, .load 2 false .i32, .readLocal 0,
    .call { target := .method "outer", args := [(3, .i32), (1, .i32), (4, .struct 0)] }, .statement 5]

def threeWords : Settings where
  target := Target.ofTriple ⟨.x64, .windows⟩
  types := { layouts := #[{ name := "S", size := 24,
                            fields := [⟨0, .i64⟩, ⟨8, .i64⟩, ⟨16, .i64⟩] }] }

theorem pinned_values_stored_once :
    ∃ made proc outcome after, Procedure.build "caller" structPassedTwice = .ok (made, proc)
      ∧ proc.Unshared [2, 3, 0, 1, 4, 5] ∧ proc.Declared
      ∧ proc.lower threeWords Transform.identity = .ok outcome ∧ outcome.refusal = none
      ∧ outcome.proc.walkAll = .ok after
      ∧ (outcome.proc.storedIn after).count 4 = 1 ∧ (outcome.proc.storedIn after).count 5 = 1 := by
  obtain ⟨made, proc, outcome, builds, ⟨span, declared⟩, done, unrefused, first, second⟩ := lowered_of_check
    structPassedTwice threeWords (fun proc => proc.unshared? = some [2, 3, 0, 1, 4, 5] ∧ proc.Declared)
    (fun outcome => outcome.refusal = none
      ∧ outcome.proc.isArgTemp 4 = true ∧ outcome.proc.isArgTemp 5 = true) (by decide +kernel)
  have unshared := proc.unshared?_sound span
  obtain ⟨after, walked, kept, _⟩ := temps_stored_once_before_use _ _ _ made proc _ outcome builds
    unshared declared done unrefused
  exact ⟨made, proc, outcome, after, builds, unshared, declared, done, unrefused, walked,
    (kept 4 first).1, (kept 5 second).1⟩

end Lowering

end CallLowering
