import CallLowering.Proofs.CallRun
import CallLowering.Proofs.Exactness

/-! Lowering a call keeps the order of what can be observed. -/

namespace CallLowering

open List

variable {later : Nat} {other root : NodeId} {var : LocalId}

namespace ArgList

variable (list : ArgList) {second first : Nat}

-- The arguments in the order in which the lowered call evaluates them. One with both nodes stands
-- here twice, and its value is computed at the first place.
def executionOrder (list : ArgList) : List Nat := list.earlyIndices ++ list.lateOrder

def RunsBefore (list : ArgList) (first second : Nat) : Prop :=
  first ∈ list.executionOrder ∧ second ∈ list.executionOrder
    ∧ list.executionOrder.idxOf first < list.executionOrder.idxOf second

theorem mem_earlyIndices (index : Nat) :
    index ∈ list.earlyIndices ↔ ∃ arg, list.args[index]? = some arg ∧ arg.early.isSome = true := by
  simp only [earlyIndices, mem_filter, mem_range, size]
  constructor
  · rintro ⟨bound, has⟩
    rw [getElem?_eq_getElem bound] at has
    exact ⟨list.args[index], getElem?_eq_getElem bound, has⟩
  · rintro ⟨arg, here, has⟩
    exact ⟨lt_length here, by simp [here, has]⟩

theorem runsBefore_of_split {front back : List Nat}
    (split : list.executionOrder = front ++ back) (inFront : first ∈ front)
    (behind : second ∉ front) (present : second ∈ back) : list.RunsBefore first second := by
  refine ⟨by simp [split, inFront], by simp [split, present], ?_⟩
  rw [split, idxOf_append_of_mem inFront, idxOf_append_of_notMem behind]
  exact Nat.lt_add_right _ (idxOf_lt_length_of_mem inFront)

theorem early_runsBefore_early {list : ArgList} (inFront : first < second)
    (firstEarly : first ∈ list.earlyIndices) (secondEarly : second ∈ list.earlyIndices) :
    list.RunsBefore first second := by
  unfold earlyIndices at firstEarly secondEarly
  obtain ⟨_, firstHas⟩ := mem_filter.mp firstEarly
  obtain ⟨secondIn, secondHas⟩ := mem_filter.mp secondEarly
  have bound : second < list.size := mem_range.mp secondIn
  have ranges : List.range list.size
      = List.range second ++ (List.range (list.size - second)).map (second + ·) := by
    rw [← range_add, Nat.add_sub_cancel' (Nat.le_of_lt bound)]
  have split := congrArg (List.filter fun index => list.args[index]?.any fun arg => arg.early.isSome)
    ranges
  rw [filter_append] at split
  refine list.runsBefore_of_split
    ((congrArg (· ++ list.lateOrder) split).trans (append_assoc _ _ _)) ?_ ?_ ?_
  · exact mem_filter.mpr ⟨mem_range.mpr inFront, firstHas⟩
  · simp [mem_filter]
  · refine mem_append_left _ (mem_filter.mpr ⟨mem_map.mpr ⟨0, ?_, rfl⟩, secondHas⟩)
    exact mem_range.mpr (Nat.sub_pos_of_lt bound)

theorem early_runsBefore_late (firstEarly : first ∈ list.earlyIndices) (notEarly : second ∉ list.earlyIndices)
    (secondLate : second ∈ list.lateOrder) : list.RunsBefore first second :=
  list.runsBefore_of_split rfl firstEarly notEarly secondLate

end ArgList

namespace Procedure

def StoresTo (proc : Procedure) (root : NodeId) (var : LocalId) : Prop :=
  ∃ nodes, proc.visited root = .ok nodes ∧ ∃ node ∈ nodes, node.kind.storesLocal? = some var

def ReadsFrom (proc : Procedure) (root : NodeId) (var : LocalId) : Prop :=
  ∃ nodes, proc.visited root = .ok nodes ∧ ∃ node ∈ nodes, node.kind.readsLocal? = some var

def ExactUnder (proc : Procedure) (root : NodeId) : Prop :=
  ∃ visited, proc.walk root = .ok visited ∧ ∀ id ∈ visited, proc.Exact id

instance (proc : Procedure) (root : NodeId) : Decidable (proc.ExactUnder root) :=
  decidable_of_iff ((match proc.walk root with
    | .ok visited => visited.all fun id => decide (proc.Exact id)
    | .error _ => false) = true) (by
      cases walked : proc.walk root with
      | ok visited => simp [ExactUnder, walked]
      | error fault => simp [ExactUnder, walked])

-- The first value may change what the second one yields or does.
def Disturbs (proc : Procedure) (first second : NodeId) : Prop :=
  (∃ a b, proc.nodes[first]? = some a ∧ proc.nodes[second]? = some b
      ∧ a.effects.isPersistent = true ∧ b.effects.isGlobal = true)
    ∨ ∃ var, proc.StoresTo first var ∧ proc.ReadsFrom second var

-- Both may raise, and it can be told which of them did.
def RaisesApart (proc : Procedure) (first second : NodeId) : Prop :=
  ∃ a b, proc.nodes[first]? = some a ∧ proc.nodes[second]? = some b
    ∧ a.effects.raises = true ∧ b.effects.raises = true
    ∧ ¬ (a.exceptions = b.exceptions ∧ a.exceptions.isSingleKind = true)

def Interfere (proc : Procedure) (first second : NodeId) : Prop :=
  proc.Disturbs first second ∨ proc.Disturbs second first ∨ proc.RaisesApart first second

theorem mem_collected {vars : List LocalId} {seen : List LocalId} (present : var ∈ vars ∨ var ∈ seen) :
    var ∈ vars.foldl (fun seen var => if seen.contains var then seen else seen ++ [var]) seen := by
  induction vars generalizing seen with
  | nil => simpa using present
  | cons first rest ih =>
    apply ih
    rcases present with inVars | inSeen
    · rcases mem_cons.mp inVars with rfl | later
      · right
        dsimp only
        split
        · simpa using ‹seen.contains var = true›
        · simp
      · exact .inl later
    · right
      dsimp only
      split
      · exact inSeen
      · exact mem_append_left _ inSeen

theorem mem_storedLocals (proc : Procedure) {stored : List LocalId}
    (found : proc.storedLocals root = .ok stored) (stores : proc.StoresTo root var) : var ∈ stored := by
  obtain ⟨nodes, walked, node, mem, kind⟩ := stores
  simp only [storedLocals, walked, except_bind_ok_iff] at found
  obtain ⟨_, same, found⟩ := found
  cases same
  cases found
  have member : var ∈ nodes.filterMap fun node => node.kind.storesLocal? :=
    mem_filterMap.mpr ⟨node, mem, kind⟩
  exact mem_collected (.inl member)

theorem mem_localsRead (proc : Procedure) {read : List LocalId} (found : proc.localsRead root = .ok read)
    (reads : proc.ReadsFrom root var) : var ∈ read := by
  obtain ⟨nodes, walked, node, mem, kind⟩ := reads
  simp only [localsRead, walked, except_bind_ok_iff] at found
  obtain ⟨_, same, found⟩ := found
  cases same
  cases found
  exact mem_filterMap.mpr ⟨node, mem, kind⟩

theorem storesTo_assigns (proc : Procedure) {top : Node} (exact_ : proc.ExactUnder root)
    (atRoot : proc.nodes[root]? = some top) (stores : proc.StoresTo root var) : top.effects.assigns = true := by
  obtain ⟨seen, walked, each⟩ := exact_
  obtain ⟨nodes, collected, node, mem, kind⟩ := stores
  simp only [Procedure.visited, walked, except_bind_ok_iff] at collected
  obtain ⟨_, same, collected⟩ := collected
  cases same
  cases collected
  obtain ⟨id, met, here⟩ := mem_filterMap.mp mem
  apply proc.exact_assigns here (proc.walk_spans walked) each atRoot met
  exact node.kind.isStore_of_storesLocal? var kind

theorem root_visited (proc : Procedure) {seen : List NodeId}
    (walked : proc.walk root = .ok seen) : root ∈ seen :=
  Spans.root_mem (proc.walk_spans walked) (by simp)

end Procedure

theorem Target.ofTriple_stack (triple : Triple) :
    (ofTriple triple).fixedOut = true
      ∨ (ofTriple triple).fixedOut = false ∧ (ofTriple triple).splitNeedsPlace = false
        ∧ (ofTriple triple).faultRule = .raises := by
  obtain ⟨architecture, os⟩ := triple
  cases architecture with
  | x64 => cases os <;> exact .inl rfl
  | x86 => exact .inr ⟨rfl, rfl, rfl⟩
  | arm64 => exact .inl rfl
  | arm32 => exact .inl rfl

theorem Placement.hasStack_of_stackOnly (placement : Placement)
    (stackOnly : placement.isStackOnly = true) : placement.hasStack = true := by
  simp only [isStackOnly, isEmpty, hasReg, Bool.and_eq_true, Bool.not_eq_true',
    isEmpty_eq_false_iff_exists_mem, any_eq_false] at stackOnly
  obtain ⟨⟨segment, mem⟩, noReg⟩ := stackOnly
  refine any_eq_true.mpr ⟨segment, mem, ?_⟩
  have notReg := noReg segment mem
  cases place : segment.place with
  | reg reg => simp [Segment.isReg, Segment.reg?, place] at notReg
  | stack offset => simp [Segment.isStack, Segment.stackOffset?, place]

namespace CallRun

open Interference

variable {settings : Settings} {id : CallId} {run : CallRun settings id} {before : Call} {arg : Argument}

def ExactValues (run : CallRun settings id) (list : ArgList) : Prop :=
  ∀ arg ∈ list.args, ∃ value, arg.early = some value ∧ run.shaped.proc.ExactUnder value

theorem outcome_of (run : CallRun settings id) {list : ArgList}
    (atShaped : run.shaped.proc.calls[id]?.map Call.args = some list) :
    ∃ (before : Call) (outcome : run.Outcome before), before.args = list
      ∧ run.settled.calls[id]?.map Call.args = some outcome.after.args := by
  obtain ⟨before, ⟨outcome⟩⟩ := run.outcome
  rw [outcome.atShaped] at atShaped
  exact ⟨before, outcome, Option.some.inj atShaped, by rw [outcome.atEnd, Option.map_some]⟩

theorem list_of_check (run : CallRun settings id) (slots : List (Nat × NodeId))
    (checks : (run.shaped.proc.calls[id]?.map Call.args).any (fun list : ArgList =>
      (list.args.all fun arg => !arg.placement.isEmpty
        && arg.early.any fun value => decide (run.shaped.proc.ExactUnder value))
      && slots.all fun slot => list.args[slot.1]?.any fun arg => arg.early == some slot.2) = true) :
    ∃ list, run.shaped.proc.calls[id]?.map Call.args = some list
      ∧ (∀ arg ∈ list.args, arg.placement.isEmpty = false) ∧ run.ExactValues list
      ∧ ∀ slot ∈ slots, ∃ arg, list.args[slot.1]? = some arg ∧ arg.early = some slot.2 := by
  obtain ⟨list, atShaped, checked⟩ := (Option.any_eq_true _ _).mp checks
  simp only [Bool.and_eq_true, List.all_eq_true, Option.any_eq_true, Bool.not_eq_true', decide_eq_true_eq,
    beq_iff_eq] at checked
  exact ⟨list, atShaped, fun arg mem => (checked.1 arg mem).1, fun arg mem => (checked.1 arg mem).2, checked.2⟩

structure Outcome.Slot (outcome : run.Outcome before) (index : Nat) (value : NodeId) where
  arg : Argument
  node : Node
  profile : Profile
  mark : Mark
  last : Argument
  here : before.args.args[index]? = some arg
  early : arg.early = some value
  atNode : run.shaped.proc.nodes[value]? = some node
  atProfile : outcome.analysis.list[index]? = some profile
  described : ArgSummary.Describes run.shaped.proc arg profile.arg
  effects : profile.arg.effects = node.effects
  exceptions : profile.arg.exceptions = node.exceptions
  called : node.effects.calls = true → profile.likeCall = true
  plain : settings.options.debugCode = false → profile.likeCall = node.effects.calls
  atMark : outcome.marks[index]? = some mark
  atPinned : outcome.analysis.pinned[index]? = some mark.pinned
  atPlaced : outcome.analysis.placed[index]? = some mark.placed
  atLast : outcome.after.args.args[index]? = some last
  settled : Materialize.Settled
    { arg with flags := { (applyMark arg mark).flags with processed := true } } last
  ends : arg.EndsAs mark last

namespace Outcome

theorem slot (outcome : run.Outcome before) {index : Nat} {value : NodeId}
    (here : before.args.args[index]? = some arg) (early : arg.early = some value) :
    Nonempty (outcome.Slot index value) := by
  obtain ⟨profile, atProfile, described, called, plain⟩ := outcome.analysis.profile_at here
  obtain ⟨mark, atMark, atPinned, atPlaced⟩ := outcome.analysis.mark_at atProfile
  obtain ⟨same, last, atSame, atLast, ends⟩ := outcome.ends index arg here (by simp [early])
  cases atMark.symm.trans atSame
  obtain ⟨marked, end_, atMarked, atEnd, settled⟩ := outcome.slots index arg here
  cases atMark.symm.trans atMarked
  cases atLast.symm.trans atEnd
  obtain ⟨node, atNode, effects, exceptions, _⟩ := described.node value early
  exact ⟨⟨arg, node, profile, mark, last, here, early, atNode, atProfile, described, effects,
    exceptions, effects ▸ called, effects ▸ plain, atMark, atPinned, atPlaced, atLast, settled, ends⟩⟩

theorem exact_slot (outcome : run.Outcome before) (values : run.ExactValues before.args) {index : Nat}
    {value : NodeId} (here : before.args.args[index]? = some arg) (early : arg.early = some value) :
    Nonempty (outcome.Slot index value) ∧ run.shaped.proc.ExactUnder value := by
  obtain ⟨_, has, exact_⟩ := values arg (List.mem_of_getElem? here)
  cases early.symm.trans has
  exact ⟨outcome.slot here early, exact_⟩

namespace Slot

variable {outcome : run.Outcome before} {index : Nat} {value : NodeId}

section Slot

variable (slot : outcome.Slot index value)

include slot

theorem present : slot.profile.arg.value.isSome = true := by
  rw [slot.described.value, slot.early, Option.isSome_some]

def IsLate (slot : outcome.Slot index value) : Prop := slot.last.early = none

theorem late_cases (late : slot.IsLate) :
    slot.last.late.isSome = true ∧ slot.arg.late = none ∧ slot.mark.pinned = false
      ∧ (slot.arg.placement.hasReg = true ∨ slot.mark.placed = true) := by
  cases slot.ends with
  | early node has why => simp [IsLate, has] at late
  | late node gone has loose unpinned why => exact ⟨by simp [has], loose, unpinned, why⟩

theorem early_cases (early : ¬ slot.IsLate) :
    slot.arg.late.isSome = true ∨ slot.mark.pinned = true
      ∨ slot.arg.placement.hasReg = false ∧ slot.mark.placed = false := by
  cases slot.ends with
  | early node has why => exact why
  | late node gone has loose unpinned why => exact absurd gone early

theorem late_assigns (several : 1 < before.args.size) (late : slot.IsLate) :
    slot.node.effects.assigns = false := by
  obtain ⟨_, _, unpinned, deferred⟩ := slot.late_cases late
  rw [← slot.effects]
  exact outcome.analysis.late_assigns_nothing slot.atProfile
    slot.described slot.present several slot.atPinned slot.atPlaced unpinned deferred

theorem late_unasked (late : slot.IsLate) {other : Profile} (beyond : index < later)
    (atLater : outcome.analysis.list[later]? = some other) : pins other slot.profile = false := by
  obtain ⟨_, _, unpinned, _⟩ := slot.late_cases late
  exact (outcome.analysis.unpinned_unasked slot.atProfile slot.present
    (unpinned ▸ slot.atPinned)).2 later other beyond atLater

end Slot

section First

variable (first : outcome.Slot index value) (second : outcome.Slot later other) (beyond : index < later)

include first second beyond

theorem pins_stored (exact_ : run.shaped.proc.ExactUnder other) (stores : run.shaped.proc.StoresTo other var)
    (reads : run.shaped.proc.ReadsFrom value var) : pins second.profile first.profile = true := by
  have assigns := run.shaped.proc.storesTo_assigns exact_ second.atNode stores
  obtain ⟨node, atNode, _, _, known, _⟩ := second.described.node other second.early
  cases second.atNode.symm.trans atNode
  have stored := run.shaped.proc.mem_storedLocals (known assigns) stores
  have read := run.shaped.proc.mem_localsRead
    (ArgSummary.ofArguments_known outcome.analysis.summarized beyond
      (outcome.analysis.summary_at first.atProfile)
      (outcome.analysis.summary_at second.atProfile)
      (first.described.value.trans first.early) (ne_nil_of_mem stored)) reads
  have crosses : second.profile.arg.storesWhatIsRead first.profile.arg = true :=
    any_eq_true.mpr ⟨var, stored, by simpa using read⟩
  simp [pins, second.effects, assigns, first.present, crosses]

theorem late_global (late : first.IsLate) (global : first.node.effects.isGlobal = true) :
    second.node.effects.isPersistent = false ∧ second.profile.likeCall = false := by
  have unasked := first.late_unasked late beyond second.atProfile
  simp only [pins, second.effects, first.effects, first.present, global, Bool.and_true, Bool.true_or,
    Bool.or_eq_false_iff] at unasked
  obtain ⟨⟨silent, _⟩, loose⟩ := unasked
  have noCall : second.node.effects.calls = false := by
    by_contra calls
    cases loose.symm.trans (second.called (eq_true_of_ne_false calls))
  exact ⟨by simp [Effects.isPersistent, silent, noCall], loose⟩

theorem late_raises (late : first.IsLate) (apart : run.shaped.proc.RaisesApart value other) :
    first.profile.likeCall = true ∧ second.node.effects.isPersistent = false := by
  obtain ⟨a, b, atA, atB, raisesA, raisesB, notSame⟩ := apart
  cases first.atNode.symm.trans atA
  cases second.atNode.symm.trans atB
  have global : first.node.effects.isGlobal = true := by
    simp [Effects.isGlobal, Effects.isSideEffect, raisesA]
  refine ⟨?_, (first.late_global second beyond late global).1⟩
  by_contra loose
  have different : first.profile.arg.exceptions ≠ second.profile.arg.exceptions
      ∨ second.profile.arg.exceptions.isSingleKind = false := by
    rw [first.exceptions, second.exceptions]
    by_cases same : first.node.exceptions = second.node.exceptions
    · exact .inr (by simpa [same] using notSame)
    · exact .inl same
  have profiled : outcome.analysis.list = profilesFrom (rules settings before) false none
      outcome.analysis.summaries := outcome.analysis.profiled
  obtain ⟨between, profile, mem, atBetween, differs⟩ := profilesFrom_apart false none index later beyond
    (outcome.analysis.summary_at first.atProfile)
    (outcome.analysis.summary_at second.atProfile)
    (.inr ⟨first.profile, profiled ▸ first.atProfile, eq_false_of_ne_true loose⟩)
    (by rw [first.effects, raisesA]) (by rw [second.effects, raisesB]) different
  have pinned := first.late_unasked late mem (profiled ▸ atBetween)
  rcases differs with differs | likeCall
  · simp [pins, differs, first.effects, raisesA] at pinned
  · simp [pins, likeCall, first.effects, global] at pinned

theorem late_interferes (plain : settings.options.debugCode = false)
    (exactFirst : run.shaped.proc.ExactUnder value) (exactSecond : run.shaped.proc.ExactUnder other)
    (late : first.IsLate) (interfere : run.shaped.proc.Interfere value other) :
    first.node.effects.calls = true ∧ second.node.effects.isPersistent = false := by
  have several : 1 < before.args.size := by
    have bound := lt_length second.here
    exact Nat.lt_of_le_of_lt (Nat.succ_le_of_lt (Nat.lt_of_le_of_lt (Nat.zero_le index) beyond)) bound
  have silent := first.late_assigns several late
  rcases interfere with (⟨a, b, atA, atB, acts, _⟩ | ⟨var, stores, _⟩) |
    (⟨b, a, atB, atA, acts, global⟩ | ⟨var, stores, reads⟩) | apart
  · cases first.atNode.symm.trans atA
    have global : first.node.effects.isGlobal = true := by
      simp [Effects.isGlobal, Effects.isSideEffect, acts]
    exact ⟨by simpa [Effects.isPersistent, silent] using acts,
      (first.late_global second beyond late global).1⟩
  · have assigns := run.shaped.proc.storesTo_assigns exactFirst first.atNode stores
    simp [silent] at assigns
  · cases first.atNode.symm.trans atA
    cases second.atNode.symm.trans atB
    simp [(first.late_global second beyond late global).1] at acts
  · have pinned := first.pins_stored second beyond exactSecond stores reads
    simp [first.late_unasked late beyond second.atProfile] at pinned
  · obtain ⟨like, spares⟩ := first.late_raises second beyond late apart
    exact ⟨first.plain plain ▸ like, spares⟩

end First

theorem late_spreads (first : outcome.Slot index value) {second : outcome.Slot later other}
    (beyond : index < later) {triple : Triple} (shipped : settings.target = Target.ofTriple triple)
    (placed : second.arg.placement.isEmpty = false) (exactSecond : run.shaped.proc.ExactUnder other)
    (late : first.IsLate) (like : first.profile.likeCall = true) (raises : first.node.effects.raises = true)
    (spares : second.node.effects.isPersistent = false) : second.IsLate := by
  by_contra early
  obtain ⟨_, _, unpinned, deferred⟩ := first.late_cases late
  have acts : first.profile.arg.effects.isSideEffect = true := by
    simp [first.effects, Effects.isSideEffect, raises]
  rcases second.early_cases early with copied | pinned | ⟨noReg, unplaced⟩
  · obtain ⟨store, node, atStore, atNode, stores⟩ :=
      (outcome.undecided second.arg (mem_of_getElem? second.here)).copied copied
    cases second.early.symm.trans atStore
    cases second.atNode.symm.trans atNode
    obtain ⟨seen, walked, each⟩ := exactSecond
    have assigns := run.shaped.proc.exact_store second.atNode
      (each other (run.shaped.proc.root_visited walked)) stores
    simp [Effects.isPersistent, assigns] at spares
  · have spread := outcome.analysis.pinned_spreads beyond first.atProfile
      first.present acts (pinned ▸ second.atPinned)
    simp [first.atPinned, unpinned] at spread
  · have stackOnly : second.arg.placement.isStackOnly = true := by
      simp [Placement.isStackOnly, placed, noReg]
    rcases Target.ofTriple_stack triple with fixed | ⟨pushes, noSplit, strict⟩
    · -- the call in front would overwrite the slot, so the argument has to wait
      have waits : outcome.analysis.placed[later]? = some true := by
        refine (placesFrom_true_iff).mpr ⟨second.profile, second.atProfile, second.present, ?_,
          .inr (.inl ⟨index, first.profile, beyond, first.atProfile, like⟩)⟩
        simp [slotAtRisk, rules, shipped, fixed, second.described.stackOnly, stackOnly]
      simp [second.atPlaced, unplaced] at waits
    · -- no slot is at risk, so the first argument is in a register and may raise
      have inReg : first.arg.placement.hasReg = true := by
        rcases deferred with inReg | waits
        · exact inReg
        · obtain ⟨_, _, _, risk, _⟩ := (placesFrom_true_iff).mp (waits ▸ first.atPlaced)
          simp [slotAtRisk, rules, shipped, pushes, noSplit] at risk
      have hasStack : before.args.hasStackArgs = true := by
        rw [outcome.stack]
        exact any_eq_true.mpr ⟨second.arg, mem_of_getElem? second.here,
          second.arg.placement.hasStack_of_stackOnly stackOnly⟩
      have pinned := outcome.analysis.pinned_of_fault hasStack
        (by rw [shipped, strict]) first.atProfile (first.described.value.trans first.early)
        (first.described.inReg.trans inReg) first.atNode raises
      simp [first.atPinned, unpinned] at pinned

section Slot

variable (slot : outcome.Slot index value)

include slot

theorem call_raises (exact_ : run.shaped.proc.ExactUnder value)
    (calls : slot.node.effects.calls = true) : slot.node.effects.raises = true := by
  obtain ⟨seen, walked, each⟩ := exact_
  exact run.shaped.proc.exact_calls_raise each (run.shaped.proc.walk_spans walked)
    (run.shaped.proc.root_visited walked) slot.atNode calls

theorem mem_earlyIndices : index ∈ outcome.after.args.earlyIndices ↔ ¬ slot.IsLate := by
  rw [ArgList.mem_earlyIndices, IsLate]
  constructor
  · rintro ⟨last, atLast, has⟩ none_
    cases slot.atLast.symm.trans atLast
    simp [none_] at has
  · intro has
    exact ⟨slot.last, slot.atLast, Option.isSome_iff_ne_none.mpr has⟩

theorem mem_order : index ∈ run.order :=
  outcome.everyone.mem_iff.mpr (List.mem_range.mpr (lt_length slot.here))

theorem hasLate (late : slot.IsLate) : Materialize.hasLate outcome.after.args.args index = true := by
  simp [Materialize.hasLate, slot.atLast, (slot.late_cases late).1]

theorem front_calls (mem : index ∈ outcome.front) : slot.node.effects.calls = true :=
  ((outcome.calls index slot.arg value slot.node slot.here slot.early slot.atNode).mp mem).2

theorem mem_front (exact_ : run.shaped.proc.ExactUnder value) :
    index ∈ outcome.front ↔ slot.node.effects.calls = true := by
  refine ⟨slot.front_calls, fun calls => ?_⟩
  obtain ⟨seen, walked, each⟩ := exact_
  have notConstant : slot.node.kind.isIntConst = false := by
    by_contra constant
    have nothing := run.shaped.proc.exact_intConst slot.atNode
      (each value (run.shaped.proc.root_visited walked)) (by simpa using constant)
    simp [Node.effects, nothing, Impact.none] at calls
  exact (outcome.calls index slot.arg value slot.node slot.here slot.early slot.atNode).mpr ⟨notConstant, calls⟩

end Slot

theorem call_runsBefore (first : outcome.Slot index value) {second : outcome.Slot later other}
    (exactFirst : run.shaped.proc.ExactUnder value) (firstLate : first.IsLate) (secondLate : second.IsLate)
    (calls : first.node.effects.calls = true) (silent : second.node.effects.calls = false) :
    outcome.after.args.RunsBefore index later := by
  have lateOrder := outcome.late.trans (congrArg (filter _) outcome.callsFirst)
  rw [filter_append] at lateOrder
  have inFront := (first.mem_front exactFirst).mpr calls
  have behind : later ∉ outcome.front := fun mem => by
    cases silent.symm.trans (second.front_calls mem)
  refine outcome.after.args.runsBefore_of_split
    ((congrArg (outcome.after.args.earlyIndices ++ ·) lateOrder).trans
      (append_assoc _ _ _).symm) ?_ ?_ ?_
  · exact mem_append_right _ (mem_filter.mpr ⟨inFront, first.hasLate firstLate⟩)
  · intro mem
    rcases mem_append.mp mem with early | call
    · exact second.mem_earlyIndices.mp early secondLate
    · exact behind (mem_filter.mp call).1
  · have member := second.mem_order
    rw [outcome.callsFirst] at member
    exact mem_filter.mpr ⟨(mem_append.mp member).resolve_left behind,
      second.hasLate secondLate⟩

theorem late_mem (slot : outcome.Slot index value) (late : slot.IsLate) : index ∈ outcome.after.args.lateOrder := by
  rw [outcome.late]
  exact mem_filter.mpr ⟨slot.mem_order, slot.hasLate late⟩

theorem early_runsBefore (first : outcome.Slot index value) (second : outcome.Slot later other)
    (beyond : index < later) (early : ¬ first.IsLate) : outcome.after.args.RunsBefore index later := by
  by_cases late : second.IsLate
  · exact ArgList.early_runsBefore_late _ (first.mem_earlyIndices.mpr early)
      (fun mem => second.mem_earlyIndices.mp mem late) (second.late_mem late)
  · exact ArgList.early_runsBefore_early beyond (first.mem_earlyIndices.mpr early)
      (second.mem_earlyIndices.mpr late)

end Slot

end Outcome

-- Of two values that interfere, the one that stood first in the list is computed first.
theorem interfering_values_keep_order (run : CallRun settings id) (triple : Triple)
    (shipped : settings.target = Target.ofTriple triple)
    (plain : settings.options.debugCode = false) (list : ArgList)
    (atShaped : run.shaped.proc.calls[id]?.map Call.args = some list)
    (placed : ∀ arg ∈ list.args, arg.placement.isEmpty = false)
    (values : ∀ arg ∈ list.args, ∃ value, arg.early = some value
      ∧ run.shaped.proc.ExactUnder value)
    (i j : Nat) (first second : Argument) (v w : NodeId) (inFront : i < j)
    (atFirst : list.args[i]? = some first) (atSecond : list.args[j]? = some second)
    (hasV : first.early = some v) (hasW : second.early = some w)
    (interfere : run.shaped.proc.Interfere v w) :
    ∃ after, run.settled.calls[id]?.map Call.args = some after ∧ after.RunsBefore i j := by
  obtain ⟨before, outcome, rfl, atSettled⟩ := run.outcome_of atShaped
  obtain ⟨⟨slotI⟩, exactV⟩ := outcome.exact_slot values atFirst hasV
  obtain ⟨⟨slotJ⟩, exactW⟩ := outcome.exact_slot values atSecond hasW
  refine ⟨outcome.after.args, atSettled, ?_⟩
  by_cases lateI : slotI.IsLate
  · obtain ⟨calls, spares⟩ :=
      slotI.late_interferes slotJ inFront plain exactV exactW lateI interfere
    have lateJ := slotI.late_spreads inFront shipped
      (placed _ (List.mem_of_getElem? slotJ.here)) exactW lateI (slotI.called calls)
      (slotI.call_raises exactV calls) spares
    have silent : slotJ.node.effects.calls = false := by
      simp only [Effects.isPersistent, Bool.or_eq_false_iff] at spares
      exact spares.2
    exact slotI.call_runsBefore exactV lateI lateJ calls silent
  · exact slotI.early_runsBefore slotJ inFront lateI

-- A load, a call and another load, passed to one call in registers. The first load gets a temp, the
-- call and the second load go to the late list.
def loadCallLoad : List Instruction :=
  [.declare .ptr, .readLocal 0, .load 0 true .i32,
    .call { target := .method "callee", returnType := .i32 }, .readLocal 0, .load 3 true .i32,
    .call { target := .method "taker", args := [(1, .i32), (2, .i32), (4, .i32)] }]

def onLinux : Settings := { target := Target.ofTriple ⟨.x64, .linux⟩ }

def loadCallLoadRun : CallRun onLinux 1 :=
  (CallRun.ofBody? onLinux 1 loadCallLoad).get (by decide +kernel)

theorem call_keeps_order_before_load :
    loadCallLoadRun.shaped.proc.Interfere 2 4
      ∧ ∃ after, loadCallLoadRun.settled.calls[1]?.map Call.args = some after
        ∧ after.RunsBefore 1 2 := by
  have interfere : loadCallLoadRun.shaped.proc.Interfere 2 4 := by
    obtain ⟨call, atCall, acts⟩ := (Option.any_eq_true (fun node : Node => node.effects.isPersistent)
      loadCallLoadRun.shaped.proc.nodes[2]?).mp (by decide +kernel)
    obtain ⟨load, atLoad, global⟩ := (Option.any_eq_true (fun node : Node => node.effects.isGlobal)
      loadCallLoadRun.shaped.proc.nodes[4]?).mp (by decide +kernel)
    exact .inl (.inl ⟨call, load, atCall, atLoad, acts, global⟩)
  obtain ⟨list, atShaped, placed, values, slots⟩ := loadCallLoadRun.list_of_check [(1, 2), (2, 4)] (by decide +kernel)
  obtain ⟨first, atFirst, hasCall⟩ := slots (1, 2) (by simp)
  obtain ⟨second, atSecond, hasLoad⟩ := slots (2, 4) (by simp)
  exact ⟨interfere, interfering_values_keep_order loadCallLoadRun ⟨.x64, .linux⟩ rfl rfl list atShaped
    placed values 1 2 first second 2 4 (by decide) atFirst atSecond hasCall hasLoad interfere⟩

end CallRun

end CallLowering
