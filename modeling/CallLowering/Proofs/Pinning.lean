import CallLowering.Proofs.Growth
import CallLowering.Proofs.Pins

/-! What the analysis of one argument list guarantees. -/

namespace CallLowering

open List

variable {proc : Procedure} {a b blocked : List Bool} {args : List Argument} {arg : Argument} {data : Call}
  {id : CallId} {results : List ArgSummary} {list : List Interference.Profile} {earlier index later : Nat}
  {value : NodeId}
  {settings : Settings} {second first : ArgSummary} {node : Node}

namespace ArgSummary

-- A summary says of an argument what the analysis may rely on.
structure Describes (proc : Procedure) (arg : Argument) (summary : ArgSummary) : Prop where
  value : summary.value = arg.early
  inReg : summary.inReg = arg.placement.hasReg
  stackOnly : summary.stackOnly = arg.placement.isStackOnly
  isSplit : summary.isSplit = arg.placement.isSplit
  hasStack : summary.hasStack = arg.placement.hasStack
  absent : arg.early = none → summary.effects = {}
  node : ∀ value, arg.early = some value → ∃ node, proc.nodes[value]? = some node
    ∧ summary.effects = node.effects ∧ summary.exceptions = node.exceptions
    ∧ (node.effects.assigns = true → proc.storedLocals value = .ok summary.stored)
    ∧ summary.spreadStruct = (arg.ty.isStruct && arg.placement.isMulti && !node.kind.isLocalRead)

theorem ofArgument_describes {summary : ArgSummary}
    (done : ofArgument proc arg = .ok summary) : Describes proc arg summary := by
  unfold ofArgument at done
  cases early : arg.early with
  | none =>
    simp only [early] at done
    cases done
    exact ⟨early.symm, rfl, rfl, rfl, rfl, fun _ => rfl, by simp [early]⟩
  | some value =>
    simp only [early, except_bind_ok_iff] at done
    obtain ⟨node, found, rest⟩ := done
    have here := proc.node_ok_iff.mp found
    split at rest
    · obtain ⟨stored, stores, same⟩ := except_bind_ok_iff.mp rest
      cases same
      refine ⟨early.symm, rfl, rfl, rfl, rfl, by simp [early], ?_⟩
      intro other same
      cases early.symm.trans same
      exact ⟨node, here, rfl, rfl, fun _ => stores, rfl⟩
    · rename_i silent
      obtain ⟨stored, _, same⟩ := except_bind_ok_iff.mp rest
      cases same
      refine ⟨early.symm, rfl, rfl, rfl, rfl, by simp [early], ?_⟩
      intro other same
      cases early.symm.trans same
      exact ⟨node, here, rfl, rfl, fun assigns => absurd assigns silent, rfl⟩

-- The locals read are the only thing that the second pass over the summaries fills in, and it does
-- so in front of a store.
theorem addReads_cons {arg : ArgSummary} {later : List ArgSummary}
    (done : addReads proc (arg :: later) = .ok results) :
    ∃ read tail, results = { arg with read } :: tail ∧ addReads proc later = .ok tail
      ∧ ∀ value, arg.value = some value → later.any (fun other => !other.stored.isEmpty) = true →
        proc.localsRead value = .ok read := by
  simp only [addReads, except_bind_ok_iff] at done
  obtain ⟨tail, atLater, rest⟩ := done
  cases value : arg.value with
  | none =>
    simp only [value] at rest
    cases rest
    exact ⟨arg.read, tail, by rw [← value], atLater, by simp⟩
  | some id =>
    simp only [value] at rest
    split at rest
    · simp only [except_bind_ok_iff] at rest
      obtain ⟨read, found, same⟩ := rest
      cases same
      refine ⟨read, tail, rfl, atLater, ?_⟩
      intro other same _
      cases same
      exact found
    · rename_i nothing
      cases rest
      exact ⟨arg.read, tail, by rw [← value], atLater, fun _ _ some => absurd some nothing⟩

theorem addReads_stored {summaries : List ArgSummary} (done : addReads proc summaries = .ok results) :
    results.map ArgSummary.stored = summaries.map ArgSummary.stored := by
  induction summaries generalizing results with
  | nil =>
    cases done
    rfl
  | cons arg later ih =>
    obtain ⟨read, tail, rfl, atLater, _⟩ := addReads_cons done
    simp [ih atLater]

theorem addReads_at {summaries : List ArgSummary} (done : addReads proc summaries = .ok results)
    {after : ArgSummary} (here : results[index]? = some after) :
    ∃ before, summaries[index]? = some before ∧ after = { before with read := after.read } := by
  induction summaries generalizing results index with
  | nil =>
    cases done
    simp at here
  | cons arg later ih =>
    obtain ⟨read, tail, rfl, atLater, _⟩ := addReads_cons done
    cases index with
    | zero =>
      cases here
      exact ⟨arg, rfl, rfl⟩
    | succ index => exact ih atLater here

theorem addReads_length {summaries : List ArgSummary} (done : addReads proc summaries = .ok results) :
    results.length = summaries.length := by
  simpa using congrArg List.length (addReads_stored done)

theorem addReads_known {summaries : List ArgSummary} (done : addReads proc summaries = .ok results)
    (first second : ArgSummary) (inFront : earlier < later) (atFirst : results[earlier]? = some first)
    (atSecond : results[later]? = some second) (hasValue : first.value = some value)
    (stores : second.stored ≠ []) : proc.localsRead value = .ok first.read := by
  induction summaries generalizing results earlier later with
  | nil =>
    cases done
    simp at atFirst
  | cons arg rest ih =>
    obtain ⟨read, tail, rfl, atRest, known⟩ := addReads_cons done
    obtain ⟨later, rfl⟩ : ∃ before, later = before + 1 := ⟨later - 1, by omega⟩
    cases earlier with
    | succ earlier => exact ih atRest (by omega) atFirst atSecond
    | zero =>
      cases atFirst
      apply known value hasValue
      have member : second.stored ∈ rest.map ArgSummary.stored := by
        rw [← addReads_stored atRest]
        exact mem_map_of_mem (mem_of_getElem? atSecond)
      obtain ⟨other, mem, same⟩ := mem_map.mp member
      exact any_eq_true.mpr ⟨other, mem, by simpa [same] using stores⟩

variable {summaries : List ArgSummary} (done : ofArguments proc args = .ok summaries)

include done

theorem ofArguments_length : summaries.length = args.length := by
  obtain ⟨first, atFirst, atSecond⟩ := except_bind_ok_iff.mp done
  rw [addReads_length atSecond]
  exact (mapM_except_ok_iff.mp atFirst).length_eq.symm

theorem ofArguments_describes (here : args[index]? = some arg) :
    ∃ summary, summaries[index]? = some summary ∧ Describes proc arg summary := by
  have sameLength := ofArguments_length done
  have bound : index < args.length := lt_length here
  obtain ⟨first, atFirst, atSecond⟩ := except_bind_ok_iff.mp done
  have found : summaries[index]? = some summaries[index] := List.getElem?_eq_getElem (by omega)
  refine ⟨_, found, ?_⟩
  obtain ⟨before, atBefore, same⟩ := addReads_at atSecond found
  have pairs := mapM_except_ok_iff.mp atFirst
  obtain ⟨mem, atIndex⟩ := List.getElem?_eq_some_iff.mp atBefore
  have summed := pairs.get bound mem
  obtain ⟨_, atArg⟩ := List.getElem?_eq_some_iff.mp here
  simp only [List.get_eq_getElem, atArg, atIndex] at summed
  have described := ofArgument_describes summed
  rw [same]
  exact { described with }

theorem ofArguments_known (inFront : earlier < later)
    (atFirst : summaries[earlier]? = some first) (atSecond : summaries[later]? = some second)
    (hasValue : first.value = some value) (stores : second.stored ≠ []) : proc.localsRead value = .ok first.read := by
  obtain ⟨before, _, read⟩ := except_bind_ok_iff.mp done
  exact addReads_known read first second inFront atFirst atSecond hasValue stores

end ArgSummary

namespace Interference

section Anywhere

variable {α : Type} {items : List α} {test : α → Bool} {index : Nat}

theorem any_drop_iff : (items.drop (index + 1)).any test = true
    ↔ ∃ later item, index < later ∧ items[later]? = some item ∧ test item = true := by
  simp only [any_eq_true, mem_iff_getElem?, getElem?_drop]
  constructor
  · rintro ⟨item, ⟨more, found⟩, holds⟩
    exact ⟨index + 1 + more, item, by omega, found, holds⟩
  · rintro ⟨later, item, beyond, found, holds⟩
    exact ⟨item, ⟨later - (index + 1), by rwa [Nat.add_sub_cancel' beyond]⟩, holds⟩

theorem any_take_iff : (items.take index).any test = true
    ↔ ∃ earlier item, earlier < index ∧ items[earlier]? = some item ∧ test item = true := by
  simp only [any_eq_true, mem_iff_getElem?, getElem?_take, Option.ite_none_right_eq_some]
  constructor
  · rintro ⟨item, ⟨earlier, inFront, found⟩, holds⟩
    exact ⟨earlier, item, inFront, found, holds⟩
  · rintro ⟨earlier, item, inFront, found, holds⟩
    exact ⟨item, ⟨earlier, inFront, found⟩, holds⟩

theorem any_beside_iff : ((items.take index).any test || (items.drop (index + 1)).any test) = true
    ↔ ∃ other item, other ≠ index ∧ items[other]? = some item ∧ test item = true := by
  rw [Bool.or_eq_true, any_take_iff, any_drop_iff]
  constructor
  · rintro (⟨other, item, apart, found⟩ | ⟨other, item, apart, found⟩)
    · exact ⟨other, item, Nat.ne_of_lt apart, found⟩
    · exact ⟨other, item, Nat.ne_of_gt apart, found⟩
  · rintro ⟨other, item, apart, found⟩
    exact (Nat.lt_or_gt_of_ne apart).imp (fun before => ⟨other, item, before, found⟩)
      fun behind => ⟨other, item, behind, found⟩

end Anywhere

theorem profiles_args (rules : Rules) (args : List ArgSummary) : (profiles rules args).map Profile.arg = args := by
  unfold profiles
  generalize false = stackBefore
  generalize none = last
  induction args generalizing stackBefore last with
  | nil => rfl
  | cons first later ih => simp [profilesFrom, ih]

theorem profiles_length (rules : Rules) (args : List ArgSummary) : (profiles rules args).length = args.length := by
  simpa using congrArg List.length (profiles_args rules args)

theorem profilesFrom_like (rules : Rules) (stackBefore : Bool) (last : Option Exceptions)
    (args : List ArgSummary) (index : Nat) :
    (profilesFrom rules stackBefore last args)[index]?.map (fun profile => (profile.arg, profile.likeCall))
      = args[index]?.map fun arg => (arg, arg.effects.calls
        || isChecked rules (stackBefore || (args.take index).any ArgSummary.hasStack
          || (args.drop (index + 1)).any ArgSummary.hasStack) arg) := by
  induction args generalizing stackBefore last index with
  | nil => rfl
  | cons first later ih =>
    cases index with
    | zero => simp [profilesFrom]
    | succ index => simp [profilesFrom, ih, Bool.or_assoc]

variable {profile : Profile}

theorem profiles_like_iff {rules : Rules} {args : List ArgSummary}
    (here : (profiles rules args)[index]? = some profile) :
    profile.likeCall = true ↔ profile.arg.effects.calls = true
      ∨ rules.debugCode = true ∧ rules.fixedOut = true ∧ rules.several = true ∧ profile.arg.effects.raises = true
        ∧ (profile.arg.exceptions.indexOutOfRange || profile.arg.exceptions.overflow) = true
        ∧ ∃ other arg, other ≠ index ∧ args[other]? = some arg ∧ arg.hasStack = true := by
  have like := profilesFrom_like rules false none args index
  rw [show profilesFrom rules false none args = profiles rules args from rfl, here, Option.map_some] at like
  obtain ⟨arg, _, same⟩ := Option.map_eq_some_iff.mp like.symm
  obtain ⟨rfl, like⟩ := Prod.mk.inj same
  rw [← like, Bool.or_eq_true, isChecked]
  simp only [Bool.false_or, Bool.and_eq_true, any_beside_iff, and_assoc]

theorem profilesFrom_differs (rules : Rules) (stackBefore : Bool) (exceptions : Exceptions)
    {args : List ArgSummary} (index : Nat) {arg : ArgSummary} (here : args[index]? = some arg)
    (raises : arg.effects.raises = true) (other : exceptions ≠ arg.exceptions ∨ arg.exceptions.isSingleKind = false) :
    ∃ between profile, between ≤ index
      ∧ (profilesFrom rules stackBefore (some exceptions) args)[between]? = some profile
      ∧ (profile.differs = true ∨ profile.likeCall = true) := by
  induction args generalizing stackBefore exceptions index with
  | nil => simp at here
  | cons first later ih =>
    by_cases checked : isChecked rules (stackBefore || later.any ArgSummary.hasStack) first = true
    · exact ⟨0, _, Nat.zero_le index, rfl, .inr (by simp [checked])⟩
    · by_cases raisesFirst : first.effects.raises = true
      · by_cases differs : exceptions ≠ first.exceptions ∨ first.exceptions.isSingleKind = false
        · refine ⟨0, _, Nat.zero_le index, rfl, .inl ?_⟩
          rcases differs with different | several
          · simp [checked, raisesFirst, different]
          · simp [checked, raisesFirst, several]
        · obtain ⟨same, single⟩ := not_or.mp differs
          have same : exceptions = first.exceptions := not_not.mp same
          cases index with
          | zero =>
            cases here
            exact absurd other differs
          | succ index =>
            obtain ⟨between, profile, bound, found, marked⟩ :=
              ih (stackBefore || first.hasStack) first.exceptions index here (same ▸ other)
            refine ⟨between + 1, profile, Nat.succ_le_succ bound, ?_, marked⟩
            simpa [profilesFrom, checked, raisesFirst] using found
      · cases index with
        | zero =>
          cases here
          exact absurd raises raisesFirst
        | succ index =>
          obtain ⟨between, profile, bound, found, marked⟩ :=
            ih (stackBefore || first.hasStack) exceptions index here other
          refine ⟨between + 1, profile, Nat.succ_le_succ bound, ?_, marked⟩
          simpa [profilesFrom, raisesFirst] using found

theorem profilesFrom_apart {rules : Rules} (stackBefore : Bool) (last : Option Exceptions)
    {args : List ArgSummary} (earlier later : Nat)
    (inFront : earlier < later) (atFirst : args[earlier]? = some first) (atSecond : args[later]? = some second)
    (loose : rules.debugCode = false ∨ ∃ profile,
      (profilesFrom rules stackBefore last args)[earlier]? = some profile ∧ profile.likeCall = false)
    (firstRaises : first.effects.raises = true) (secondRaises : second.effects.raises = true)
    (other : first.exceptions ≠ second.exceptions ∨ second.exceptions.isSingleKind = false) :
    ∃ between profile, earlier < between
      ∧ (profilesFrom rules stackBefore last args)[between]? = some profile
      ∧ (profile.differs = true ∨ profile.likeCall = true) := by
  induction args generalizing stackBefore last earlier later with
  | nil => simp at atFirst
  | cons head rest ih =>
    obtain ⟨later, rfl⟩ : ∃ before, later = before + 1 := ⟨later - 1, by omega⟩
    cases earlier with
    | zero =>
      cases atFirst
      have unchecked : isChecked rules (stackBefore || rest.any ArgSummary.hasStack) first = false := by
        rcases loose with plain | ⟨profile, atProfile, loose⟩
        · simp [isChecked, plain]
        · cases atProfile
          exact (Bool.or_eq_false_iff.mp loose).2
      obtain ⟨between, profile, _, found, marked⟩ :=
        profilesFrom_differs rules (stackBefore || first.hasStack) first.exceptions later atSecond secondRaises other
      refine ⟨between + 1, profile, Nat.succ_pos between, ?_, marked⟩
      simpa [profilesFrom, unchecked, firstRaises] using found
    | succ earlier =>
      obtain ⟨between, profile, bound, found, marked⟩ :=
        ih (stackBefore || head.hasStack) _ earlier later (by omega) atFirst atSecond loose
      exact ⟨between + 1, profile, Nat.succ_lt_succ bound, found, marked⟩

theorem requests_length {rules : Rules} {profiles : List Profile} :
    (requests rules profiles).length = profiles.length := by
  induction profiles with
  | nil => rfl
  | cons profile later ih => simp [requests, ih]

theorem requests_at (rules : Rules) (profiles : List Profile) (index : Nat) :
    (requests rules profiles)[index]? = profiles[index]?.map fun profile =>
      pinsItself rules profile || (profiles.drop (index + 1)).any fun other => pins other profile := by
  induction profiles generalizing index with
  | nil => rfl
  | cons profile rest ih =>
    cases index with
    | zero => rfl
    | succ index => exact ih index

theorem requests_true_iff {rules : Rules} {profiles : List Profile} (index : Nat) :
    (requests rules profiles)[index]? = some true
      ↔ ∃ profile, profiles[index]? = some profile ∧ (pinsItself rules profile = true
        ∨ ∃ later other, index < later ∧ profiles[later]? = some other ∧ pins other profile = true) := by
  simp only [requests_at, Option.map_eq_some_iff, Bool.or_eq_true, any_drop_iff]

theorem placesFrom_length (rules : Rules) (callBefore : Bool) (profiles : List Profile) :
    (placesFrom rules callBefore profiles).length = profiles.length := by
  induction profiles generalizing callBefore with
  | nil => rfl
  | cons profile later ih => simp [placesFrom, ih]

theorem placesFrom_at (rules : Rules) (callBefore : Bool) (profiles : List Profile) (index : Nat) :
    (placesFrom rules callBefore profiles)[index]? = profiles[index]?.map fun profile =>
      profile.arg.value.isSome && slotAtRisk rules profile.arg
        && (callBefore || (profiles.take index).any Profile.likeCall
          || (profiles.drop (index + 1)).any Profile.likeCall && !profile.arg.effects.isGlobal) := by
  induction profiles generalizing callBefore index with
  | nil => rfl
  | cons profile rest ih =>
    cases index with
    | zero => simp [placesFrom]
    | succ index => simp [placesFrom, ih, Bool.or_assoc]

theorem placesFrom_true_iff {rules : Rules} {callBefore : Bool} {profiles : List Profile} :
    (placesFrom rules callBefore profiles)[index]? = some true
      ↔ ∃ profile, profiles[index]? = some profile ∧ profile.arg.value.isSome = true
        ∧ slotAtRisk rules profile.arg = true
        ∧ (callBefore = true
          ∨ (∃ earlier other, earlier < index ∧ profiles[earlier]? = some other
            ∧ other.likeCall = true)
          ∨ profile.arg.effects.isGlobal = false ∧ ∃ later other, index < later
            ∧ profiles[later]? = some other ∧ other.likeCall = true) := by
  simp only [placesFrom_at, Option.map_eq_some_iff, Bool.and_eq_true, Bool.or_eq_true, Bool.not_eq_true', any_take_iff,
    any_drop_iff, or_assoc, and_assoc, and_comm]

structure Analysis (settings : Settings) (proc : Procedure) (data : Call) (marks : List Mark) where
  summaries : List ArgSummary
  list : List Profile
  blocked : List Bool
  dispatched : List Bool
  summarized : ArgSummary.ofArguments proc data.args.args = .ok summaries
  profiled : list = profiles (rules settings data) summaries
  blocks : if data.args.hasStackArgs = true then
      blockRequests settings.target.faultRule proc list
        (pinAll list (unpinned list) (requests (rules settings data) list)) = .ok blocked
    else blocked = unpinned list
  dispatches : if isGuarded settings data = true then
      ∃ index, data.args.thisIndex = some index ∧ dispatched = dispatchRequests index list
    else dispatched = unpinned list
  marked : marks = List.zipWith Mark.mk
    (pinAll list (pinAll list (pinAll list (unpinned list) (requests (rules settings data) list)) blocked) dispatched)
    (places (rules settings data) list)

theorem analyse_ok {marks : List Mark} (done : analyse settings id proc data = .ok marks) :
    Nonempty (Analysis settings proc data marks) := by
  simp only [analyse, except_bind_ok_iff] at done
  obtain ⟨summaries, summed, rest⟩ := done
  have summarized := (lift_except_ok_iff).mp summed
  split at rest
  · rename_i hasStack
    obtain ⟨blocked, found, rest⟩ := except_bind_ok_iff.mp rest
    have blocks := (lift_except_ok_iff).mp found
    split at rest
    · rename_i guarded
      split at rest
      · rename_i index atThis
        cases rest
        exact ⟨⟨summaries, _, blocked, _, summarized, rfl, by simpa [hasStack] using blocks,
          by simpa [guarded] using ⟨index, atThis, rfl⟩, rfl⟩⟩
      · cases rest
    · rename_i unguarded
      cases rest
      exact ⟨⟨summaries, _, blocked, _, summarized, rfl, by simpa [hasStack] using blocks,
        by simp [unguarded], rfl⟩⟩
  · rename_i noStack
    split at rest
    · rename_i guarded
      split at rest
      · rename_i index atThis
        cases rest
        exact ⟨⟨summaries, _, _, _, summarized, rfl, by simp [noStack],
          by simpa [guarded] using ⟨index, atThis, rfl⟩, rfl⟩⟩
      · cases rest
    · rename_i unguarded
      cases rest
      exact ⟨⟨summaries, _, _, _, summarized, rfl, by simp [noStack], by simp [unguarded], rfl⟩⟩

theorem blockRequests_length {rule : FaultRule} {pinned : List Bool} (sameLength : pinned.length = list.length)
    (done : blockRequests rule proc list pinned = .ok blocked) : blocked.length = list.length := by
  have pairs := mapM_except_ok_iff.mp done
  rw [← pairs.length_eq, length_zip, sameLength, Nat.min_self]

-- A register argument that may raise is asked for where anything that raises is, unless it has its
-- temp already.
theorem blockRequests_raises {pinned : List Bool}
    (done : blockRequests .raises proc list pinned = .ok blocked) (here : list[index]? = some profile)
    (open_ : pinned[index]? = some false) (hasValue : profile.arg.value = some value)
    (inReg : profile.arg.inReg = true) (found : proc.nodes[value]? = some node)
    (raises : node.effects.raises = true) : blocked[index]? = some true := by
  have pairs := mapM_except_ok_iff.mp done
  have zipped : (list.zip pinned)[index]? = some (profile, false) :=
    getElem?_zip_eq_some.mpr ⟨here, open_⟩
  obtain ⟨bound, atZip⟩ := List.getElem?_eq_some_iff.mp zipped
  have mem : index < blocked.length := pairs.length_eq ▸ bound
  have asked := pairs.get bound mem
  simp only [List.get_eq_getElem, atZip, hasValue, inReg, faultBlocks] at asked
  have read : proc.node value = .ok node := proc.node_ok_iff.mpr found
  rw [read] at asked
  have answer : node.effects.raises = blocked[index] := Except.ok.inj asked
  rw [getElem?_eq_getElem mem, ← answer, raises]

namespace Analysis

variable {settings : Settings} {proc : Procedure} {data : Call} {marks : List Mark}

def own (analysis : Analysis settings proc data marks) : List Bool :=
  requests (rules settings data) analysis.list

def requested (analysis : Analysis settings proc data marks) : List Bool :=
  union (union analysis.own analysis.blocked) analysis.dispatched

def ownPinned (analysis : Analysis settings proc data marks) : List Bool :=
  pinAll analysis.list (unpinned analysis.list) analysis.own

def pinned (analysis : Analysis settings proc data marks) : List Bool :=
  pinAll analysis.list (pinAll analysis.list analysis.ownPinned analysis.blocked) analysis.dispatched

-- All requests, in the order in which they are made.
def order (analysis : Analysis settings proc data marks) : List Nat :=
  wanted analysis.own ++ wanted analysis.blocked ++ wanted analysis.dispatched

def placed (analysis : Analysis settings proc data marks) : List Bool :=
  places (rules settings data) analysis.list

variable (analysis : Analysis settings proc data marks)

include analysis

theorem own_length : analysis.own.length = analysis.list.length :=
  requests_length

theorem ownPinned_reached : analysis.ownPinned.length = analysis.list.length
    ∧ ∀ index, analysis.ownPinned[index]? = some true
      ↔ Reached analysis.list (fun index => analysis.own[index]? = some true) index := by
  rw [ownPinned, pinAll_eq_foldl]
  simpa only [mem_wanted] using pins_reached analysis.list (wanted analysis.own)

theorem blocked_length : analysis.blocked.length = analysis.list.length := by
  have blocks := analysis.blocks
  split at blocks
  · exact blockRequests_length analysis.ownPinned_reached.1 blocks
  · rw [blocks, unpinned, length_map]

theorem dispatched_length : analysis.dispatched.length = analysis.list.length := by
  have dispatches := analysis.dispatches
  split at dispatches
  · obtain ⟨index, _, same⟩ := dispatches
    rw [same, dispatchRequests, length_map, length_zipIdx]
  · rw [dispatches, unpinned, length_map]

theorem asked_length : (union analysis.own analysis.blocked).length = analysis.list.length := by
  rw [union_length (analysis.own_length.trans analysis.blocked_length.symm), analysis.own_length]

theorem list_length : analysis.list.length = data.args.args.length := by
  rw [analysis.profiled, profiles_length, ArgSummary.ofArguments_length analysis.summarized]

theorem requested_iff (index : Nat) : analysis.requested[index]? = some true
    ↔ analysis.own[index]? = some true ∨ analysis.blocked[index]? = some true
      ∨ analysis.dispatched[index]? = some true := by
  rw [requested, union_iff (analysis.asked_length.trans analysis.dispatched_length.symm),
    union_iff (analysis.own_length.trans analysis.blocked_length.symm), or_assoc]

theorem pinned_eq_foldl : analysis.pinned = analysis.order.foldl (pin analysis.list) (unpinned analysis.list) := by
  simp only [pinned, ownPinned, order, pinAll_eq_foldl, foldl_append]

theorem mem_order (index : Nat) : index ∈ analysis.order ↔ analysis.requested[index]? = some true := by
  simp only [order, mem_append, mem_wanted, analysis.requested_iff, or_assoc]

theorem pinned_reached : analysis.pinned.length = analysis.list.length
    ∧ ∀ index, analysis.pinned[index]? = some true
      ↔ Reached analysis.list (fun index => analysis.requested[index]? = some true) index := by
  rw [pinned_eq_foldl]
  simpa only [analysis.mem_order] using pins_reached analysis.list analysis.order

theorem pinned_of_own (here : analysis.list[index]? = some profile) (hasValue : profile.arg.value.isSome = true)
    (asked : analysis.own[index]? = some true) : analysis.pinned[index]? = some true :=
  (analysis.pinned_reached.2 index).mpr
    ⟨profile, here, hasValue, .inl ((analysis.requested_iff index).mpr (.inl asked))⟩

theorem pinned_spreads (inFront : earlier < later) (here : analysis.list[earlier]? = some profile)
    (hasValue : profile.arg.value.isSome = true) (acts : profile.arg.effects.isSideEffect = true)
    (pinned : analysis.pinned[later]? = some true) : analysis.pinned[earlier]? = some true :=
  (analysis.pinned_reached.2 earlier).mpr
    (((analysis.pinned_reached.2 later).mp pinned).spreads inFront here hasValue acts)

theorem pinned_of_fault (hasStack : data.args.hasStackArgs = true)
    (strict : settings.target.faultRule = .raises) (here : analysis.list[index]? = some profile)
    (hasValue : profile.arg.value = some value) (inReg : profile.arg.inReg = true)
    (found : proc.nodes[value]? = some node) (raises : node.effects.raises = true) :
    analysis.pinned[index]? = some true := by
  have present : profile.arg.value.isSome = true := by simp [hasValue]
  have blocks := analysis.blocks
  rw [if_pos hasStack, strict] at blocks
  have bound : index < analysis.ownPinned.length := analysis.ownPinned_reached.1 ▸ lt_length here
  cases before : analysis.ownPinned[index] with
  | false =>
    have asked := blockRequests_raises blocks here ((getElem?_eq_getElem bound).trans (congrArg some before))
      hasValue inReg
      found raises
    exact (analysis.pinned_reached.2 index).mpr
      ⟨profile, here, present, .inl ((analysis.requested_iff index).mpr (.inr (.inl asked)))⟩
  | true =>
    have settled := (getElem?_eq_getElem bound).trans (congrArg some before)
    exact (analysis.pinned_reached.2 index).mpr (((analysis.ownPinned_reached.2 index).mp settled).mono
      fun other asked => (analysis.requested_iff other).mpr (.inl asked))

theorem profile_at (here : data.args.args[index]? = some arg) :
    ∃ profile, analysis.list[index]? = some profile ∧ ArgSummary.Describes proc arg profile.arg
      ∧ (profile.arg.effects.calls = true → profile.likeCall = true)
      ∧ (settings.options.debugCode = false → profile.likeCall = profile.arg.effects.calls) := by
  obtain ⟨summary, atSummary, described⟩ :=
    ArgSummary.ofArguments_describes analysis.summarized here
  rw [← profiles_args (rules settings data) analysis.summaries, getElem?_map] at atSummary
  obtain ⟨profile, atProfile, rfl⟩ := Option.map_eq_some_iff.mp atSummary
  have like := profiles_like_iff atProfile
  refine ⟨profile, analysis.profiled ▸ atProfile, described, fun calls => like.mpr (.inl calls), fun plain => ?_⟩
  rw [Bool.eq_iff_iff, like]
  simp [rules, plain]

theorem summary_at (here : analysis.list[index]? = some profile) :
    analysis.summaries[index]? = some profile.arg := by
  rw [analysis.profiled] at here
  rw [← profiles_args (rules settings data) analysis.summaries, getElem?_map, here,
    Option.map_some]

theorem mark_at (here : analysis.list[index]? = some profile) :
    ∃ mark, marks[index]? = some mark ∧ analysis.pinned[index]? = some mark.pinned
      ∧ analysis.placed[index]? = some mark.placed := by
  have bound : index < analysis.list.length := lt_length here
  have inPinned : index < analysis.pinned.length := by
    rw [analysis.pinned_reached.1]
    exact bound
  have inPlaced : index < analysis.placed.length := by
    rw [placed, places, placesFrom_length]
    exact bound
  refine ⟨⟨analysis.pinned[index], analysis.placed[index]⟩, ?_, getElem?_eq_getElem inPinned,
    getElem?_eq_getElem inPlaced⟩
  refine (congrArg (·[index]?) analysis.marked).trans ?_
  exact getElem?_zipWith_eq_some.mpr
    ⟨_, _, getElem?_eq_getElem inPinned, getElem?_eq_getElem inPlaced, rfl⟩

theorem marks_length : marks.length = data.args.args.length := by
  have pinnedLength := analysis.pinned_reached.1
  have placedLength := placesFrom_length (rules settings data) false analysis.list
  rw [analysis.marked, length_zipWith, ← analysis.list_length]
  exact (congrArg₂ min pinnedLength placedLength).trans (Nat.min_self _)

theorem marked_map {β : Type} (view : Argument → β) (blind : ∀ arg flags, view { arg with flags } = view arg) :
    (List.zipWith applyMark data.args.args marks).map view = data.args.args.map view := by
  apply ext_getElem
  · rw [length_map, length_map, length_zipWith, analysis.marks_length, Nat.min_self]
  · intro index _ _
    simp only [getElem_map, getElem_zipWith, applyMark]
    exact blind _ _

theorem unpinned_unasked (here : analysis.list[index]? = some profile)
    (hasValue : profile.arg.value.isSome = true) (unpinned : analysis.pinned[index]? = some false) :
    pinsItself (rules settings data) profile = false
      ∧ ∀ (later : Nat) (other : Profile), index < later → analysis.list[later]? = some other →
        pins other profile = false := by
  have unasked : analysis.own[index]? ≠ some true := fun asked => by
    have pinned := analysis.pinned_of_own here hasValue asked
    simp [unpinned] at pinned
  constructor
  · by_contra asks
    exact unasked ((requests_true_iff index).mpr ⟨profile, here, .inl (by simpa using asks)⟩)
  · intro later other beyond atLater
    by_contra asks
    exact unasked ((requests_true_iff index).mpr
      ⟨profile, here, .inr ⟨later, other, beyond, atLater, by simpa using asks⟩⟩)

theorem late_assigns_nothing {mark : Mark} (here : analysis.list[index]? = some profile)
    (described : ArgSummary.Describes proc arg profile.arg) (hasValue : profile.arg.value.isSome = true)
    (several : 1 < data.args.size) (atPinned : analysis.pinned[index]? = some mark.pinned)
    (atPlaced : analysis.placed[index]? = some mark.placed) (unpinned : mark.pinned = false)
    (deferred : arg.placement.hasReg = true ∨ mark.placed = true) : profile.arg.effects.assigns = false := by
  obtain ⟨alone, _⟩ := analysis.unpinned_unasked here hasValue (unpinned ▸ atPinned)
  by_contra stores
  have stores : profile.arg.effects.assigns = true := by simpa using stores
  have manyArgs : (rules settings data).several = true := by simpa [rules] using several
  simp only [pinsItself, stores, manyArgs, Bool.true_and, Bool.and_true, Bool.or_eq_false_iff,
    Bool.not_eq_false'] at alone
  obtain ⟨⟨⟨pushed, stackOnly⟩, _⟩, _⟩ := alone
  rw [described.stackOnly] at stackOnly
  have noReg : arg.placement.hasReg = false := by
    simp only [Placement.isStackOnly, Bool.and_eq_true, Bool.not_eq_true'] at stackOnly
    exact stackOnly.2
  rcases deferred with inReg | placed
  · simp [noReg] at inReg
  · rw [placed] at atPlaced
    obtain ⟨same, atSame, _, risk, _⟩ := (placesFrom_true_iff).mp atPlaced
    cases here.symm.trans atSame
    simp [slotAtRisk, pushed, described.isSplit, Placement.isSplit, noReg] at risk

end Analysis

theorem complete_ok {p q : Procedure} (here : p.calls[id]? = some data)
    (done : complete settings id p = .ok () q) :
    ∃ marks, data.args.stage = .finalized ∧ Nonempty (Analysis settings p data marks)
      ∧ q = p.setCall id { data with args := { data.args with
        args := List.zipWith applyMark data.args.args marks, stage := .completed } } := by
  rw [complete, Edit.call_first here] at done
  split at done
  · simp only [bind_ok_iff, refuse_ok_iff, false_and, exists_false] at done
  · rename_i finalized
    have finalized : data.args.stage = .finalized := by simpa using finalized
    simp only [bind_ok_iff, get_ok_iff, lift_stop_ok_iff, lift_edit_ok_iff] at done
    obtain ⟨_, _, ⟨rfl, rfl⟩, marks, _, ⟨analysed, rfl⟩, marked⟩ := done
    obtain ⟨now, list, atNow, stepped, rfl⟩ := Edit.modifyArgs_ok marked
    cases here.symm.trans atNow
    simp only [ArgList.markComplete, finalized, if_true] at stepped
    cases stepped
    exact ⟨marks, finalized, analyse_ok analysed, rfl⟩

end Interference

end CallLowering
