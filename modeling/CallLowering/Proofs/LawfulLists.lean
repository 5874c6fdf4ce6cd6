import CallLowering.Proofs.Finalizing
import CallLowering.Proofs.Materializing
import CallLowering.Proofs.Ranking

/-!
What an argument list looks like in each stage of its life, and how it enters and leaves the stages in which it
has places.
-/

namespace CallLowering

open List

variable {data after before : Call} {finalizer : Option Settings} {settings : Settings} {value : NodeId}

-- The classifier of the settings reports this total for the arguments of a call.
def Settings.Reports (settings : Settings) (data : Call) (total : Nat) : Prop :=
  ∃ shapes answer, (data.args.args.filter fun arg => (settings.target.customReg arg.role).isNone).mapM
      (AbiInfo.argShape settings.types) = .ok shapes
    ∧ settings.target.classify (AbiInfo.callShape data) shapes = .ok answer ∧ answer.stackSize = total

theorem Settings.Reports.congr {total : Nat} (reports : settings.Reports before total)
    (flags : after.flags = before.flags) (convention : after.convention = before.convention)
    (args : after.args.args.map (fun arg => (arg.role, arg.ty))
      = before.args.args.map fun arg => (arg.role, arg.ty)) : settings.Reports after total := by
  have shapes : ∀ items : List Argument,
      (items.filter fun arg => (settings.target.customReg arg.role).isNone).mapM
          (AbiInfo.argShape settings.types)
        = ((items.map fun arg => (arg.role, arg.ty)).filter fun pair =>
            (settings.target.customReg pair.1).isNone).mapM fun pair =>
          (do pure { ty := pair.2, layout := ← settings.types.layoutOf pair.2, role := pair.1 }
            : Except Fault ArgShape) := by
    intro items
    rw [filter_map, mapM_map]
    rfl
  have roles : ∀ role, (after.args.findRole role).isSome = (before.args.findRole role).isSome := by
    intro role
    have found : ∀ items : List Argument, items.findIdx? (fun arg => arg.role == role)
        = (items.map fun arg => (arg.role, arg.ty)).findIdx? fun pair => pair.1 == role := by
      intro items
      rw [findIdx?_map]
      rfl
    rw [ArgList.findRole, ArgList.findRole, found, found, args]
  have sameShape : AbiInfo.callShape after = AbiInfo.callShape before := by
    simp only [AbiInfo.callShape, Call.isVarargs, Call.hasThis, Call.hasReturnBuffer, ArgList.thisIndex, flags,
      convention, roles]
  obtain ⟨found, answer, shaped, classified, reported⟩ := reports
  refine ⟨found, answer, ?_, ?_, reported⟩
  · rw [shapes, args, ← shapes]
    exact shaped
  · rw [sameShape]
    exact classified

theorem Stage.isFinalized_iff {stage : Stage} : stage.isFinalized = true ↔ stage ≠ .unfinalized := by
  cases stage <;> decide

-- The classifier raises no fault that has to do with stages, the allowed ones apart.
def Settings.RaisesOnly (settings : Settings) (allowed : Stop → Prop) : Prop :=
  ∀ call shapes stop, settings.target.classify call shapes = .error stop →
    stop.isStage = false ∨ allowed stop

-- A list in its stage. The settings are those under which it was finalized last.
structure Call.Lawful (finalizer : Option Settings) (data : Call) : Prop where
  unplaced : data.args.stage = .unfinalized → (∀ arg ∈ data.args.args, arg.placement = {})
    ∧ data.args.stackSize = 0 ∧ data.args.hasRegArgs = false ∧ data.args.hasStackArgs = false
  placed : data.args.stage ≠ .unfinalized →
    data.args.hasRegArgs = data.args.args.any (fun arg => arg.placement.hasReg)
      ∧ data.args.hasStackArgs = data.args.args.any (fun arg => arg.placement.hasStack)
      ∧ ∃ settings, finalizer = some settings ∧ settings.Reports data data.args.stackSize
  unordered : data.args.stage ≠ .materialized → data.args.lateOrder = []
  ordered : data.args.stage = .materialized → data.args.lateOrder.Nodup
    ∧ ∀ index : Nat, index ∈ data.args.lateOrder ↔
      ∃ arg, data.args.args[index]? = some arg ∧ arg.late.isSome = true

def Argument.fixed (arg : Argument) : ArgRole × ValueType × Placement := (arg.role, arg.ty, arg.placement)

namespace Call

structure Frozen (before after : Call) : Prop where
  flags : after.flags = before.flags
  convention : after.convention = before.convention
  args : after.args.args.map Argument.fixed = before.args.args.map Argument.fixed
  hasRegArgs : after.args.hasRegArgs = before.args.hasRegArgs
  hasStackArgs : after.args.hasStackArgs = before.args.hasStackArgs
  stackSize : after.args.stackSize = before.args.stackSize

theorem Frozen.refl (data : Call) : data.Frozen data := ⟨rfl, rfl, rfl, rfl, rfl, rfl⟩

theorem Frozen.trans {a b c : Call} (first : a.Frozen b) (second : b.Frozen c) : a.Frozen c :=
  ⟨second.flags.trans first.flags, second.convention.trans first.convention, second.args.trans first.args,
    second.hasRegArgs.trans first.hasRegArgs, second.hasStackArgs.trans first.hasStackArgs,
    second.stackSize.trans first.stackSize⟩

theorem Lawful.frozen (law : before.Lawful finalizer) (frozen : before.Frozen after)
    (wasPlaced : before.args.stage ≠ .unfinalized) (isPlaced : after.args.stage ≠ .unfinalized)
    (unordered : after.args.stage ≠ .materialized → after.args.lateOrder = [])
    (ordered : after.args.stage = .materialized → after.args.lateOrder.Nodup
      ∧ ∀ index : Nat, index ∈ after.args.lateOrder ↔
        ∃ arg, after.args.args[index]? = some arg ∧ arg.late.isSome = true) : after.Lawful finalizer := by
  obtain ⟨hasReg, hasStack, settings, isFinalizer, reports⟩ := law.placed wasPlaced
  have any : ∀ test : Placement → Bool, after.args.args.any (fun arg => test arg.placement)
      = before.args.args.any fun arg => test arg.placement := by
    intro test
    have through : ∀ items : List Argument, items.any (fun arg => test arg.placement)
        = (items.map Argument.fixed).any fun fixed => test fixed.2.2 := by
      intro items
      rw [any_map]
      rfl
    rw [through, through, frozen.args]
  have signature : after.args.args.map (fun arg => (arg.role, arg.ty))
      = before.args.args.map fun arg => (arg.role, arg.ty) := by
    have both := congrArg (List.map fun fixed : ArgRole × ValueType × Placement => (fixed.1, fixed.2.1))
      frozen.args
    simpa [map_map, Function.comp_def, Argument.fixed] using both
  refine ⟨fun isFresh => absurd isFresh isPlaced, fun _ => ⟨?_, ?_, settings, isFinalizer, ?_⟩, unordered,
    ordered⟩
  · rw [frozen.hasRegArgs, hasReg, any]
  · rw [frozen.hasStackArgs, hasStack, any]
  · rw [frozen.stackSize]
    exact reports.congr frozen.flags frozen.convention signature

-- A list while a step with these settings goes on. An earlier finalization that still stands keeps the
-- settings it was made with.
structure LawfulIn (known : Option Settings) (settings : Settings) (data : Call) : Prop where
  law : data.Lawful (known.or (some settings))
  fresh : data.args.stage = .unfinalized → known = none

structure Blank (data : Call) : Prop where
  unfinalized : data.args.stage = .unfinalized
  unplaced : ∀ arg ∈ data.args.args, arg.placement = {}
  stackSize : data.args.stackSize = 0
  hasRegArgs : data.args.hasRegArgs = false
  hasStackArgs : data.args.hasStackArgs = false
  lateOrder : data.args.lateOrder = []

theorem Blank.lawful (blank : data.Blank) (finalizer : Option Settings) :
    data.Lawful finalizer where
  unplaced := fun _ => ⟨blank.unplaced, blank.stackSize, blank.hasRegArgs, blank.hasStackArgs⟩
  placed := fun isPlaced => absurd blank.unfinalized isPlaced
  unordered := fun _ => blank.lateOrder
  ordered := fun isLast => by rw [blank.unfinalized] at isLast; cases isLast

theorem Lawful.blank (law : data.Lawful finalizer) (isFresh : data.args.stage = .unfinalized) : data.Blank := by
  obtain ⟨unplaced, stackSize, hasReg, hasStack⟩ := law.unplaced isFresh
  exact ⟨isFresh, unplaced, stackSize, hasReg, hasStack, law.unordered (by rw [isFresh]; simp)⟩

theorem Blank.withArgs (blank : data.Blank) {args : List Argument}
    (unplaced : ∀ arg ∈ args, arg.placement = {}) : (data.withArgs args).Blank :=
  { blank with unplaced }

theorem Blank.withList (blank : data.Blank) {other : Call} : ({ other with args := data.args } : Call).Blank :=
  { blank with }

end Call

namespace Site

variable {site : Site} {p : Procedure} {allowed : Stop → Prop}

open AbiInfo Call Edit

namespace Holds

section Holds

variable (holds : site.Holds Blank p) {role : ArgRole} {index : Nat}

include holds

theorem pushHidden (low : site.Low p value) :
    Ends (AbiInfo.pushHidden site.call value role p) (fun _ q => site.Holds Blank q ∧ q.nodes = p.nodes) Spares := by
  refine (modifyCall_ends site.call _).weaken fun _ q done => ?_
  obtain ⟨data, here, rfl⟩ := done
  obtain ⟨_, same, atSame, blank⟩ := id holds
  cases here.symm.trans atSame
  refine ⟨holds.setArgs here (fun arg mem id isNode => ?_) (blank.withArgs fun arg mem => ?_), rfl⟩
  · rcases mem_append.mp mem with old | new
    · exact holds.arg_low here old isNode
    · cases mem_singleton.mp new
      rcases isNode with early | late
      · cases early
        exact low
      · cases late
  · rcases mem_append.mp mem with old | new
    · exact blank.unplaced arg old
    · cases mem_singleton.mp new
      rfl

theorem routeThroughHelper :
    Ends (AbiInfo.routeThroughHelper site.call p) (fun _ q => site.Holds Blank q) Spares := by
  refine Ends.bind (call_ends site.call) fun data q found => ?_
  obtain ⟨rfl, here⟩ := found
  cases isTarget : data.target with
  | indirect target =>
    cases isCookie : data.cookie with
    | none => exact holds
    | some cookie =>
      have targetLow : site.Low q target := holds.target_low here (by rw [isTarget]; rfl)
      refine Ends.bind (holds.pushHidden (holds.cookie_low here isCookie)) fun _ m first => ?_
      obtain ⟨atM, sameNodes⟩ := first
      have targetLow : site.Low m target := targetLow.mono (by rw [sameNodes])
      refine Ends.bind (atM.pushHidden targetLow) fun _ n second => ?_
      obtain ⟨atN, _⟩ := second
      refine (modifyCall_ends site.call _).weaken fun _ last done => ?_
      obtain ⟨data', here', rfl⟩ := done
      obtain ⟨_, same, atSame, blank⟩ := id atN
      cases here'.symm.trans atSame
      exact atN.setCall (fun arg mem id isNode => atN.arg_low here' mem isNode)
        (by simp [CallTarget.node?]) (by simp) { blank with }
  | _ => exact holds

theorem spillThis {ty : ValueType} (low : site.Low p value) :
    Ends (AbiInfo.spillThis site.call index value ty p)
      (fun base q => site.Holds Blank q ∧ site.Low q base) Spares := by
  refine Ends.bind (holds.addLocal _) fun temp m₁ first => ?_
  refine Ends.bind (first.holds.addOver (first.low low) rfl rfl) ?_
  rintro store m₂ ⟨second, storeLow⟩
  refine Ends.bind (second.holds.addLeaf rfl rfl) ?_
  rintro read m₃ ⟨third, readLow, _⟩
  refine Ends.bind (third.holds.addPair (third.low storeLow) readLow rfl rfl) ?_
  rintro spilled m₄ ⟨fourth, spilledLow⟩
  have spill : Ends (Edit.modifyArg site.call index (fun arg => { arg with early := some spilled }) m₄)
      (fun _ q => site.Holds Blank q) Spares := by
    refine fourth.holds.modifyArg ?_ ?_
    · rintro arg id (early | late)
      · cases early
        exact .inr (.inr spilledLow)
      · exact .inr (.inl late)
    · intro data arg blank atIndex
      refine blank.withArgs fun other mem => ?_
      rcases mem_or_eq_of_mem_set mem with old | rfl
      · exact blank.unplaced other old
      · exact blank.unplaced arg (mem_of_getElem? atIndex)
  refine Ends.bind spill fun _ m₅ atLast => ?_
  refine (atLast.addLeaf rfl rfl).weaken ?_
  rintro base q ⟨last, baseLow, _⟩
  exact ⟨last.holds, baseLow⟩

theorem addCell {missing : Inconsistency} {cell : Option Int64} :
    EndsIn allowed (site.Holds Blank) (AbiInfo.addCell site.call role missing cell p) := by
  cases cell with
  | none => exact Ends.refuse holds
  | some addr =>
    refine Ends.bind (Ends.edit (holds.addLeaf rfl rfl)) ?_
    rintro value q ⟨grows, low, _⟩
    exact Ends.edit ((grows.holds.pushHidden low).weaken fun _ _ ended => ended.1)

theorem thisAgain (low : site.Low p value) :
    Ends (AbiInfo.thisAgain site.call index value p)
      (fun base q => site.Holds Blank q ∧ site.Low q base) Spares := by
  refine Ends.bind (node_ends value) ?_
  rintro node _ ⟨rfl, _⟩
  refine Ends.bind (holds.cloneSimple low) ?_
  rintro copy m ⟨grows, copyLow⟩
  cases copy with
  | some clone => exact ⟨grows.holds, copyLow clone rfl⟩
  | none => exact grows.holds.spillThis (grows.low low)

theorem loadCell {base : NodeId} {offset : Nat} (low : site.Low p base) :
    Ends (AbiInfo.loadCell site.call base offset p) (fun _ q => site.Holds Blank q) Spares := by
  refine Ends.bind (holds.addLeaf rfl rfl) ?_
  rintro amount m₁ ⟨first, amountLow, _⟩
  refine Ends.bind (first.holds.addPair (first.low low) amountLow rfl rfl) ?_
  rintro addr m₂ ⟨second, addrLow⟩
  refine Ends.bind (second.holds.addOver addrLow rfl rfl) ?_
  rintro cell m₃ ⟨third, cellLow⟩
  refine (modifyCall_ends site.call _).weaken fun _ q done => ?_
  obtain ⟨data, here, rfl⟩ := done
  obtain ⟨_, same, atSame, blank⟩ := id third.holds
  cases here.symm.trans atSame
  have cases : ∀ arg ∈ (data.args.insertAfterThis (.hidden cell .ptr .wrapperCell)).args,
      arg = .hidden cell .ptr .wrapperCell ∨ arg ∈ data.args.args :=
    fun arg mem => eq_or_mem_of_mem_insertIdx mem
  refine third.holds.setArgs here (fun arg mem id isNode => ?_) (blank.withArgs fun arg mem => ?_)
  · rcases cases arg mem with rfl | old
    · rcases isNode with early | late
      · cases early
        exact cellLow
      · cases late
    · exact third.holds.arg_low here old isNode
  · rcases cases arg mem with rfl | old
    · rfl
    · exact blank.unplaced arg old

theorem addWrapperCell : EndsIn allowed (site.Holds Blank) (AbiInfo.addWrapperCell site.call p) := by
  refine Ends.bind (Ends.edit (call_ends site.call)) fun data q found => ?_
  obtain ⟨rfl, here⟩ := found
  cases data.args.thisIndex with
  | none => exact Ends.refuse holds
  | some index =>
    cases data.wrapperOffset with
    | none => exact Ends.refuse holds
    | some offset =>
      refine Ends.bind (Ends.edit (arg_ends site.call index)) ?_
      rintro arg _ ⟨rfl, data, here, atIndex⟩
      cases early : arg.early with
      | none => exact Ends.refuse holds
      | some value =>
        have low := holds.arg_low here (mem_of_getElem? atIndex) (.inl early)
        refine Ends.bind (Ends.edit (holds.thisAgain low)) ?_
        rintro base m ⟨atM, baseLow⟩
        exact Ends.edit (atM.loadCell baseLow)

theorem addHiddenArgs : EndsIn allowed (site.Holds Blank) (AbiInfo.addHiddenArgs site.call p) := by
  refine Ends.bind (Ends.edit (call_ends site.call)) fun data q found => ?_
  obtain ⟨rfl, _⟩ := found
  refine Ends.bind (Ends.edit holds.routeThroughHelper) fun _ m atM => ?_
  refine Ends.optional atM atM.addWrapperCell fun n atN => ?_
  refine Ends.optional atN (atN.addCell) fun last atLast => ?_
  split
  · exact atLast.addCell
  · exact atLast

theorem placeArgs (raises : settings.RaisesOnly allowed) :
    Ends (AbiInfo.placeArgs settings site.call p)
      (fun _ q => site.Holds (fun data => data.Lawful (some settings) ∧ data.args.stage = .finalized) q)
      (Leaves allowed (site.Holds Blank)) := by
  refine Ends.bind (Ends.edit (call_ends site.call)) fun data q found => ?_
  obtain ⟨rfl, here⟩ := found
  obtain ⟨_, same, atSame, blank⟩ := id holds
  cases here.symm.trans atSame
  refine Ends.bind (Ends.liftFault (Avoids.mapM (argShape_avoids settings.types) _)) ?_
  rintro shapes _ ⟨rfl, shaped⟩
  refine Ends.bind (Ends.liftStop (raises _ shapes) holds) ?_
  rintro answer _ ⟨rfl, classified⟩
  dsimp only
  split
  · exact Ends.refuseFirst holds
  · cases assigned : assign settings.target data.args.args answer.placements with
    | none => exact Ends.refuse holds
    | some args =>
      have nodes := assign_map (fun arg => (arg.early, arg.late)) (fun _ _ => rfl) assigned
      have fresh := blank.unfinalized
      refine Ends.edit ((modifyArgs_ends fun other there => ?_).weaken fun _ q done => ?_)
      · cases here.symm.trans there
        simp only [ArgList.markFinalized, fresh, if_true]
        exact .ok _
      · obtain ⟨other, list, there, marked, rfl⟩ := done
        cases here.symm.trans there
        simp only [ArgList.markFinalized, fresh, if_true] at marked
        cases marked
        refine holds.setArgs here (fun arg mem id isNode => ?_) ⟨⟨?_, ?_, ?_, ?_⟩, rfl⟩
        · have there : (arg.early, arg.late) ∈ data.args.args.map fun arg => (arg.early, arg.late) :=
            nodes ▸ mem_map_of_mem mem
          obtain ⟨before, member, same⟩ := mem_map.mp there
          obtain ⟨sameEarly, sameLate⟩ := Prod.mk.inj same
          exact holds.arg_low here member (by rw [sameEarly, sameLate]; exact isNode)
        · intro isFresh
          cases isFresh
        · refine fun _ => ⟨rfl, rfl, settings, rfl, ?_⟩
          have reports : settings.Reports data answer.stackSize := ⟨shapes, answer, shaped, classified, rfl⟩
          have signature := assign_map (fun arg => (arg.role, arg.ty)) (fun _ _ => rfl) assigned
          exact reports.congr rfl rfl signature
        · exact fun _ => blank.lateOrder
        · intro isLast
          cases isLast

end Holds

theorem finalize {known : Option Settings} (holds : site.Holds (LawfulIn known settings) p)
    (here : p.calls[site.call]? = some data) (raises : settings.RaisesOnly allowed) :
    Ends (AbiInfo.finalize settings site.call p) (fun _ q => site.Holds (fun after => after.LawfulIn known settings
        ∧ (data.args.stage.isCompleted = false → after.args.stage = .finalized)) q)
      (Leaves allowed (site.Holds (LawfulIn known settings))) := by
  refine Ends.bind (Ends.edit (call_ends site.call)) ?_
  rintro same q ⟨rfl, atSame⟩
  cases here.symm.trans atSame
  obtain ⟨work, same, atSame, lawful⟩ := id holds
  cases here.symm.trans atSame
  split
  · rename_i finalized
    refine ⟨work, data, here, lawful, fun isOpen => ?_⟩
    revert finalized isOpen
    cases data.args.stage <;> decide
  · rename_i isOpen
    have fresh : data.args.stage = .unfinalized := not_not.mp fun placed =>
      isOpen (Stage.isFinalized_iff.mpr placed)
    have isNew := lawful.fresh fresh
    have blank : site.Holds Blank q := ⟨work, data, here, lawful.law.blank fresh⟩
    -- A list that is still blank is lawful whatever the finalization was to be.
    have left : ∀ r, site.Holds Blank r → site.Holds (LawfulIn known settings) r :=
      fun r holds => holds.weaken fun _ blank => ⟨blank.lawful _, fun _ => isNew⟩
    refine Ends.bind (blank.addHiddenArgs.mono (fun _ _ ended => ended) fun _ _ => Leaves.mono left) ?_
    intro _ m atM
    refine Ends.bind (Ends.liftStop (checkVarargs_avoids).raises (left m atM)) ?_
    rintro _ _ ⟨rfl, _⟩
    refine (atM.placeArgs raises).mono (fun _ r placed => placed.weaken ?_) fun _ _ => Leaves.mono left
    rintro data ⟨law, stage⟩
    refine ⟨⟨?_, fun _ => isNew⟩, fun _ => stage⟩
    rw [isNew]
    exact law

-- Reset drops what the finalization brought in; the target and the cookie come back from hidden
-- arguments, so they were low before.
theorem reset (holds : site.Holds (Lawful finalizer) p) :
    Ends (AbiInfo.reset site.call p) (fun _ q => site.Holds Blank q)
      (Leaves allowed (site.Holds (Lawful finalizer))) := by
  refine Ends.bind (Ends.edit (call_ends site.call)) fun data q found => ?_
  obtain ⟨rfl, here⟩ := found
  obtain ⟨_, same, atSame, law⟩ := id holds
  cases here.symm.trans atSame
  dsimp only
  split
  · exact Ends.refuseFirst holds
  · rename_i isOpen
    have restored : Ends (Edit.modifyCall site.call restoreIndirect q)
        (fun _ m => site.Holds (fun now => now.args = data.args) m) Spares := by
      refine (modifyCall_ends site.call restoreIndirect).weaken fun _ m done => ?_
      obtain ⟨other, there, rfl⟩ := done
      cases here.symm.trans there
      have value_low : ∀ (role : ArgRole) (value : NodeId), (do
          (← data.args.args[← data.args.findRole role]?).value) = some value → site.Low q value := by
        intro role value found
        simp only [Option.bind_eq_bind, Option.bind_eq_some_iff] at found
        obtain ⟨index, _, arg, atIndex, isValue⟩ := found
        refine holds.arg_low here (mem_of_getElem? atIndex) ?_
        rcases Option.or_eq_some_iff.mp isValue with early | ⟨_, late⟩
        · exact .inl early
        · exact .inr late
      unfold restoreIndirect
      dsimp only
      split
      · rename_i cookie target _ isCookie isTarget
        refine holds.setCall (fun arg mem id isNode => holds.arg_low here mem isNode) ?_ ?_ rfl
        · rintro id ⟨⟩
          exact value_low _ _ isTarget
        · rintro id ⟨⟩
          exact value_low _ _ isCookie
      · exact holds.setArgs here (fun arg mem id isNode => holds.arg_low here mem isNode) rfl
    refine Ends.bind (Ends.edit restored) fun _ m atM => ?_
    refine Ends.edit ((modifyArgs_ends fun now there => ?_).weaken fun _ r done => ?_)
    · obtain ⟨_, now', atNow, sameArgs⟩ := id atM
      cases there.symm.trans atNow
      rw [sameArgs]
      unfold ArgList.reset
      split
      · exact .ok _
      · exact .ok _
      · rename_i stage
        rw [stage] at isOpen
        exact absurd rfl isOpen
      · rename_i stage
        rw [stage] at isOpen
        exact absurd rfl isOpen
    · obtain ⟨now, list, there, stepped, rfl⟩ := done
      obtain ⟨_, now', atNow, sameArgs⟩ := id atM
      cases there.symm.trans atNow
      rw [sameArgs] at stepped
      unfold ArgList.reset at stepped
      split at stepped
      · rename_i fresh
        cases stepped
        refine atM.setArgs there (fun arg mem id isNode => ?_) ?_
        · exact atM.arg_low there (by rw [sameArgs]; exact mem) isNode
        · exact (law.blank fresh).withList
      · rename_i finalized
        cases stepped
        refine atM.setArgs there (fun arg mem id isNode => ?_) ?_
        · obtain ⟨before, kept, rfl⟩ := mem_map.mp mem
          have member : before ∈ now.args.args := by
            rw [sameArgs]
            exact mem_of_mem_filter kept
          exact atM.arg_low there member isNode
        · refine ⟨rfl, fun arg mem => ?_, rfl, rfl, rfl, law.unordered (by rw [finalized]; simp)⟩
          obtain ⟨before, _, rfl⟩ := mem_map.mp mem
          rfl
      · cases stepped
      · cases stepped

end Holds

end Site

end CallLowering
