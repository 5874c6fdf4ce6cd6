import CallLowering.Proofs.Finalizing
import CallLowering.Proofs.ShapedTrees

/-!
Finalizing adds trees to a call: constants, and loads through a copy of `this` or through a temp that `this` is
spilled to.
-/

namespace CallLowering

open List

variable {allowed : LocalId → Prop} {arg : Argument} {cell base value : NodeId} {data : Call} {index : Nat}
  {m proc : Procedure} {made seen : List NodeId} {id : CallId} {settings : Settings}

theorem Call.owned_loose (data : Call) {args : List Argument}
    (isOpen : data.args.isMaterialized = false) (loose : ∀ arg ∈ args, arg.late = none) :
    (data.withArgs args).owned = args.filterMap Argument.early ++ (data.ownCookie ++ data.target.node?.toList) := by
  have stillOpen : (data.withArgs args).args.isMaterialized = false := isOpen
  have noLate : (data.withArgs args).lateNodes = [] := by
    rw [lateNodes, stillOpen]
    exact filterMap_eq_nil_iff.mpr loose
  rw [owned, noLate, append_nil, append_assoc]
  rfl

theorem Passage.insert {call : CallId} {p q : Procedure} {front rest : List Argument}
    (holds : Holds p call (data.withArgs (front ++ rest)) seen)
    (isOpen : data.args.isMaterialized = false) (loose : ∀ arg ∈ front ++ rest, arg.late = none)
    {new : Argument} (isEarly : new.early = some cell) (newLoose : new.late = none)
    (grafts : Grafts p m [] [cell] made allowed)
    (isKnown : ∀ before, Forest p (front.filterMap Argument.early) before → ∀ known,
      m.Reads known before → ∀ var, allowed var → known var ∨ var ∈ m.storedIn before)
    (set : q = m.setCall call (data.withArgs (front ++ new :: rest))) :
    ∃ seen', Passage call p q (data.withArgs (front ++ new :: rest)) seen seen' [] := by
  have looseAfter : ∀ arg ∈ front ++ new :: rest, arg.late = none := by
    intro arg mem
    rcases mem_append.mp mem with inFront | inRest
    · exact loose arg (mem_append_left _ inFront)
    · rcases mem_cons.mp inRest with rfl | later
      · exact newLoose
      · exact loose arg (mem_append_right _ later)
  have forest := holds.forest
  rw [data.owned_loose isOpen loose, filterMap_append, append_assoc] at forest
  obtain ⟨before, behind, rfl, atBefore, atBehind, apart, callsApart⟩ := forest.split _ _
  have added := grafts.grown
  have joint : Grafts p m before (front.filterMap Argument.early ++ [cell]) made allowed :=
    (Grafts.start atBefore).beside grafts
  have noNewCalls : m.callsIn made = [] := m.quiet_callsIn grafts.quiet
  have after : Forest m (data.withArgs (front ++ new :: rest)).owned (before ++ made ++ behind) := by
    rw [data.owned_loose isOpen looseAfter, filterMap_append, filterMap_cons, isEarly,
      append_assoc, cons_append, ← singleton_append, ← append_assoc]
    apply joint.forest.append (atBehind.added added)
    · intro id mem inBehind
      rcases mem_append.mp mem with inBefore | inMade
      · exact apart inBefore inBehind
      · exact Nat.lt_irrefl _ (Nat.lt_of_lt_of_le (atBehind.valid id inBehind) (grafts.new id inMade))
    · rw [m.callsIn_append, noNewCalls, append_nil, added.callsIn atBefore.valid,
        added.callsIn atBehind.valid]
      exact callsApart
  have carries : Carries p m (before ++ behind) (before ++ made ++ behind) [] := by
    have inFront := joint.carries [] (fun _ met => nomatch met) (fun known reads => by
      rw [append_nil] at reads
      exact isKnown before atBefore known reads)
    rw [append_nil] at inFront
    exact inFront.within [] behind
  have outside : ∀ other ∈ m.callsIn (before ++ made ++ behind), ¬ other = call := by
    intro other named same
    rw [carries.mem_callsIn added holds.forest.valid] at named
    exact holds.apart (same ▸ named)
  have grown := Edit.setCall_extends set
  refine ⟨before ++ made ++ behind, {
    holds := {
      here := Procedure.setCall_at (added.calls ▸ holds.here) set
      forest := after.frame grown (fun _ _ => not_false) outside
      apart := fun named => outside call (by rwa [← grown.callsIn after.valid]) rfl }
    carries := carries.later (by rw [set]; rfl) (by rw [set]; rfl)
    grown := added.anywhere.follow (grown.mono (fun _ => False.elim) (fun _ same => same))
    done := fun done => ?_ }⟩
  have doneFront := joint.done (done.subset fun id met => mem_append_left _ met)
  have doneBehind := (done.subset fun id met => mem_append_right _ met).added atBehind added
  exact (doneFront.append doneBehind).frame after grown (fun _ _ => not_false) outside

namespace AbiInfo

open Edit

-- A call whose list is not finalized, and whose arguments all have their early node only.
structure Unplaced (proc : Procedure) (id : CallId) (data : Call) (visited : List NodeId) : Prop where
  holds : Holds proc id data visited
  fresh : data.args.stage = .unfinalized
  loose : ∀ arg ∈ data.args.args, arg.late = none

theorem Unplaced.isOpen (unplaced : Unplaced proc id data seen) : data.args.isMaterialized = false := by
  simp [ArgList.isMaterialized, unplaced.fresh]

theorem Unplaced.owned (unplaced : Unplaced proc id data seen) : data.owned
      = data.args.args.filterMap Argument.early ++ (data.ownCookie ++ data.target.node?.toList) :=
  data.owned_loose unplaced.isOpen unplaced.loose

section Steps

variable {id : CallId} {p q : Procedure} {data : Call} {seen : List NodeId}

-- The list stays unplaced, and the call has this cookie of its own afterwards.
def Prepares (id : CallId) (p q : Procedure) (seen cookie : List NodeId) : Prop :=
  ∃ data seen', Passage id p q data seen seen' [] ∧ Unplaced q id data seen' ∧ data.ownCookie = cookie

theorem routeThroughHelper_passage (unplaced : Unplaced p id data seen)
    (done : routeThroughHelper id p = .ok () q) : Prepares id p q seen [] := by
  obtain ⟨same, here, ⟨target, cookie, isIndirect, hasCookie, set⟩ | ⟨direct, rfl⟩⟩ :=
    routeThroughHelper_ok done
  · cases unplaced.holds.here.symm.trans here
    generalize routed : ({ data with
      target := .pinvokeHelper, cookie := none
      args := (data.args.push (.hidden cookie .ptr .pinvokeCookie)).push
        (.hidden target .ptr .pinvokeTarget) } : Call) = data' at set
    have loose : ∀ arg ∈ data'.args.args, arg.late = none := by
      rw [← routed]
      intro arg mem
      simp only [ArgList.push, mem_append, mem_singleton] at mem
      rcases mem with (old | rfl) | rfl
      · exact unplaced.loose arg old
      · rfl
      · rfl
    have isOpen : data'.args.isMaterialized = false := by
      rw [← routed]
      exact unplaced.isOpen
    have sameOwned : data'.owned = data.owned := by
      have ownedAfter := data'.owned_loose isOpen loose
      rw [unplaced.owned]
      refine ownedAfter.trans ?_
      rw [← routed]
      simp [ArgList.push, Argument.hidden, Call.ownCookie, CallTarget.node?, isIndirect, hasCookie,
        filterMap_append]
    have passage := Passage.relabel unplaced.holds set (sameOwned ▸ unplaced.holds.forest)
      (Carries.refl p seen) (fun _ met => met)
    refine ⟨data', seen, passage, ⟨passage.holds, ?_, loose⟩, ?_⟩
    · rw [← routed]
      exact unplaced.fresh
    · rw [← routed]
      rfl
  · cases unplaced.holds.here.symm.trans here
    refine ⟨data, seen, Passage.refl unplaced.holds, unplaced, ?_⟩
    rcases direct with noTarget | noCookie
    · simp [Call.ownCookie, noTarget]
    · simp [Call.ownCookie, noCookie]

theorem addCell_passage {role : ArgRole} {missing : Inconsistency} {cell : Option Int64}
    (unplaced : Unplaced p id data seen) (done : addCell id role missing cell p = .ok () q) :
    Prepares id p q seen data.ownCookie := by
  obtain ⟨addr, value, m, _, made, pushed⟩ := addCell_ok done
  obtain ⟨same, atSame, set⟩ := pushHidden_ok pushed
  have grafts : Grafts p m [] [value] [value] (fun _ => False) :=
    Grafts.leaf made rfl rfl (by simp [NodeKind.mentionsLocal?])
  rw [grafts.grown.calls] at atSame
  cases unplaced.holds.here.symm.trans atSame
  have holds : Holds p id (data.withArgs (data.args.args ++ [])) seen := by
    rw [append_nil]
    exact unplaced.holds
  obtain ⟨seen', passage⟩ := Passage.insert holds unplaced.isOpen
    (by simpa using unplaced.loose) rfl rfl grafts
    (fun _ _ _ _ _ => False.elim) set
  refine ⟨_, seen', passage, ⟨passage.holds, unplaced.fresh, fun arg mem => ?_⟩, rfl⟩
  rcases mem_append.mp mem with old | new
  · exact unplaced.loose arg old
  · rw [mem_singleton.mp new]
    rfl

theorem cell_grafts {amount addr : NodeId} {offset : Int64} {m' m'' : Procedure}
    (grafts : Grafts p m [] [base] made allowed) (counted : addNode (.intConst offset) .ptr m = .ok amount m')
    (added : addNode (.binary .add base amount) .ptr m' = .ok addr m'')
    (loaded : addNode (.load addr false) .ptr m'' = .ok cell q) : ∃ made', Grafts p q [] [cell] made' allowed := by
  have constant : Grafts m m' [] [amount] [amount] allowed :=
    Grafts.leaf counted rfl rfl (by simp [NodeKind.mentionsLocal?])
  have both : Grafts p m' [] (NodeKind.binary .add base amount).children _ allowed :=
    grafts.beside constant
  have sum : Grafts p m'' [] (NodeKind.load addr false).children _ allowed :=
    both.node added rfl (by simp [NodeKind.mentionsLocal?])
  exact ⟨_, sum.node loaded rfl (by simp [NodeKind.mentionsLocal?])⟩

theorem insertAfterThis_passage {tree : List NodeId}
    (unplaced : Unplaced p id data seen) (isThis : data.args.thisIndex = some index)
    (atIndex : data.args.args[index]? = some arg) (hasValue : arg.early = some value)
    (atTree : Forest p [value] tree) (grafts : Grafts p m [] [cell] made allowed)
    (isKnown : ∀ var, allowed var → p.MentionedIn tree var ∨ var ∈ p.storedIn tree) (set : q = m.setCall id
      { data with args := data.args.insertAfterThis (.hidden cell .ptr .wrapperCell) }) :
    Prepares id p q seen data.ownCookie := by
  have bound : index < data.args.args.length := lt_length atIndex
  have argsEq : data.args.args.insertIdx data.args.afterThis (.hidden cell .ptr .wrapperCell)
      = data.args.args.take (index + 1)
        ++ .hidden cell .ptr .wrapperCell :: data.args.args.drop (index + 1) := by
    have position : (data.args.args.take (index + 1)).length = data.args.afterThis := by
      rw [length_take_of_le (by omega), ArgList.afterThis, isThis]
    have split := insertIdx_split (data.args.args.take (index + 1)) (data.args.args.drop (index + 1))
      (Argument.hidden cell .ptr .wrapperCell)
    rwa [take_append_drop, position] at split
  rw [ArgList.insertAfterThis, argsEq] at set
  have holds : Holds p id (data.withArgs (data.args.args.take (index + 1)
      ++ data.args.args.drop (index + 1))) seen := by
    rw [take_append_drop]
    exact unplaced.holds
  have inFront : arg ∈ data.args.args.take (index + 1) :=
    mem_of_getElem? ((getElem?_take_of_lt (Nat.lt_succ_self index)).trans atIndex)
  obtain ⟨seen', passage⟩ := Passage.insert holds unplaced.isOpen
    (by simpa using unplaced.loose) rfl rfl grafts
    (fun before atBefore known reads var mentioned => by
      have mem := Spans.root_part atBefore.spans
        (mem_filterMap.mpr ⟨arg, inFront, hasValue⟩) atTree.spans
      rcases isKnown var mentioned with ⟨other, met, atOther⟩ | held
      · apply m.reads_mention reads (mem other met)
        rw [grafts.grown.mentionAt (atTree.valid other met), atOther]
      · obtain ⟨other, met, atOther⟩ := mem_filterMap.mp held
        refine .inr (mem_filterMap.mpr ⟨other, mem other met, ?_⟩)
        rw [grafts.grown.storeAt (atTree.valid other met), atOther]) set
  refine ⟨_, seen', passage, ⟨passage.holds, unplaced.fresh, fun other mem => ?_⟩, rfl⟩
  have mem : other ∈ data.args.args.take (index + 1)
      ++ .hidden cell .ptr .wrapperCell :: data.args.args.drop (index + 1) := mem
  rw [← argsEq] at mem
  rcases eq_or_mem_of_mem_insertIdx mem with rfl | old
  · rfl
  · exact unplaced.loose other old

theorem spillThis_passage {ty : ValueType} (unplaced : Unplaced p id data seen)
    (atIndex : data.args.args[index]? = some arg) (hasValue : arg.early = some value)
    (done : spillThis id index value ty p = .ok base q) :
    ∃ after data' seen' spilled tree temp, Passage id p after data' seen seen' []
      ∧ Unplaced after id data' seen'
      ∧ data' = data.withArgs (data.args.args.set index { arg with early := some spilled })
      ∧ Forest after [spilled] tree ∧ temp ∈ after.storedIn tree
      ∧ Grafts after q [] [base] [base] (· = temp) := by
  obtain ⟨spill⟩ := spillThis_ok done
  obtain ⟨tree, atTree, apart, _⟩ :=
    unplaced.holds.treeOf (mem_of_getElem? atIndex) hasValue
  have reads : Grafts spill.afterStore spill.afterRead [] [spill.read] [spill.read] (· = spill.temp) :=
    Grafts.leaf spill.reads rfl rfl fun _ mentioned => (Option.some.inj mentioned).symm
  have spread := spilled_joined atTree spill.made spill.stored reads spill.joined
  have loose := unplaced.loose arg (mem_of_getElem? atIndex)
  obtain ⟨now, other, _, _, setEq⟩ := modifyArg_ok spill.set
  obtain ⟨step, inFront⟩ := spread.slot loose atTree.valid apart setEq
  obtain ⟨seen', passage⟩ := unplaced.holds.slotAt unplaced.isOpen atIndex loose (hasValue ▸ atTree)
    step (modifyArg_slot (spread.grown.calls ▸ unplaced.holds.here) atIndex
      spill.set) (.inr inFront)
  have setting := modifyArg_extends spill.set
  refine ⟨spill.afterSet, _, seen', spill.spilled, _, spill.temp, passage,
    ⟨passage.holds, unplaced.fresh, ?_⟩, rfl, step.atEarly, ?_, ?_⟩
  · intro changed mem
    rcases mem_or_eq_of_mem_set mem with old | rfl
    · exact unplaced.loose changed old
    · exact loose
  · obtain ⟨_, atKind⟩ := addNode_kindAt spill.stored
    have joining := addNode_adds spill.joined
    refine mem_filterMap.mpr ⟨spill.store, by simp, ?_⟩
    have bound := Procedure.kindAt_lt _ atKind
    rw [((reads.grown.trans joining).anywhere.follow setting).storeAt bound, Procedure.storeAt_eq _ atKind]
    rfl
  · exact Grafts.leaf spill.again rfl rfl fun _ mentioned => (Option.some.inj mentioned).symm

theorem findRole_set {list : ArgList} (role : ArgRole) {after : Argument}
    (atIndex : list.args[index]? = some arg) (same : after.role = arg.role) :
    ({ list with args := list.args.set index after } : ArgList).findRole role = list.findRole role := by
  have roles : (list.args.set index after).map Argument.role = list.args.map Argument.role := by
    obtain ⟨bound, rfl⟩ := List.getElem?_eq_some_iff.mp atIndex
    rw [List.map_set, same, ← List.getElem_map Argument.role (h := by simpa using bound),
      List.set_getElem_self]
  have byRole : ∀ args : List Argument, args.findIdx? (fun arg => arg.role == role)
      = (args.map Argument.role).findIdx? (· == role) := by
    intro args
    rw [findIdx?_map]
    rfl
  rw [ArgList.findRole, ArgList.findRole, byRole, byRole, roles]

theorem addWrapperCell_passage (unplaced : Unplaced p id data seen) (done : addWrapperCell id p = .ok () q) :
    Prepares id p q seen data.ownCookie := by
  obtain ⟨cell⟩ := addWrapperCell_ok done
  have sameData : cell.data = data := Option.some.inj (cell.here.symm.trans unplaced.holds.here)
  have isThis := cell.isThis
  have atIndex := cell.atIndex
  rw [sameData] at isThis atIndex
  have last := cell.last
  have valid := unplaced.holds.forest.valid
  rcases cell.based with cloned | ⟨m, cloned, spilled⟩
  · obtain ⟨tree, atTree, _, _⟩ :=
      unplaced.holds.treeOf (mem_of_getElem? atIndex) cell.hasValue
    obtain ⟨made, grafts⟩ := cloneSimple_grafts atTree cloned
    obtain ⟨made', grafts⟩ := cell_grafts grafts cell.counted cell.added cell.loaded
    have atNow := cell.atNow
    rw [grafts.grown.calls] at atNow
    rw [show cell.now = data from Option.some.inj (atNow.symm.trans unplaced.holds.here)] at last
    exact insertAfterThis_passage unplaced isThis atIndex cell.hasValue atTree grafts
      (fun _ mentioned => .inl mentioned) last
  · have unused := Passage.unused unplaced.holds (cloneSimple_adds cloned)
      (cloneSimple_locals cloned)
    have before : Unplaced m id data seen := ⟨unused.holds, unplaced.fresh, unplaced.loose⟩
    obtain ⟨after, data', seen', spill, tree, temp, passage, unplaced', dataEq, atTree, held, again⟩ :=
      spillThis_passage before atIndex cell.hasValue spilled
    obtain ⟨made', grafts⟩ := cell_grafts again cell.counted cell.added cell.loaded
    have atNow := cell.atNow
    rw [grafts.grown.calls] at atNow
    rw [show cell.now = data' from Option.some.inj (atNow.symm.trans unplaced'.holds.here)] at last
    have stillThis : data'.args.thisIndex = some cell.index := by
      rw [← isThis, dataEq]
      exact findRole_set .thisPointer atIndex rfl
    have atSpilled : data'.args.args[cell.index]? = some { cell.arg with early := some spill } := by
      rw [dataEq]
      exact List.getElem?_set_self (lt_length atIndex)
    obtain ⟨data'', seen'', inserted, unplaced'', sameCookie⟩ :=
      insertAfterThis_passage unplaced' stillThis atSpilled rfl atTree grafts
        (fun _ same => .inr (same ▸ held)) last
    refine ⟨data'', seen'', (unused.trans passage valid).trans inserted valid, unplaced'', ?_⟩
    rw [sameCookie, dataEq]
    rfl

theorem placeArgs_passage (unplaced : Unplaced p id data seen) (done : placeArgs settings id p = .ok () q) :
    ∃ data', Passage id p q data' seen seen [] ∧ data'.ownCookie = data.ownCookie := by
  obtain ⟨placing⟩ := placeArgs_ok done
  have sameData : placing.data = data := Option.some.inj (placing.here.symm.trans unplaced.holds.here)
  have slots := assign_slots placing.assigned
  have last := placing.last
  rw [sameData] at slots last
  have same : ∀ f : Argument → Option NodeId, (∀ arg placement, f { arg with placement } = f arg) →
      placing.args.map f = data.args.args.map f := by
    intro f blind
    generalize placing.args = after at slots ⊢
    generalize data.args.args = before at slots ⊢
    induction slots with
    | nil => rfl
    | cons here _ ih =>
      obtain ⟨placement, rfl⟩ := here
      rw [map_cons, map_cons, ih, blind]
  exact ⟨_, Passage.rewritten unplaced.holds last unplaced.isOpen rfl (same _ fun _ _ => rfl)
    (same _ fun _ _ => rfl) rfl rfl, rfl⟩

theorem finalize_passage (unplaced : Unplaced p id data seen) (done : finalize settings id p = .ok () q) :
    ∃ data' seen', Passage id p q data' seen seen' [] ∧ data'.ownCookie = [] := by
  obtain ⟨same, atSame, ⟨finalized, _⟩ | ⟨_, m, adding, _, placing⟩⟩ := finalize_ok done
  · cases unplaced.holds.here.symm.trans atSame
    simp [unplaced.fresh, Stage.isFinalized] at finalized
  · obtain ⟨steps⟩ := addHiddenArgs_ok adding
    have valid := unplaced.holds.forest.valid
    obtain ⟨data₁, visited₁, routed, unplaced₁, noCookie⟩ :=
      routeThroughHelper_passage unplaced steps.routing
    -- Each of the optional steps leaves the list unplaced and brings no cookie.
    have optional : ∀ (condition : Prop) [Decidable condition] (step : Attempt Unit) (u v : Procedure)
        (before : Call) (held : List NodeId), Passage id p u before seen held [] →
        Unplaced u id before held → before.ownCookie = [] →
        (∀ v, step u = .ok () v → Prepares id u v held before.ownCookie) →
        (if condition then step u = .ok () v else v = u) →
        Prepares id p v seen [] := by
      intro condition _ step u v before held passage unplaced noCookie run ran
      by_cases taken : condition
      · rw [if_pos taken] at ran
        obtain ⟨data', seen', further, unplaced', sameCookie⟩ := run v ran
        exact ⟨data', seen', passage.trans further valid, unplaced', sameCookie.trans noCookie⟩
      · rw [if_neg taken] at ran
        subst ran
        exact ⟨before, held, passage, unplaced, noCookie⟩
    obtain ⟨data₂, visited₂, wrapped, unplaced₂, noCookie⟩ := optional _ _ _ _ data₁ visited₁ routed
      unplaced₁ noCookie (fun v => addWrapperCell_passage unplaced₁) steps.wrapping
    obtain ⟨data₃, visited₃, stubbed, unplaced₃, noCookie⟩ := optional _ _ _ _ data₂ visited₂ wrapped
      unplaced₂ noCookie (fun v => addCell_passage unplaced₂) steps.stubbing
    obtain ⟨data₄, visited₄, ended, unplaced₄, noCookie⟩ := optional _ _ _ _ data₃ visited₃ stubbed
      unplaced₃ noCookie (fun v => addCell_passage unplaced₃) steps.ending
    obtain ⟨data₅, placed, sameCookie⟩ := placeArgs_passage unplaced₄ placing
    exact ⟨data₅, visited₄, ended.trans placed valid, sameCookie.trans noCookie⟩

end Steps

end AbiInfo

end CallLowering
