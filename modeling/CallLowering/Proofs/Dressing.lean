import CallLowering.Proofs.Finalizing
import CallLowering.Proofs.SimpleTrees

/-!
How a call gets its hidden arguments. They stand in fixed places among the call's own arguments, which
stay as they are but for a this-pointer that had to be spilled.
-/

namespace CallLowering

open Procedure

open List

variable {p q : Procedure} {data base : Call} {call : CallId} {index : Nat} {role : ArgRole} {value spilled : NodeId}
  {temp : LocalId} {wrapped : Prop} {arg : Argument}

theorem Adds.reworks (added : Adds p q) : Reworks call p q := added.anywhere

theorem Reworks.set (set : q = p.setCall call data) : Reworks call p q := Edit.setCall_extends set

theorem Reworks.trans {r : Procedure} (first : Reworks call p q) (second : Reworks call q r) : Reworks call p r :=
  Extends.follow first second

-- Storing a value to a temp and reading the temp, in one node.
structure Procedure.Spills (proc : Procedure) (temp : LocalId) (value spilled : NodeId) : Prop where
  node : ∃ store read, proc.kindAt spilled = some (.comma store read)
    ∧ proc.kindAt store = some (.storeLocal temp value) ∧ proc.kindAt read = some (.readLocal temp)
  temp : ∃ node, proc.nodes[value]? = some node
    ∧ proc.locals[temp]? = some { ty := node.ty, kind := .argTemp }

theorem Procedure.Spills.later (spills : p.Spills temp value spilled)
    (grown : Reworks call p q) : q.Spills temp value spilled := by
  obtain ⟨⟨store, read, joined, stored, reads⟩, node, atValue, atTemp⟩ := spills
  exact ⟨⟨store, read, kindAt_later grown joined, kindAt_later grown stored, kindAt_later grown reads⟩,
    node, grown.node atValue not_false, grown.varKept temp _ atTemp⟩

-- A spilled value is not simple, so cloning it ends at once.
theorem Procedure.Spills.clones {proc : Procedure} (spills : proc.Spills temp value spilled) :
    ∃ copy after, Edit.cloneSimple spilled proc = .ok copy after := by
  obtain ⟨⟨store, read, joined, _⟩, _⟩ := spills
  obtain ⟨node, here, isComma⟩ := proc.kindAt_some_iff.mp joined
  exact ⟨none, proc, Edit.cloneSimple_ok_iff.mpr
    (.other here (by simp [isComma]) (by simp [isComma, Edit.isSimpleLeaf]))⟩

def Argument.ofCell (cell : ArgRole × NodeId) : Argument := .hidden cell.2 .ptr cell.1

theorem ArgList.findRole_eq (list : ArgList) (role : ArgRole) :
    list.findRole role = (list.args.map Argument.role).findIdx? (· == role) := by
  rw [findRole, findIdx?_map]
  rfl

namespace Call

-- The cookie and the target that an indirect call hands to the helper.
def routing (data : Call) : List (ArgRole × NodeId) :=
  match data.target, data.cookie with
  | .indirect target, some cookie => [(.pinvokeCookie, cookie), (.pinvokeTarget, target)]
  | _, _ => []

-- The call that is made in the end, of the helper where there is something to hand to it.
def routed (data : Call) : Call :=
  if data.routing = [] then data else { data with target := .pinvokeHelper, cookie := none }

-- The roles of the hidden arguments that hold cells.
def cellRoles (data : Call) : List ArgRole :=
  (if data.flags.wrapperDelegate then [.wrapperCell] else [])
    ++ (if data.flags.virtualStub && !data.flags.r2r then [.stubCell] else [])
    ++ (if data.flags.r2r then [.r2rCell] else [])

-- The call with hidden arguments. The cell of a wrapper delegate comes right after the this-pointer,
-- and all others come last.
def dress (data : Call) (cells : List (ArgRole × NodeId)) : Call :=
  data.routed.withArgs (data.args.args.take data.args.afterThis
    ++ (cells.filter fun cell => cell.1 == .wrapperCell).map .ofCell
    ++ data.args.args.drop data.args.afterThis
    ++ (data.routing ++ cells.filter fun cell => cell.1 != .wrapperCell).map .ofCell)

def thisValue (data : Call) : Option NodeId :=
  (data.args.thisIndex.bind fun index => data.args.args[index]?).bind Argument.early

def withThis (data : Call) (value : NodeId) : Call :=
  data.withArgs (match data.args.thisIndex with
    | some index => data.args.args.modify index fun arg => { arg with early := some value }
    | none => data.args.args)

def provides (data : Call) : ArgRole → Bool
  | .wrapperCell => data.thisValue.isSome && data.wrapperOffset.isSome
  | .stubCell => data.stubCell.isSome
  | .r2rCell => data.r2rCell.isSome
  | _ => true

-- What becomes of the call's own arguments. The this-pointer of a wrapper delegate is needed twice, so
-- it is kept in a new temp unless it is simple.
inductive Handed (data : Call) (wrapped : Prop) (p q : Procedure) : Call → Prop where
  | same (simple : wrapped → ∃ value, data.thisValue = some value ∧ q.Simple value) :
      data.Handed wrapped p q data
  | spilled {value spilled : NodeId} {temp : LocalId} (isWrapped : wrapped)
      (isThis : data.thisValue = some value) (complex : ¬ q.Simple value)
      (fresh : p.locals.size ≤ temp) (spill : q.Spills temp value spilled) :
      data.Handed wrapped p q (data.withThis spilled)

section Dress

variable (data)

theorem routed_args : data.routed.args = data.args := by
  unfold routed
  split <;> rfl

theorem dress_rest (cells : List (ArgRole × NodeId)) :
    { data.dress cells with target := data.target, cookie := data.cookie, args := data.args } = data := by
  simp only [dress, withArgs, routed]
  split <;> rfl

theorem dress_perm (cells : List (ArgRole × NodeId)) :
    (data.dress cells).args.args.Perm (data.args.args ++ (data.routing ++ cells).map .ofCell) := by
  classical
  refine perm_iff_count.mpr fun arg => ?_
  have own := congrArg (List.count arg) (take_append_drop data.args.afterThis data.args.args)
  have hidden := ((filter_append_perm (fun cell => cell.1 == .wrapperCell) cells).map
    Argument.ofCell).count_eq arg
  simp only [dress, withArgs, bne, map_append, count_append] at own hidden ⊢
  omega

theorem dress_nil_args : (data.dress []).args.args = data.args.args ++ data.routing.map .ofCell := by
  simp [dress, withArgs]

theorem dress_nil_thisIndex : (data.dress []).args.thisIndex = data.args.thisIndex := by
  have noThis : (data.routing.map Argument.ofCell).findIdx? (fun arg => arg.role == .thisPointer) = none := by
    unfold routing
    split <;> rfl
  simp only [ArgList.thisIndex, ArgList.findRole, dress_nil_args, findIdx?_append, noThis]
  simp

theorem dress_nil_here (isThis : data.args.thisIndex = some index) :
    (data.dress []).args.args[index]? = data.args.args[index]? := by
  have bound : index < data.args.args.length := (findIdx?_eq_some_iff_getElem.mp isThis).1
  rw [dress_nil_args, getElem?_append_left bound]

theorem dress_push (cells : List (ArgRole × NodeId)) (value : NodeId) (other : role ≠ .wrapperCell) :
    { data.dress cells with args := (data.dress cells).args.push (.hidden value .ptr role) }
      = data.dress (cells ++ [(role, value)]) := by
  simp [dress, withArgs, ArgList.push, other, Argument.ofCell]

theorem dress_insert {cell : NodeId} (isThis : data.args.thisIndex = some index) :
    { data.dress [] with args := (data.dress []).args.insertAfterThis (.hidden cell .ptr .wrapperCell) }
      = data.dress [(.wrapperCell, cell)] := by
  have bound : index < data.args.args.length := (findIdx?_eq_some_iff_getElem.mp isThis).1
  have position : data.args.afterThis = index + 1 := by rw [ArgList.afterThis, isThis]
  have dressed : (data.dress []).args.afterThis = index + 1 := by
    rw [ArgList.afterThis, dress_nil_thisIndex, isThis]
  have split := AbiInfo.insertIdx_split (data.args.args.take (index + 1))
    (data.args.args.drop (index + 1) ++ data.routing.map Argument.ofCell)
    (Argument.hidden cell .ptr .wrapperCell)
  rw [length_take_of_le bound, ← append_assoc, take_append_drop] at split
  have inserted : ((data.dress []).args.insertAfterThis (.hidden cell .ptr .wrapperCell)).args
      = (data.dress [(.wrapperCell, cell)]).args.args := by
    rw [ArgList.insertAfterThis, dressed]
    simp only [dress_nil_args, split]
    simp [dress, withArgs, position, Argument.ofCell]
  simp only [ArgList.insertAfterThis] at inserted ⊢
  rw [inserted]
  rfl

theorem withThis_eq (value : NodeId) (isThis : data.args.thisIndex = some index)
    (atIndex : data.args.args[index]? = some arg) :
    data.withThis value = data.withArgs (data.args.args.set index { arg with early := some value }) := by
  simp only [withThis, isThis]
  rw [modify_eq_set _ atIndex]

theorem withThis_map {β : Type} (value : NodeId) (view : Argument → β)
    (blind : ∀ arg early, view { arg with early } = view arg) :
    (data.withThis value).args.args.map view = data.args.args.map view := by
  unfold withThis
  split
  · refine ext_getElem? fun index => ?_
    simp only [withArgs, getElem?_map, getElem?_modify]
    split
    · cases data.args.args[index]? with
      | none => rfl
      | some arg => exact congrArg some (blind arg _)
    · simp
  · rfl

theorem withThis_each {holds : Argument → Prop}
    (early : ∀ arg value, holds arg → holds { arg with early := some value })
    (each : ∀ arg ∈ data.args.args, holds arg) : ∀ arg ∈ (data.withThis value).args.args, holds arg := by
  unfold withThis
  split
  · intro arg mem
    obtain ⟨index, atIndex⟩ := mem_iff_getElem?.mp mem
    simp only [withArgs, getElem?_modify, Option.map_eq_map, Option.map_eq_some_iff] at atIndex
    obtain ⟨before, there, rfl⟩ := atIndex
    split
    · exact early before value (each before (mem_of_getElem? there))
    · exact each before (mem_of_getElem? there)
  · exact each

theorem withThis_findRole (value : NodeId) (role : ArgRole) :
    (data.withThis value).args.findRole role = data.args.findRole role := by
  rw [ArgList.findRole_eq, ArgList.findRole_eq, data.withThis_map value _ fun _ _ => rfl]

theorem withThis_thisValue {before : NodeId} (value : NodeId) (isThis : data.thisValue = some before) :
    (data.withThis value).thisValue = some value := by
  obtain ⟨arg, found, _⟩ := Option.bind_eq_some_iff.mp isThis
  obtain ⟨index, atThis, atIndex⟩ := Option.bind_eq_some_iff.mp found
  have bound := lt_length atIndex
  have stillThis := (data.withThis_findRole value .thisPointer).trans atThis
  rw [thisValue, ArgList.thisIndex, stillThis, data.withThis_eq value atThis atIndex]
  simp [withArgs, bound]

theorem routed_withArgs {args : List Argument} : (data.withArgs args).routed = data.routed.withArgs args := by
  unfold routed
  by_cases direct : data.routing = []
  · rw [if_pos direct, if_pos (show (data.withArgs args).routing = [] from direct)]
  · rw [if_neg direct, if_neg (show ¬ (data.withArgs args).routing = [] from direct)]
    rfl

theorem dress_nil_withArgs (args : List Argument) :
    (data.withArgs args).dress [] = (data.dress []).withArgs (args ++ data.routing.map .ofCell) := by
  have same : (data.withArgs args).args.args ++ (data.withArgs args).routing.map .ofCell
      = args ++ data.routing.map .ofCell := rfl
  rw [← same, ← dress_nil_args, dress, routed_withArgs]
  rfl

end Dress

theorem Handed.map {β : Type} (handed : data.Handed wrapped p q base) (view : Argument → β)
    (blind : ∀ arg early, view { arg with early } = view arg) :
    base.args.args.map view = data.args.args.map view := by
  cases handed with
  | same => rfl
  | spilled => exact data.withThis_map _ view blind

theorem Handed.rest (handed : data.Handed wrapped p q base) : base.withArgs data.args.args = data := by
  cases handed with
  | same => rfl
  | spilled => rfl

end Call

namespace AbiInfo

open Edit

structure Dressed (id : CallId) (data : Call) (p : Procedure) (base : Call) (cells : List (ArgRole × NodeId))
    (q : Procedure) : Prop where
  here : q.calls[id]? = some (base.dress cells)
  grown : Reworks id p q
  idle : data.routing = [] → cells = [] → q = p
  provided : ∀ cell ∈ cells, data.provides cell.1 = true
  -- cloning the this-pointer would end well again
  clones : .wrapperCell ∈ cells.map Prod.fst → ∃ value, base.thisValue = some value
    ∧ ∀ r, Reworks id q r → ∃ copy s, cloneSimple value r = .ok copy s
  handed : ∀ r, Reworks id q r → data.Handed (.wrapperCell ∈ cells.map Prod.fst) p r base

section Dressing

variable {id : CallId} {p q r : Procedure} {data base : Call} {cells : List (ArgRole × NodeId)} {settings : Settings}

theorem routeThroughHelper_dressed (here : p.calls[id]? = some data)
    (done : routeThroughHelper id p = .ok () q) : Dressed id data p data [] q := by
  have handed : ∀ r, Reworks id q r →
      data.Handed (.wrapperCell ∈ ([] : List (ArgRole × NodeId)).map Prod.fst) p r data :=
    fun _ _ => .same (by simp)
  obtain ⟨same, atSame, ⟨target, cookie, isIndirect, hasCookie, set⟩ | ⟨direct, rfl⟩⟩ :=
    routeThroughHelper_ok done
  · cases here.symm.trans atSame
    have routing : data.routing = [(.pinvokeCookie, cookie), (.pinvokeTarget, target)] := by
      simp only [Call.routing, isIndirect, hasCookie]
    refine ⟨?_, .set set, by simp [routing], by simp, by simp, handed⟩
    rw [set, p.setCall_here _ here]
    simp [Call.dress, Call.routed, routing, Call.withArgs, ArgList.push, Argument.ofCell]
  · cases here.symm.trans atSame
    have noRouting : data.routing = [] := by
      unfold Call.routing
      split
      · rename_i isIndirect hasCookie
        simp [isIndirect, hasCookie, CallTarget.node?] at direct
      · rfl
    refine ⟨?_, Extends.refl, fun _ _ => rfl, by simp, by simp, handed⟩
    rw [here]
    simp [Call.dress, Call.routed, noRouting, Call.withArgs]

theorem addCell_dressed {missing : Inconsistency} {cell : Option Int64}
    (dressed : Dressed id data p base cells q) (other : role ≠ .wrapperCell)
    (provides : cell.isSome = data.provides role) (done : addCell id role missing cell q = .ok () r) :
    ∃ value, Dressed id data p base (cells ++ [(role, value)]) r := by
  obtain ⟨addr, value, m, given, made, pushed⟩ := addCell_ok done
  obtain ⟨same, atSame, set⟩ := pushHidden_ok pushed
  have added := addNode_adds made
  have atM : m.calls[id]? = some (base.dress cells) := added.calls ▸ dressed.here
  cases atM.symm.trans atSame
  have step : Reworks id q r := added.reworks.trans (.set set)
  have asked : ArgRole.wrapperCell ∈ (cells ++ [(role, value)]).map Prod.fst
      ↔ .wrapperCell ∈ cells.map Prod.fst := by
    simp [other.symm]
  refine ⟨value, ?_, dressed.grown.trans step, by simp, ?_, fun wrapped => ?_, fun s later => ?_⟩
  · rw [set, m.setCall_here _ atM, base.dress_push cells value other]
  · have here : data.provides role = true := by rw [← provides, given, Option.isSome_some]
    exact forall_mem_append.mpr ⟨dressed.provided, by simpa using here⟩
  · obtain ⟨node, isThis, again⟩ := dressed.clones (asked.mp wrapped)
    exact ⟨node, isThis, fun s later => again s (step.trans later)⟩
  · rw [propext asked]
    exact dressed.handed s (step.trans later)

theorem spillThis_spills {m : Procedure} {spare : NodeId} {node : Node} {now : Call}
    (here : q.calls[id]? = some now) (atIndex : now.args.args[index]? = some arg)
    (atValue : q.nodes[value]? = some node) (done : spillThis id index value node.ty q = .ok spare m) :
    ∃ temp spilled, q.locals.size ≤ temp ∧ m.Spills temp value spilled ∧ Reworks id q m
      ∧ m.calls[id]? = some (now.withArgs (now.args.args.set index { arg with early := some spilled })) := by
  obtain ⟨spill⟩ := spillThis_ok done
  obtain ⟨isTemp, made⟩ := addLocal_ok spill.made
  have afterStore := addNode_adds spill.stored
  have afterRead := addNode_adds spill.reads
  have afterSpill := addNode_adds spill.joined
  have start := addLocal_adds spill.made
  have toSpill : Adds q spill.afterSpill := ((start.trans afterStore).trans afterRead).trans afterSpill
  have set := modifyArg_slot (toSpill.calls ▸ here) atIndex spill.set
  have again := addNode_adds spill.again
  have setting : Reworks id spill.afterSpill spill.afterSet := modifyArg_extends spill.set
  have rest : Reworks id spill.afterSpill m := setting.trans again.reworks
  obtain ⟨store, atStore, isStore, _⟩ := addNode_here spill.stored
  obtain ⟨read, atRead, isRead, _⟩ := addNode_here spill.reads
  obtain ⟨comma, atComma, isComma, _⟩ := addNode_here spill.joined
  have spills : spill.afterSpill.Spills spill.temp value spill.spilled := by
    refine ⟨⟨spill.store, spill.read, ?_, ?_, ?_⟩, node, toSpill.node atValue, ?_⟩
    · exact kindAt_of _ atComma isComma
    · exact (kindAt_some_iff _).mpr
        ⟨store, (afterRead.trans afterSpill).node atStore, isStore⟩
    · exact kindAt_of _ (afterSpill.node atRead) isRead
    · refine ((afterStore.trans afterRead).trans afterSpill).varKept _ _ ?_
      rw [made, isTemp]
      exact Array.getElem?_push_size
  exact ⟨spill.temp, spill.spilled, isTemp ▸ Nat.le_refl _, spills.later rest,
    toSpill.reworks.trans rest, again.calls ▸ set⟩

theorem addWrapperCell_dressed (dressed : Dressed id data p data [] q) (done : addWrapperCell id q = .ok () r) :
    ∃ base cell, Dressed id data p base [(.wrapperCell, cell)] r := by
  obtain ⟨cell⟩ := addWrapperCell_ok done
  have sameData : cell.data = data.dress [] := Option.some.inj (cell.here.symm.trans dressed.here)
  have isThis : data.args.thisIndex = some cell.index := by
    rw [← data.dress_nil_thisIndex, ← sameData]
    exact cell.isThis
  have atIndex : data.args.args[cell.index]? = some cell.arg := by
    rw [← data.dress_nil_here isThis, ← sameData]
    exact cell.atIndex
  have thisValue : data.thisValue = some cell.value := by
    simp only [Call.thisValue, isThis, Option.bind_some, atIndex, cell.hasValue]
  have offset : data.wrapperOffset = some cell.offset := by
    rw [← congrArg Call.wrapperOffset (data.dress_rest [])]
    exact sameData ▸ cell.hasOffset
  have provided : ∀ given ∈ [(ArgRole.wrapperCell, cell.cell)], data.provides given.1 = true := by
    simp [Call.provides, thisValue, offset]
  have loading := ((addNode_adds cell.counted).trans (addNode_adds cell.added)).trans
    (addNode_adds cell.loaded)
  have ending : Reworks id cell.afterBase r := loading.reworks.trans (.set cell.last)
  -- Whatever the call is when the cell is loaded, the cell is put after the this-pointer.
  have finish : ∀ base : Call, base.args.thisIndex = some cell.index →
      cell.afterBase.calls[id]? = some (base.dress []) →
      r.calls[id]? = some (base.dress [(.wrapperCell, cell.cell)]) := by
    intro base stillThis atBase
    have atNow : cell.afterCell.calls[id]? = some (base.dress []) := loading.calls ▸ atBase
    have sameNow : cell.now = base.dress [] := Option.some.inj (cell.atNow.symm.trans atNow)
    rw [setCall_at atNow cell.last, sameNow, base.dress_insert stillThis]
  rcases cell.based with cloned | ⟨m, cloned, spilled⟩
  · have copying := cloneSimple_adds cloned
    refine ⟨data, cell.cell, finish data isThis (copying.calls ▸ dressed.here),
      dressed.grown.trans (copying.reworks.trans ending), by simp, provided, fun _ => ⟨cell.value, thisValue,
        fun s later => cloneSimple_again cloned (ending.trans later)⟩, fun s later => .same fun _ => ?_⟩
    exact ⟨cell.value, thisValue, (cloneSimple_isSome_iff cloned (ending.trans later)).mp rfl⟩
  · have copying := cloneSimple_adds cloned
    have atM : m.calls[id]? = some (data.dress []) := copying.calls ▸ dressed.here
    have dressedArg : (data.dress []).args.args[cell.index]? = some cell.arg :=
      (data.dress_nil_here isThis).trans atIndex
    obtain ⟨temp, spill, fresh, spills, spilling, atSpilled⟩ := spillThis_spills atM dressedArg
      (copying.node cell.atValue) spilled
    have bound := lt_length atIndex
    have asBase : (data.withThis spill).dress [] = (data.dress []).withArgs
        ((data.dress []).args.args.set cell.index { cell.arg with early := some spill }) := by
      rw [data.withThis_eq spill isThis atIndex, Call.dress_nil_withArgs,
        Call.dress_nil_args, set_append_left _ _ bound]
    have stillThis := (data.withThis_findRole spill .thisPointer).trans isThis
    refine ⟨data.withThis spill, cell.cell, finish _ stillThis (asBase ▸ atSpilled),
      dressed.grown.trans ((copying.reworks.trans spilling).trans ending), by simp, provided,
      fun _ => ⟨spill, data.withThis_thisValue spill thisValue, fun s later => ?_⟩, fun s later => ?_⟩
    · exact (spills.later (ending.trans later)).clones
    refine .spilled (by simp) thisValue ?_ ?_ (spills.later (ending.trans later))
    · rw [← cloneSimple_isSome_iff cloned (spilling.trans (ending.trans later))]
      simp
    · exact Nat.le_trans dressed.grown.locals_le (Nat.le_trans copying.locals_le fresh)

theorem optional_dressed {condition : Prop} [Decidable condition] {step : Attempt Unit}
    (dressed : Dressed id data p base cells q)
    (steps : step q = .ok () r → ∃ base' value, Dressed id data p base' (cells ++ [(role, value)]) r)
    (done : if condition then step q = .ok () r else r = q) :
    ∃ base' cells', cells'.map Prod.fst = cells.map Prod.fst ++ (if condition then [role] else [])
      ∧ Dressed id data p base' cells' r := by
  by_cases taken : condition
  · rw [if_pos taken] at done
    obtain ⟨base', value, after⟩ := steps done
    exact ⟨base', _, by simp [taken], after⟩
  · rw [if_neg taken] at done
    subst done
    exact ⟨base, cells, by simp [taken], dressed⟩

theorem addHiddenArgs_dressed (here : p.calls[id]? = some data) (done : addHiddenArgs id p = .ok () q) :
    ∃ base cells, cells.map Prod.fst = data.cellRoles ∧ Dressed id data p base cells q := by
  obtain ⟨steps⟩ := addHiddenArgs_ok done
  have sameData : steps.data = data := Option.some.inj (steps.here.symm.trans here)
  have stubbing := steps.stubbing
  have ending := steps.ending
  rw [sameData] at stubbing ending
  have routed := routeThroughHelper_dressed here steps.routing
  obtain ⟨_, _, roles₁, wrapped⟩ := optional_dressed routed
    (addWrapperCell_dressed routed) steps.wrapping
  obtain ⟨_, _, roles₂, stubbed⟩ := optional_dressed wrapped
    (fun step => ⟨_, addCell_dressed wrapped (by decide) rfl step⟩) stubbing
  obtain ⟨base, cells, roles₃, ended⟩ := optional_dressed stubbed
    (fun step => ⟨_, addCell_dressed stubbed (by decide) rfl step⟩) ending
  refine ⟨base, cells, ?_, ended⟩
  rw [roles₃, roles₂, roles₁, sameData]
  rfl

section Each

variable (holds : Argument → Prop) (hidden : ∀ value role, holds (.hidden value .ptr role))
  (early : ∀ arg value, holds arg → holds { arg with early := some value })

include hidden early

theorem Dressed.each (dressed : Dressed id data p base cells q)
    (before : ∀ arg ∈ data.args.args, holds arg) : ∀ arg ∈ (base.dress cells).args.args, holds arg := by
  have own : ∀ arg ∈ base.args.args, holds arg := by
    cases dressed.handed q Extends.refl with
    | same => exact before
    | spilled => exact data.withThis_each early before
  intro arg mem
  rcases mem_append.mp ((base.dress_perm cells).mem_iff.mp mem) with old | new
  · exact own arg old
  · obtain ⟨cell, _, rfl⟩ := mem_map.mp new
    exact hidden cell.2 cell.1

theorem finalize_each (placed : ∀ arg placement, holds arg → holds { arg with placement })
    (before : OpenList id holds p) (done : finalize settings id p = .ok () q) :
    ∃ data, q.calls[id]? = some data ∧ data.args.stage = .finalized
      ∧ (data.args.hasStackArgs = data.args.args.any fun arg => arg.placement.hasStack)
      ∧ ∀ arg ∈ data.args.args, holds arg := by
  obtain ⟨data, here, fresh, each⟩ := before
  obtain ⟨same, atSame, ⟨finalized, _⟩ | ⟨_, m, added, _, placing⟩⟩ := finalize_ok done
  · cases here.symm.trans atSame
    simp [fresh, Stage.isFinalized] at finalized
  · obtain ⟨base, cells, _, dressed⟩ := addHiddenArgs_dressed here added
    have each := dressed.each holds hidden early each
    obtain ⟨placing⟩ := placeArgs_ok placing
    rw [← Option.some.inj (placing.here.symm.trans dressed.here)] at each
    rw [placing.last]
    refine ⟨_, setCall_here m _ placing.here, rfl, rfl, fun arg mem => ?_⟩
    obtain ⟨index, bound, rfl⟩ := getElem_of_mem mem
    have slots := assign_slots placing.assigned
    obtain ⟨placement, same⟩ := slots.get (slots.length_eq ▸ bound) bound
    simp only [get_eq_getElem] at same
    rw [same]
    exact placed _ placement (each _ (getElem_mem _))

end Each

end Dressing

end AbiInfo

end CallLowering
