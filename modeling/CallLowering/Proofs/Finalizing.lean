import CallLowering.Lowering.AbiInfo
import CallLowering.Proofs.Growth
import Mathlib.Data.List.InsertIdx

/-!
What finalizing does to a list: hidden arguments join it, every argument gets a placement, and
nothing else about an argument changes.
-/

namespace CallLowering

open Option

variable {id : CallId} {p q : Procedure} {settings : Settings} {role : ArgRole} {value : NodeId}

theorem Procedure.setCall_setCall (proc : Procedure) (id : CallId) (first second : Call) :
    (proc.setCall id first).setCall id second = proc.setCall id second := by
  simp [Procedure.setCall]

namespace AbiInfo

open Edit

theorem pushHidden_ok (done : pushHidden id value role p = .ok () q) :
    ∃ data, p.calls[id]? = some data
      ∧ q = p.setCall id { data with args := data.args.push (.hidden value .ptr role) } :=
  modifyCall_ok done

theorem routeThroughHelper_ok (done : routeThroughHelper id p = .ok () q) :
    ∃ data, p.calls[id]? = some data ∧
      ((∃ target cookie, data.target = .indirect target ∧ data.cookie = some cookie
          ∧ q = p.setCall id { data with
            target := .pinvokeHelper, cookie := none
            args := (data.args.push (.hidden cookie .ptr .pinvokeCookie)).push
              (.hidden target .ptr .pinvokeTarget) })
        ∨ (data.target.node? = none ∨ data.cookie = none) ∧ q = p) := by
  simp only [routeThroughHelper, bind_ok_iff] at done
  obtain ⟨data, _, found, done⟩ := done
  obtain ⟨here, rfl⟩ := call_ok found
  refine ⟨data, here, ?_⟩
  cases target : data.target with
  | indirect node =>
    cases cookie : data.cookie with
    | some cookieNode =>
      simp only [target, cookie, bind_ok_iff] at done
      obtain ⟨_, m, first, _, m', second, third⟩ := done
      obtain ⟨data₁, atFirst, rfl⟩ := pushHidden_ok first
      cases here.symm.trans atFirst
      obtain ⟨data₂, atSecond, rfl⟩ := pushHidden_ok second
      cases (Procedure.setCall_here _ _ here).symm.trans atSecond
      obtain ⟨data₃, atThird, rfl⟩ := modifyCall_ok third
      cases (Procedure.setCall_here _ _ atSecond).symm.trans atThird
      exact .inl ⟨node, cookieNode, rfl, rfl, by simp only [Procedure.setCall_setCall]⟩
    | none =>
      simp only [target, cookie, pure_ok_iff] at done
      exact .inr ⟨.inr rfl, done.2.symm⟩
  | _ =>
    simp only [target, pure_ok_iff] at done
    exact .inr ⟨.inl rfl, done.2.symm⟩

structure Spilled (id : CallId) (index : Nat) (value : NodeId) (ty : ValueType) (p q : Procedure)
    (base : NodeId) where
  temp : LocalId
  store : NodeId
  read : NodeId
  spilled : NodeId
  afterTemp : Procedure
  afterStore : Procedure
  afterRead : Procedure
  afterSpill : Procedure
  afterSet : Procedure
  made : Edit.addLocal { ty, kind := .argTemp } p = .ok temp afterTemp
  stored : addNode (.storeLocal temp value) .void afterTemp = .ok store afterStore
  reads : addNode (.readLocal temp) ty afterStore = .ok read afterRead
  joined : addNode (.comma store read) ty afterRead = .ok spilled afterSpill
  set : modifyArg id index (fun arg => { arg with early := some spilled }) afterSpill
    = .ok () afterSet
  again : addNode (.readLocal temp) ty afterSet = .ok base q

theorem spillThis_ok {index : Nat} {ty : ValueType} {base : NodeId}
    (done : spillThis id index value ty p = .ok base q) : Nonempty (Spilled id index value ty p q base) := by
  simp only [spillThis, bind_ok_iff] at done
  obtain ⟨temp, afterTemp, made, store, afterStore, stored, read, afterRead, reads, spilled,
    afterSpill, joined, _, afterSet, set, again⟩ := done
  exact ⟨⟨temp, store, read, spilled, afterTemp, afterStore, afterRead, afterSpill, afterSet, made,
    stored, reads, joined, set, again⟩⟩

structure CellAdded (id : CallId) (p q : Procedure) where
  data : Call
  index : Nat
  offset : Nat
  arg : Argument
  value : NodeId
  node : Node
  base : NodeId
  amount : NodeId
  addr : NodeId
  cell : NodeId
  afterBase : Procedure
  afterAmount : Procedure
  afterAddr : Procedure
  afterCell : Procedure
  now : Call
  here : p.calls[id]? = some data
  isThis : data.args.thisIndex = some index
  hasOffset : data.wrapperOffset = some offset
  atIndex : data.args.args[index]? = some arg
  hasValue : arg.early = some value
  atValue : p.nodes[value]? = some node
  based : cloneSimple value p = .ok (some base) afterBase
    ∨ ∃ m, cloneSimple value p = .ok none m ∧ spillThis id index value node.ty m = .ok base afterBase
  counted : addNode (.intConst (Int64.ofNat offset)) .ptr afterBase = .ok amount afterAmount
  added : addNode (.binary .add base amount) .ptr afterAmount = .ok addr afterAddr
  loaded : addNode (.load addr false) .ptr afterAddr = .ok cell afterCell
  atNow : afterCell.calls[id]? = some now
  last : q = afterCell.setCall id
    { now with args := now.args.insertAfterThis (.hidden cell .ptr .wrapperCell) }

theorem addWrapperCell_ok (done : addWrapperCell id p = .ok () q) : Nonempty (CellAdded id p q) := by
  simp only [addWrapperCell, bind_ok_iff, lift_edit_ok_iff] at done
  obtain ⟨data, _, found, done⟩ := done
  obtain ⟨here, rfl⟩ := call_ok found
  cases isThis : data.args.thisIndex with
  | none => simp only [isThis, refuse_ok_iff] at done
  | some index =>
    cases hasOffset : data.wrapperOffset with
    | none => simp only [isThis, hasOffset, refuse_ok_iff] at done
    | some offset =>
      simp only [isThis, hasOffset, bind_ok_iff, lift_edit_ok_iff] at done
      obtain ⟨arg, _, atArg, done⟩ := done
      obtain ⟨same, atSame, atIndex, rfl⟩ := arg_ok atArg
      cases here.symm.trans atSame
      cases hasValue : arg.early with
      | none => simp only [hasValue, refuse_ok_iff] at done
      | some value =>
        simp only [hasValue, thisAgain, loadCell, bind_ok_iff, lift_edit_ok_iff] at done
        obtain ⟨base, m, ⟨node, _, atNode, copy, u, cloned, based⟩, amount, _, counted, addr, _, added, cell, _,
          loaded, last⟩ := done
        obtain ⟨atValue, rfl⟩ := node_ok atNode
        obtain ⟨now, atNow, last⟩ := modifyCall_ok last
        refine ⟨⟨data, index, offset, arg, value, node, base, amount, addr, cell, m, _, _, _, now, here, isThis,
          hasOffset, atIndex, hasValue, atValue, ?_, counted, added, loaded, atNow, last⟩⟩
        cases copy with
        | some copied =>
          obtain ⟨rfl, rfl⟩ := pure_ok_iff.mp based
          exact .inl cloned
        | none => exact .inr ⟨u, cloned, based⟩

theorem addCell_ok {missing : Inconsistency} {cell : Option Int64}
    (done : addCell id role missing cell p = .ok () q) :
    ∃ addr value m, cell = some addr ∧ addNode (.intConst addr) .ptr p = .ok value m
      ∧ pushHidden id value role m = .ok () q := by
  unfold addCell at done
  cases cell with
  | none => exact (refuse_ok_iff.mp done).elim
  | some addr =>
    simp only [bind_ok_iff, lift_edit_ok_iff] at done
    obtain ⟨value, m, made, pushed⟩ := done
    exact ⟨addr, value, m, rfl, made, pushed⟩

-- The steps that add the hidden arguments, each of which may have had nothing to do.
structure HiddenAdded (id : CallId) (p q : Procedure) where
  data : Call
  routed : Procedure
  wrapped : Procedure
  stubbed : Procedure
  here : p.calls[id]? = some data
  routing : routeThroughHelper id p = .ok () routed
  wrapping : if data.flags.wrapperDelegate = true then addWrapperCell id routed = .ok () wrapped
    else wrapped = routed
  stubbing : if (data.flags.virtualStub && !data.flags.r2r) = true then
      addCell id .stubCell .stubWithoutCell data.stubCell wrapped = .ok () stubbed
    else stubbed = wrapped
  ending : if data.flags.r2r = true then
      addCell id .r2rCell .r2rWithoutCell data.r2rCell stubbed = .ok () q
    else q = stubbed

theorem addHiddenArgs_ok (done : addHiddenArgs id p = .ok () q) : Nonempty (HiddenAdded id p q) := by
  simp only [addHiddenArgs, bind_ok_iff, lift_edit_ok_iff] at done
  obtain ⟨data, _, found, _, routed, routing, done⟩ := done
  obtain ⟨here, rfl⟩ := call_ok found
  obtain ⟨wrapped, wrapping, done⟩ := (when_bind_ok_iff _ _).mp done
  obtain ⟨stubbed, stubbing, done⟩ := (when_bind_ok_iff _ _).mp done
  exact ⟨⟨data, routed, wrapped, stubbed, here, routing, wrapping, stubbing, (when_ok_iff _ _).mp done⟩⟩

def OpenList (id : CallId) (holds : Argument → Prop) (proc : Procedure) : Prop :=
  ∃ data, proc.calls[id]? = some data ∧ data.args.stage = .unfinalized
    ∧ ∀ arg ∈ data.args.args, holds arg

variable {args : List Argument} {placements : List Placement} {out : List Argument}

theorem assign_slots {target : Target} (done : assign target args placements = some out) :
    List.Forall₂ (fun before after => ∃ placement, after = { before with placement }) args out := by
  induction args generalizing placements out with
  | nil =>
    cases done
    exact .nil
  | cons arg rest ih =>
    unfold assign at done
    split at done
    · obtain ⟨later, found, rfl⟩ := map_eq_some_iff.mp done
      exact .cons ⟨_, rfl⟩ (ih found)
    · obtain ⟨later, found, rfl⟩ := map_eq_some_iff.mp done
      exact .cons ⟨_, rfl⟩ (ih found)
    · cases done

theorem assign_map {β : Type} (view : Argument → β)
    (blind : ∀ arg placement, view { arg with placement } = view arg) {target : Target}
    (assigned : assign target args placements = some out) : out.map view = args.map view := by
  have slots := assign_slots assigned
  clear assigned
  induction slots with
  | nil => rfl
  | cons here _ ih =>
    obtain ⟨placement, rfl⟩ := here
    rw [List.map_cons, List.map_cons, blind, ih]

theorem insertIdx_split {α : Type} (front rest : List α) (item : α) :
    (front ++ rest).insertIdx front.length item = front ++ item :: rest := by
  induction front with
  | nil => rfl
  | cons head tail ih => simp [ih]

section Masking

variable (mask : Argument → Argument) (sameRole : ∀ arg, (mask arg).role = arg.role) (target : Target)

include sameRole

theorem assign_masking (samePlace : ∀ arg placement, mask { arg with placement } = { mask arg with placement })
    (args : List Argument) (placements : List Placement) :
    assign target (args.map mask) placements = (assign target args placements).map (List.map mask) := by
  induction args generalizing placements with
  | nil => rfl
  | cons arg rest ih =>
    have joined : ∀ placement (later : List Argument), { mask arg with placement } :: later.map mask
        = mask { arg with placement } :: later.map mask :=
      fun placement later => congrArg (· :: later.map mask) (samePlace arg placement).symm
    have sameCustom : target.customReg (mask arg).role = target.customReg arg.role := by rw [sameRole]
    cases custom : target.customReg arg.role <;> cases placements <;>
      simp only [List.map_cons, assign, sameCustom, custom, ih, map_map, map_none]
    all_goals exact congrArg (Option.map · _) (funext fun later => joined _ later)

theorem shapes_masking (sameTy : ∀ arg, (mask arg).ty = arg.ty) (types : TypeTable) (args : List Argument) :
    ((args.map mask).filter fun arg => (target.customReg arg.role).isNone).mapM (argShape types)
      = (args.filter fun arg => (target.customReg arg.role).isNone).mapM (argShape types) := by
  have shape : ∀ arg, argShape types (mask arg) = argShape types arg := fun arg => by
    rw [argShape, argShape, sameRole, sameTy]
  rw [List.filter_map, List.mapM_map]
  simp only [Function.comp_def, sameRole, shape]

end Masking

-- The classification behind the placements of a finalized list.
structure Placed (settings : Settings) (id : CallId) (p q : Procedure) where
  data : Call
  shapes : List ArgShape
  answer : Classification
  args : List Argument
  here : p.calls[id]? = some data
  shaped : (data.args.args.filter fun arg => (settings.target.customReg arg.role).isNone).mapM
    (argShape settings.types) = .ok shapes
  classified : settings.target.classify (callShape data) shapes = .ok answer
  counted : answer.placements.length = shapes.length
  assigned : assign settings.target data.args.args answer.placements = some args
  fresh : data.args.stage = .unfinalized
  last : q = p.setCall id { data with args := { data.args with
    args
    hasRegArgs := args.any fun arg => arg.placement.hasReg
    hasStackArgs := args.any fun arg => arg.placement.hasStack
    stackSize := answer.stackSize
    stage := .finalized } }

theorem placeArgs_ok (done : placeArgs settings id p = .ok () q) : Nonempty (Placed settings id p q) := by
  simp only [placeArgs, bind_ok_iff, lift_edit_ok_iff, lift_fault_ok_iff, lift_stop_ok_iff] at done
  obtain ⟨data, _, found, shapes, _, ⟨shaped, rfl⟩, answer, _, ⟨classified, rfl⟩, done⟩ := done
  obtain ⟨here, rfl⟩ := call_ok found
  split at done
  · simp only [bind_ok_iff, refuse_ok_iff, false_and, exists_false] at done
  · rename_i counted
    cases assigned : assign settings.target data.args.args answer.placements with
    | none =>
      simp only [assigned, refuse_ok_iff] at done
    | some args =>
      simp only [assigned, lift_edit_ok_iff] at done
      obtain ⟨same, list, atSame, stepped, last⟩ := modifyArgs_ok done
      cases here.symm.trans atSame
      unfold ArgList.markFinalized at stepped
      split at stepped
      · rename_i fresh
        cases stepped
        exact ⟨⟨data, shapes, answer, args, here, shaped, classified, by simpa using counted, assigned,
          fresh, last⟩⟩
      · cases stepped

theorem finalize_ok (done : finalize settings id p = .ok () q) :
    ∃ data, p.calls[id]? = some data ∧ (data.args.stage.isFinalized = true ∧ q = p
      ∨ data.args.stage.isFinalized = false ∧ ∃ m, addHiddenArgs id p = .ok () m
        ∧ checkVarargs settings.target data.flags = .ok () ∧ placeArgs settings id m = .ok () q) := by
  simp only [finalize, bind_ok_iff, lift_edit_ok_iff] at done
  obtain ⟨data, _, found, done⟩ := done
  obtain ⟨here, rfl⟩ := call_ok found
  refine ⟨data, here, ?_⟩
  split at done
  · rename_i finalized
    exact .inl ⟨finalized, (pure_ok_iff.mp done).2.symm⟩
  · rename_i open_
    simp only [bind_ok_iff, lift_stop_ok_iff] at done
    obtain ⟨_, m, hidden, _, _, ⟨allowed, rfl⟩, placed⟩ := done
    exact .inr ⟨by simpa using open_, m, hidden, allowed, placed⟩

end AbiInfo

end CallLowering
