import CallLowering.Proofs.FinalizedTrees
import CallLowering.Proofs.TwinEdits

/-!
Finalizing twins. Hidden arguments are made from what both sides share, and the placements depend on
the types and roles of arguments alone.
-/

namespace CallLowering

variable {data : Call} {id : CallId} {seen : List NodeId}

theorem Call.Twins.withList {other : Call} (twins : data.Twins other) {list list' : ArgList}
    (both : list.Twins list') : ({ data with args := list } : Call).Twins { other with args := list' } := by
  refine ⟨?_, both⟩
  rw [twins.rest]

namespace ArgList.Twins

variable {list other : ArgList} {arg : Argument}

variable (twins : list.Twins other)

include twins

theorem withArgs {args args' : List Argument} (same : args'.map Argument.masked = args.map Argument.masked) :
    ({ list with args } : ArgList).Twins { other with args := args' } :=
  { twins with args := same }

theorem push : (list.push arg).Twins (other.push arg) := by
  refine twins.withArgs ?_
  rw [List.map_append, List.map_append, twins.args]

theorem thisIndex : other.thisIndex = list.thisIndex := twins.findRole _

theorem insertAfterThis : (list.insertAfterThis arg).Twins (other.insertAfterThis arg) := by
  refine twins.withArgs ?_
  have here : other.afterThis = list.afterThis := by rw [afterThis, twins.thisIndex, ← afterThis]
  rw [List.map_insertIdx, List.map_insertIdx, twins.args, here]

theorem any {f : Argument → Bool} (blind : ∀ arg, f arg.masked = f arg) : other.args.any f = list.args.any f := by
  have through : ∀ args : List Argument, args.any f = (args.map f).any id := by
    intro args
    rw [List.any_map]
    rfl
  rw [through, through, twins.map f blind]

theorem markFinalized (stackSize : Nat) :
    (∃ after after', list.markFinalized stackSize = .ok after ∧ other.markFinalized stackSize = .ok after'
        ∧ after.Twins after')
      ∨ ∃ fault fault', list.markFinalized stackSize = .error fault
        ∧ other.markFinalized stackSize = .error fault' := by
  unfold ArgList.markFinalized
  rw [twins.stage]
  by_cases isOpen : list.stage = .unfinalized
  · rw [if_pos isOpen, if_pos isOpen]
    exact .inl ⟨_, _, rfl, rfl, { twins with
      stage := rfl
      stackSize := rfl
      hasRegArgs := twins.any fun _ => rfl
      hasStackArgs := twins.any fun _ => rfl }⟩
  · rw [if_neg isOpen, if_neg isOpen]
    exact .inr ⟨_, _, rfl, rfl⟩

end ArgList.Twins

namespace Both

open AbiInfo

variable {frame : Frame} {rename : LocalId → LocalId} {p q : Procedure}

theorem given {α : Type} (twins : Twins frame rename p q) {x : Except Fault α} :
    Same frame rename p q (liftM x : Attempt α) := by
  cases x with
  | ok a => exact done twins rfl
  | error fault => trivial

theorem granted {α : Type} (twins : Twins frame rename p q) {x : Except Stop α} :
    Same frame rename p q (liftM x : Attempt α) := by
  cases x with
  | ok a => exact done twins rfl
  | error stop => trivial

section Twins

variable (twins : Twins frame rename p q)

include twins

theorem pushHidden (id : CallId) (value : NodeId) (role : ArgRole) :
    Same frame rename p q (AbiInfo.pushHidden id value role) :=
  modifyCall twins fun _ _ _ both => both.withList (both.list.push)

theorem routeThroughHelper (id : CallId) : Same frame rename p q (AbiInfo.routeThroughHelper id) := by
  refine bind (call twins id) fun data data' _ twins₁ _ both => ?_
  have sameTarget : data'.target = data.target := by rw [both.rest]
  have sameCookie : data'.cookie = data.cookie := by rw [both.rest]
  rw [sameTarget, sameCookie]
  cases data.target with
  | indirect target =>
    cases data.cookie with
    | some cookie =>
      refine next (pushHidden twins₁ id cookie .pinvokeCookie) fun _ _ twins₂ _ => ?_
      refine next (pushHidden twins₂ id target .pinvokeTarget) fun _ _ twins₃ _ => ?_
      refine modifyCall twins₃ fun now now' _ both => ⟨?_, both.list⟩
      rw [both.rest]
    | none => exact done twins₁ rfl
  | _ => exact done twins₁ rfl

theorem spillThis (id : CallId) (index : Nat) (value : NodeId) (ty : ValueType) :
    Same frame rename p q (AbiInfo.spillThis id index value ty) := by
  refine bind (addLocal twins) fun temp temp' _ twins₁ _ matched => ?_
  refine next (addStore twins₁ matched .void value) fun store _ twins₂ later₂ => ?_
  refine next (addRead twins₂ (matched.later later₂) ty) fun read _ twins₃ later₃ => ?_
  refine next (addPlain twins₃ ty rfl) fun spilled _ twins₄ later₄ => ?_
  refine bind (modifyArg twins₄ id index fun arg arg' same => ?_) ?_
  · exact congrArg (fun masked : Argument => { masked with early := some spilled }) same
  intro rename₅ p₅ q₅ _ _ _ twins₅ later₅ _
  exact addRead twins₅ ((matched.later later₂).later (later₃.trans (later₄.trans later₅))) ty

theorem thisAgain {value : NodeId} {tree : List NodeId} (atTree : Forest p [value] tree)
    (live : ∀ node ∈ tree, frame.Live node) (id : CallId) (index : Nat) :
    Same frame rename p q (AbiInfo.thisAgain id index value) := by
  refine bind (node twins value) fun old old' asked twins₁ _ same => ?_
  obtain ⟨_, rfl⟩ := Edit.node_ok asked
  refine next (cloneSimple twins₁ atTree live) fun copy _ twins₂ _ => ?_
  rw [same.1]
  cases copy with
  | none => exact spillThis twins₂ id index value old.ty
  | some base => exact done twins₂ rfl

theorem loadCell (id : CallId) (base : NodeId) (offset : Nat) :
    Same frame rename p q (AbiInfo.loadCell id base offset) := by
  refine next (addPlain twins .ptr rfl) fun amount _ twins₁ _ => ?_
  refine next (addPlain twins₁ .ptr rfl) fun addr _ twins₂ _ => ?_
  refine next (addPlain twins₂ .ptr rfl) fun cell _ twins₃ _ => ?_
  exact modifyCall twins₃ fun _ _ _ both => both.withList (both.list.insertAfterThis)

theorem addWrapperCell (holds : Holds p id data seen) (live : ∀ node ∈ seen, frame.Live node) :
    Same frame rename p q (AbiInfo.addWrapperCell id) := by
  refine bind (call twins id).lift fun now now' asked twins₁ _ both => ?_
  obtain ⟨here, rfl⟩ := Edit.call_ok (lift_edit_ok_iff.mp asked)
  cases holds.here.symm.trans here
  have sameOffset : now'.wrapperOffset = data.wrapperOffset := by rw [both.rest]
  rw [both.list.thisIndex, sameOffset]
  cases data.args.thisIndex with
  | none => trivial
  | some index =>
    cases data.wrapperOffset with
    | none => trivial
    | some offset =>
      refine bind (arg twins₁ id index).lift fun this this' found twins₂ _ same => ?_
      obtain ⟨_, atCall, atIndex, rfl⟩ := Edit.arg_ok (lift_edit_ok_iff.mp found)
      cases holds.here.symm.trans atCall
      rw [Argument.masked_read same Argument.early fun _ => rfl]
      cases hasEarly : this.early with
      | none => trivial
      | some value =>
        obtain ⟨tree, atTree, _, mem⟩ := holds.treeOf (List.mem_of_getElem? atIndex) hasEarly
        refine next (thisAgain twins₂ atTree (fun node met => live node (mem node met)) id index).lift
          fun base _ twins₃ _ => ?_
        exact (loadCell twins₃ id base offset).lift

theorem addCell (id : CallId) {role : ArgRole} {missing : Inconsistency} {cell : Option Int64} :
    Same frame rename p q (AbiInfo.addCell id role missing cell) := by
  cases cell with
  | none => trivial
  | some addr =>
    refine next (addPlain twins .ptr rfl).lift fun value _ twins₁ _ => ?_
    exact (pushHidden twins₁ id value role).lift

theorem placeArgs (settings : Settings) (id : CallId) : Same frame rename p q (AbiInfo.placeArgs settings id) := by
  refine bind (call twins id).lift fun data data' _ twins₁ _ both => ?_
  have sameShapes : (data'.args.args.filter fun arg => (settings.target.customReg arg.role).isNone).mapM
      (argShape settings.types) = (data.args.args.filter fun arg =>
        (settings.target.customReg arg.role).isNone).mapM (argShape settings.types) := by
    rw [← shapes_masking Argument.masked (fun _ => rfl) _ (fun _ => rfl), both.list.args,
      shapes_masking Argument.masked (fun _ => rfl) _ (fun _ => rfl)]
  have sameCall : callShape data' = callShape data := by
    unfold callShape Call.hasThis Call.hasReturnBuffer
    rw [both.list.thisIndex, both.list.findRole]
    rw [both.rest]
    rfl
  dsimp only
  rw [sameShapes, sameCall]
  refine next (given twins₁) fun shapes _ twins₂ _ => ?_
  refine next (granted twins₂) fun answer _ twins₃ _ => ?_
  by_cases short : answer.placements.length ≠ shapes.length
  · rw [if_pos short, if_pos short]
    trivial
  · rw [if_neg short, if_neg short]
    have assigned : (assign settings.target data'.args.args answer.placements).map (List.map Argument.masked)
        = (assign settings.target data.args.args answer.placements).map (List.map Argument.masked) := by
      rw [← assign_masking Argument.masked (fun _ => rfl) _ (fun _ _ => rfl), both.list.args,
        assign_masking Argument.masked (fun _ => rfl) _ (fun _ _ => rfl)]
    cases left : assign settings.target data.args.args answer.placements with
    | none =>
      rw [left] at assigned
      rw [Option.map_eq_none_iff.mp assigned]
      trivial
    | some args =>
      rw [left] at assigned
      obtain ⟨args', right, same⟩ := Option.map_eq_some_iff.mp assigned
      rw [right]
      exact (modifyArgs twins₃ fun _ _ _ both =>
        (both.list.withArgs same).markFinalized answer.stackSize).lift

end Twins

theorem optional {x : Attempt Unit} {f : Unit → Attempt Unit} (condition : Bool)
    (twins : Twins frame rename p q) (both : Same frame rename p q x)
    (next : ∀ {rename' p' q'}, Twins frame rename' p' q' → Same frame rename' p' q' (f ())) :
    Same frame rename p q (if condition then x >>= f else f ()) := by
  cases condition with
  | true => exact bind both fun _ _ _ twins' _ _ => next twins'
  | false => exact next twins

section Unplaced

variable (twins : Twins frame rename p q) (unplaced : Unplaced p id data seen) (live : ∀ node ∈ seen, frame.Live node)

include twins unplaced live

theorem addHiddenArgs : Same frame rename p q (AbiInfo.addHiddenArgs id) := by
  refine bind (call twins id).lift fun now now' asked twins₁ _ both => ?_
  obtain ⟨_, rfl⟩ := Edit.call_ok (lift_edit_ok_iff.mp asked)
  have sameFlags : now'.flags = now.flags := by rw [both.rest]
  have sameStub : now'.stubCell = now.stubCell := by rw [both.rest]
  have sameCell : now'.r2rCell = now.r2rCell := by rw [both.rest]
  rw [sameFlags, sameStub, sameCell]
  refine next (routeThroughHelper twins₁ id).lift fun _ routed twins₂ _ => ?_
  obtain ⟨_, visited₂, passage, unplaced₂, _⟩ :=
    routeThroughHelper_passage unplaced (lift_edit_ok_iff.mp routed)
  have live₂ : ∀ node ∈ visited₂, frame.Live node := fun node mem =>
    (passage.carries.new node mem).elim (live node) twins₁.live_new
  refine optional now.flags.wrapperDelegate twins₂ (addWrapperCell twins₂ unplaced₂.holds live₂)
    fun twins₃ => ?_
  refine optional (now.flags.virtualStub && !now.flags.r2r) twins₃ (addCell twins₃ id) fun twins₄ => ?_
  cases now.flags.r2r with
  | true => exact addCell twins₄ id
  | false => exact done twins₄ rfl

theorem finalize (settings : Settings) : Same frame rename p q (AbiInfo.finalize settings id) := by
  refine bind (call twins id).lift fun now now' asked twins₁ _ both => ?_
  obtain ⟨_, rfl⟩ := Edit.call_ok (lift_edit_ok_iff.mp asked)
  have sameFlags : now'.flags = now.flags := by rw [both.rest]
  rw [both.list.stage, sameFlags]
  by_cases isFinal : now.args.stage.isFinalized = true
  · rw [if_pos isFinal]
    exact done twins₁ rfl
  · rw [if_neg isFinal]
    exact next (addHiddenArgs twins₁ unplaced live) fun _ _ twins₂ _ =>
      next (granted twins₂) fun _ _ twins₃ _ => placeArgs twins₃ settings id

end Unplaced

end Both

end CallLowering
