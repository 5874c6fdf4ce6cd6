import CallLowering.Proofs.TwinScheduling

/-!
Settling twins. A pinned argument goes to temps of its own on both sides. One that is not pinned keeps
its nodes or moves to the late list, and nothing depends on when it does so.
-/

namespace CallLowering

open List

variable {arg arg' : Argument} {data : Call} {id : CallId} {order order' indices : List Nat}

namespace Materialize

def settle (arg : Argument) : Argument :=
  match arg.late, arg.early with
  | none, some value =>
    if arg.placement.hasReg || arg.flags.needsPlace then { arg with early := none, late := some value } else arg
  | _, _ => arg

theorem settle_settle (arg : Argument) : settle (settle arg) = settle arg := by
  unfold settle
  cases hasLate : arg.late with
  | some late => simp only [hasLate]
  | none =>
    cases hasEarly : arg.early with
    | none => simp only [hasLate, hasEarly]
    | some value =>
      by_cases moves : (arg.placement.hasReg || arg.flags.needsPlace) = true
      · simp only [if_pos moves]
      · simp only [if_neg moves, hasLate, hasEarly]

theorem settle_unpinned (unpinned : arg.flags.needsTemp = false) (present : arg.value.isSome = true) :
    (settle arg).flags.needsTemp = false ∧ (settle arg).value.isSome = true := by
  unfold settle
  cases hasLate : arg.late with
  | some late => exact ⟨unpinned, present⟩
  | none =>
    cases hasEarly : arg.early with
    | none => exact ⟨unpinned, present⟩
    | some value =>
      by_cases moves : (arg.placement.hasReg || arg.flags.needsPlace) = true
      · simp only [if_pos moves]
        exact ⟨unpinned, rfl⟩
      · simp only [if_neg moves]
        exact ⟨unpinned, present⟩

def settleAll (indices : List Nat) (args : List Argument) : List Argument :=
  indices.foldl (fun args index => args.modify index settle) args

theorem settleAll_at (indices : List Nat) (args : List Argument) (index : Nat) :
    (settleAll indices args)[index]? = if index ∈ indices then args[index]?.map settle else args[index]? := by
  unfold settleAll
  induction indices generalizing args with
  | nil => simp
  | cons first rest ih =>
    rw [foldl_cons, ih, getElem?_modify]
    by_cases here : first = index
    · subst here
      have again : ∀ arg : Option Argument, (arg.map settle).map settle = arg.map settle := by
        intro arg
        cases arg with
        | none => rfl
        | some arg => exact congrArg some (settle_settle arg)
      simp only [if_true, mem_cons, true_or, Option.map_eq_map, again, ite_self]
    · have elsewhere : index ∈ first :: rest ↔ index ∈ rest := by
        simp only [mem_cons, Ne.symm here, false_or]
      simp only [if_neg here, elsewhere, Option.map_eq_map, Option.map_id']

theorem settleAll_perm {indices' : List Nat} (perm : indices'.Perm indices) (args : List Argument) :
    settleAll indices' args = settleAll indices args := by
  apply ext_getElem?
  intro index
  rw [settleAll_at, settleAll_at]
  simp only [perm.mem_iff]

theorem settleAll_masked (indices : List Nat) (args : List Argument) :
    (settleAll indices args).map Argument.masked = settleAll indices (args.map Argument.masked) := by
  have commutes : ∀ arg : Argument, (settle arg).masked = settle arg.masked := by
    intro arg
    unfold settle
    rw [show arg.masked.late = arg.late from rfl, show arg.masked.early = arg.early from rfl,
      show arg.masked.placement = arg.placement from rfl, show arg.masked.flags = arg.flags from rfl]
    cases arg.late with
    | some late => rfl
    | none =>
      cases arg.early with
      | none => rfl
      | some value =>
        by_cases moves : (arg.placement.hasReg || arg.flags.needsPlace) = true
        · simp only [if_pos moves]
          rfl
        · simp only [if_neg moves]
  apply ext_getElem?
  intro index
  rw [getElem?_map, settleAll_at, settleAll_at, getElem?_map]
  by_cases mem : index ∈ indices
  · rw [if_pos mem, if_pos mem]
    cases args[index]? with
    | none => rfl
    | some arg => exact congrArg some (commutes arg)
  · rw [if_neg mem, if_neg mem]

section Unpinned

variable {id : CallId} {data : Call} {p : Procedure}

theorem materializeArg_unpinned (settings : Settings) (retbufAsLocal : Bool) {index : Nat}
    (here : p.calls[id]? = some data) (atIndex : data.args.args[index]? = some arg)
    (unpinned : arg.flags.needsTemp = false) (present : arg.value.isSome = true) :
    materializeArg settings id retbufAsLocal index p
      = .ok (settle arg).late.isSome (p.setCall id (data.withArgs (data.args.args.modify index settle))) := by
  have kept : settle arg = arg → p.setCall id (data.withArgs (data.args.args.modify index settle)) = p :=
    Edit.setCall_kept here atIndex
  unfold materializeArg
  rw [bind_of_ok (lift_edit_ok_iff.mpr (Edit.arg_answers here atIndex))]
  cases hasLate : arg.late with
  | some late =>
    have same : settle arg = arg := by simp only [settle, hasLate]
    rw [kept same, same, hasLate]
    rfl
  | none =>
    cases hasEarly : arg.early with
    | none =>
      rw [Argument.value, hasLate, hasEarly] at present
      cases present
    | some value =>
      simp only [Option.isSome_none, Bool.false_eq_true, if_false, unpinned]
      by_cases moves : (arg.placement.hasReg || arg.flags.needsPlace) = true
      · have moved : settle arg = { arg with early := none, late := some value } := by
          simp only [settle, hasLate, hasEarly, if_pos moves]
        have sameStep : data.args.args.modify index settle
            = data.args.args.modify index fun arg => { arg with early := none, late := some value } := by
          rw [modify_eq_set _ atIndex, modify_eq_set _ atIndex, moved]
        simp only [if_pos moves]
        rw [bind_of_ok (lift_edit_ok_iff.mpr (Edit.modifyArg_runs here atIndex _)), sameStep, moved]
        rfl
      · have same : settle arg = arg := by simp only [settle, hasLate, hasEarly, if_neg moves]
        rw [kept same, same, hasLate]
        simp only [if_neg moves]
        rfl

theorem materializeArgs_unpinned (settings : Settings) (retbufAsLocal : Bool) (here : p.calls[id]? = some data)
    (each : ∀ index ∈ indices, ∃ arg, data.args.args[index]? = some arg ∧ arg.flags.needsTemp = false
      ∧ arg.value.isSome = true) :
    materializeArgs settings id retbufAsLocal indices p
      = .ok (indices.filter (hasLate (settleAll indices data.args.args)))
        (p.setCall id (data.withArgs (settleAll indices data.args.args))) := by
  induction indices generalizing p data with
  | nil =>
    rw [show data.withArgs (settleAll [] data.args.args) = data from rfl, p.setCall_self here]
    rfl
  | cons index rest ih =>
    obtain ⟨first, later⟩ := forall_mem_cons.mp each
    obtain ⟨arg, atIndex, unpinned, present⟩ := first
    have here₁ : (p.setCall id (data.withArgs (data.args.args.modify index settle))).calls[id]?
        = some (data.withArgs (data.args.args.modify index settle)) := p.setCall_here _ here
    have rest₁ := ih here₁ fun other mem => by
      obtain ⟨old, atOld, unpinned, present⟩ := later other mem
      by_cases same : index = other
      · subst same
        cases atIndex.symm.trans atOld
        refine ⟨settle arg, ?_, settle_unpinned unpinned present⟩
        change (data.args.args.modify index settle)[index]? = _
        simp [atIndex]
      · refine ⟨old, ?_, unpinned, present⟩
        change (data.args.args.modify index settle)[other]? = _
        simp [same, atOld]
    rw [p.setCall_setCall] at rest₁
    have isLate : hasLate (settleAll (index :: rest) data.args.args) index = (settle arg).late.isSome := by
      rw [hasLate, settleAll_at, if_pos mem_cons_self, atIndex]
      rfl
    unfold materializeArgs
    rw [bind_of_ok (materializeArg_unpinned settings retbufAsLocal here atIndex unpinned present),
      bind_of_ok rest₁, filter_cons, isLate]
    rfl

end Unpinned

theorem materialize_atLevel (settings : Settings) (level : OptLevel) (id : CallId) (order : List Nat) :
    materialize (settings.atLevel level) id order = materialize settings id order := by
  have sameArgs : ∀ (retbufAsLocal : Bool) (indices : List Nat),
      materializeArgs (settings.atLevel level) id retbufAsLocal indices
        = materializeArgs settings id retbufAsLocal indices := by
    intro retbufAsLocal indices
    induction indices with
    | nil => rfl
    | cons index rest ih =>
      rw [materializeArgs, materializeArgs, ih]
      rfl
  simp only [materialize, sameArgs]

theorem materializeArgs_append (settings : Settings) (id : CallId) (retbufAsLocal : Bool)
    (first second : List Nat) :
    materializeArgs settings id retbufAsLocal (first ++ second) = (do
      let before ← materializeArgs settings id retbufAsLocal first
      let after ← materializeArgs settings id retbufAsLocal second
      pure (before ++ after)) := by
  induction first with
  | nil => simp only [nil_append, materializeArgs, pure_bind, bind_pure]
  | cons index rest ih =>
    simp only [cons_append, materializeArgs, ih, bind_assoc, pure_bind]
    congr 1
    funext isLate
    cases isLate <;> rfl

theorem hasLate_masked {args args' : List Argument}
    (same : args'.map Argument.masked = args.map Argument.masked) (index : Nat) :
    hasLate args' index = hasLate args index := by
  have blind : ∀ args : List Argument, hasLate args index = hasLate (args.map Argument.masked) index := by
    intro args
    rw [hasLate, hasLate, getElem?_map]
    cases args[index]? <;> rfl
  rw [blind, same, ← blind]

end Materialize

-- Field lists are the same on both sides, since they access no local themselves.
theorem Twins.fieldValue {frame : Frame} {rename : LocalId → LocalId} {p q : Procedure}
    (twins : Twins frame rename p q) (value : NodeId) :
    Materialize.fieldValue? q value = Materialize.fieldValue? p value := by
  rcases twins.lookup value with ⟨node, kind, here, there, mirrors⟩ | ⟨fault, here, there⟩
  · simp only [Materialize.fieldValue?, here, there, bind, Except.bind]
    generalize node.kind = own at mirrors
    cases mirrors with
    | same _ =>
      cases kind with
      | comma first second =>
        rcases twins.lookup second with ⟨node, kind, here, there, mirrors⟩ | ⟨fault, here, there⟩
        · simp only [here, there]
          generalize node.kind = own at mirrors
          cases mirrors <;> rfl
        · simp only [here, there]
      | _ => rfl
    | _ => rfl
  · simp only [Materialize.fieldValue?, here, there]
    rfl

theorem ArgList.Twins.markMaterialized {list other : ArgList} (twins : list.Twins other)
    {late late' : List Nat} (perm : late'.Perm late) :
    (∃ after after', list.markMaterialized late = .ok after ∧ other.markMaterialized late' = .ok after'
      ∧ after.Twins after')
      ∨ ∃ fault fault', list.markMaterialized late = .error fault
        ∧ other.markMaterialized late' = .error fault' := by
  unfold ArgList.markMaterialized
  rw [twins.stage]
  by_cases completed : list.stage = .completed
  · rw [if_pos completed, if_pos completed]
    exact .inl ⟨_, _, rfl, rfl, { twins with stage := rfl, order := perm }⟩
  · rw [if_neg completed, if_neg completed]
    exact .inr ⟨_, _, rfl, rfl⟩

namespace Both

open Materialize

variable {frame : Frame} {rename : LocalId → LocalId} {p q : Procedure}

variable (twins : Twins frame rename p q)

include twins

theorem fieldToTemp (field : FieldUse) : Same frame rename p q (Materialize.fieldToTemp field) := by
  refine bind (addLocal twins) fun temp temp' _ twins₁ _ matched => ?_
  refine next (addStore twins₁ matched .void field.node) fun store _ twins₂ later₂ => ?_
  refine next (addRead twins₂ (matched.later later₂) _) fun read _ twins₃ _ => ?_
  exact done twins₃ rfl

theorem sequence {nodes : List NodeId} : Same frame rename p q (Materialize.sequence nodes) := by
  induction nodes with
  | nil => exact addPlain twins .void rfl
  | cons first rest ih =>
    cases rest with
    | nil => exact done twins rfl
    | cons => exact next ih fun chain _ twins _ => addPlain twins .void rfl

theorem fieldsToTemps (value : FieldValue) : Same frame rename p q (Materialize.fieldsToTemps value) := by
  refine next (mapM (fun _ _ => True) (fun _ _ _ _ _ _ _ _ _ _ => trivial)
    (fun field _ _ _ _ _ twins => fieldToTemp twins field) trivial twins) fun fields _ twins₁ _ => ?_
  refine next (replaceNode twins₁ value.list .void rfl) fun _ _ twins₂ _ => ?_
  exact sequence twins₂

variable (settings : Settings)

theorem readTemp (masked : arg'.masked = arg.masked) {temp temp' : LocalId}
    (matched : Matched frame.toEra rename p temp temp') {ty : ValueType} :
    Both frame rename p q (Materialize.readTemp settings arg temp ty)
      (Materialize.readTemp settings arg' temp' ty) fun _ _ a b => b = a := by
  unfold Materialize.readTemp
  rw [Argument.masked_read masked Argument.ty fun _ => rfl,
    Argument.masked_read masked Argument.placement fun _ => rfl]
  refine next (ask twins rfl) fun layout _ twins₁ later₁ => ?_
  cases layout with
  | none => exact addRead twins₁ (matched.later later₁) ty
  | some layout =>
    cases arg.placement.isMulti with
    | false => exact addRead twins₁ (matched.later later₁) ty
    | true =>
      refine next (ask twins₁ rfl) fun pieces _ twins₂ later₂ => ?_
      exact localFields twins₂ (matched.later (later₁.trans later₂)) 0 pieces

theorem toTemps (id : CallId) (index : Nat) (masked : arg'.masked = arg.masked) (value : NodeId) :
    Both frame rename p q (Materialize.toTemps settings id index arg value)
      (Materialize.toTemps settings id index arg' value) fun _ _ a b => b = a := by
  refine next (ask twins (twins.fieldValue value)).lift fun fields _ twins₁ _ => ?_
  cases fields with
  | some fields =>
    refine next (fieldsToTemps twins₁ fields).lift fun early _ twins₂ _ => ?_
    refine (modifyArg twins₂ id index fun _ _ same => ?_).lift
    exact congrArg (fun arg : Argument => { arg with early := some early, late := some fields.list }) same
  | none =>
    refine bind (node twins₁ value).lift fun old old' _ twins₂ _ same => ?_
    rw [same.1, Argument.masked_read masked Argument.ty fun _ => rfl]
    dsimp only
    by_cases isVoid : tempType arg.ty old.ty = .void
    · rw [if_pos isVoid, if_pos isVoid]
      trivial
    · rw [if_neg isVoid, if_neg isVoid]
      refine bind (addLocal twins₂).lift fun temp temp' _ twins₃ _ matched => ?_
      refine next (addStore twins₃ matched .void value).lift fun store _ twins₄ later₄ => ?_
      refine next (readTemp twins₄ settings masked (matched.later later₄)).lift fun read _ twins₅ _ => ?_
      exact (setCopy twins₅ id index temp temp' store read).lift

theorem materializeArg (id : CallId) (retbufAsLocal : Bool) (index : Nat) :
    Same frame rename p q (Materialize.materializeArg settings id retbufAsLocal index) := by
  refine bind (arg twins id index).lift ?_
  intro rename₁ p₁ q₁ data data' _ twins₁ _ masked
  rw [Argument.masked_read masked Argument.late fun _ => rfl, Argument.masked_read masked Argument.early fun _ => rfl,
    Argument.masked_read masked Argument.flags fun _ => rfl, Argument.masked_read masked Argument.role fun _ => rfl,
    Argument.masked_read masked Argument.placement fun _ => rfl]
  by_cases isLate : data.late.isSome = true
  · simp only [if_pos isLate]
    exact done twins₁ rfl
  · simp only [if_neg isLate]
    cases data.early with
    | none => trivial
    | some value =>
      by_cases pinned : data.flags.needsTemp = true
      · simp only [if_pos pinned]
        have stored : Both frame rename₁ p₁ q₁
            (do Materialize.toTemps settings id index data value; pure true : Attempt Bool)
            (do Materialize.toTemps settings id index data' value; pure true : Attempt Bool)
            fun _ _ a b => b = a :=
          bind (toTemps twins₁ settings id index masked value) fun _ _ _ twins₂ _ _ => done twins₂ rfl
        by_cases forbidden : (decide (data.role = .returnBuffer) && retbufAsLocal) = true
        · simp only [if_pos forbidden]
          trivial
        · simp only [if_neg forbidden]
          exact stored
      · simp only [if_neg pinned]
        by_cases moves : (data.placement.hasReg || data.flags.needsPlace) = true
        · simp only [if_pos moves]
          refine bind (modifyArg twins₁ id index fun _ _ same => ?_).lift
            fun _ _ _ twins₂ _ _ => done twins₂ rfl
          exact congrArg (fun arg : Argument => { arg with early := none, late := some value }) same
        · simp only [if_neg moves]
          exact done twins₁ rfl

theorem materializeArgs (id : CallId) (retbufAsLocal : Bool) (order : List Nat) :
    Same frame rename p q (Materialize.materializeArgs settings id retbufAsLocal order) := by
  induction order generalizing rename p q with
  | nil => exact done twins rfl
  | cons index rest ih =>
    refine next (materializeArg twins settings id retbufAsLocal index) fun isLate _ twins₁ _ => ?_
    refine next (ih twins₁) fun later _ twins₂ _ => ?_
    exact done twins₂ rfl

theorem unpinnedArgs (retbufAsLocal : Bool) (perm : order'.Perm order) (here : p.calls[id]? = some data)
    (each : ∀ index ∈ order, ∃ arg, data.args.args[index]? = some arg ∧ arg.flags.needsTemp = false
      ∧ arg.value.isSome = true) :
    Both frame rename p q (Materialize.materializeArgs settings id retbufAsLocal order)
      (Materialize.materializeArgs settings id retbufAsLocal order') fun _ _ a b => b.Perm a := by
  obtain ⟨data', there, both⟩ := twins.call id data here
  have each' : ∀ index ∈ order', ∃ arg, data'.args.args[index]? = some arg ∧ arg.flags.needsTemp = false
      ∧ arg.value.isSome = true := by
    intro index mem
    obtain ⟨arg, atIndex, unpinned, present⟩ := each index (perm.mem_iff.mp mem)
    obtain ⟨arg', atIndex', masked⟩ := both.list.arg atIndex
    refine ⟨arg', atIndex', ?_, ?_⟩
    · rw [Argument.masked_read masked Argument.flags fun _ => rfl, unpinned]
    · rw [Argument.masked_read masked Argument.value fun _ => rfl, present]
  have same : (settleAll order' data'.args.args).map Argument.masked
      = (settleAll order data.args.args).map Argument.masked := by
    rw [settleAll_masked, settleAll_masked, both.list.args, settleAll_perm perm]
  unfold Both
  rw [materializeArgs_unpinned settings retbufAsLocal here each,
    materializeArgs_unpinned settings retbufAsLocal there each']
  refine ⟨rename, twins.setCall id (both.withList (both.list.withArgs same)),
    ⟨Nat.le_refl _, fun _ _ => rfl⟩, ?_⟩
  rw [funext (hasLate_masked same)]
  exact perm.filter _

theorem reorderedArgs (retbufAsLocal : Bool) (here : p.calls[id]? = some data)
    (orders : Schedule.Orders data.args.args order order') :
    Both frame rename p q (Materialize.materializeArgs settings id retbufAsLocal order)
      (Materialize.materializeArgs settings id retbufAsLocal order') fun _ _ a b => b.Perm a := by
  obtain ⟨once, head, middle, middle', tail, rfl, rfl, perm, each⟩ := orders
  obtain ⟨once, _, _⟩ := nodup_append.mp once
  obtain ⟨headOnce, _, apart⟩ := nodup_append.mp once
  simp only [materializeArgs_append, bind_assoc, pure_bind]
  refine next (materializeArgs twins settings id retbufAsLocal head) fun {_ p₁ _} before ran twins₁ _ => ?_
  -- What comes before the middle leaves its arguments alone.
  obtain ⟨args, run⟩ := materializeArgs_slots headOnce here ran
  refine bind (unpinnedArgs twins₁ settings retbufAsLocal perm run.here fun index mem => ?_) ?_
  · obtain ⟨arg, atIndex, unpinned⟩ := each index mem
    exact ⟨arg, (run.untouched index fun inHead => apart index inHead index mem rfl).trans atIndex, unpinned⟩
  intro rename₂ p₂ q₂ between between' _ twins₂ _ permuted
  refine next (materializeArgs twins₂ settings id retbufAsLocal tail) fun after _ twins₃ _ => ?_
  exact done twins₃ ((permuted.append_left before).append_right after)

theorem materialize (here : p.calls[id]? = some data) (orders : Schedule.Orders data.args.args order order') :
    Both frame rename p q (Materialize.materialize settings id order)
      (Materialize.materialize settings id order') fun _ _ a b => b = a := by
  refine bind (call twins id).lift fun now now' asked twins₁ _ both => ?_
  obtain ⟨atCall, rfl⟩ := Edit.call_ok (lift_edit_ok_iff.mp asked)
  cases here.symm.trans atCall
  have sameFlags : now'.flags = data.flags := by rw [both.rest]
  rw [both.list.stage, sameFlags]
  by_cases wrong : data.args.stage ≠ .completed
  · rw [if_pos wrong, if_pos wrong]
    trivial
  · rw [if_neg wrong, if_neg wrong]
    refine bind (reorderedArgs twins₁ settings data.flags.retbufAsLocal here orders)
      fun late late' _ twins₂ _ perm => ?_
    exact (modifyArgs twins₂ fun _ _ _ both => both.list.markMaterialized perm).lift

end Both

end CallLowering
