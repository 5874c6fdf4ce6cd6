import CallLowering.Proofs.DressedCalls

/-!
Taking a finalization back. A reset finds the call as it was before its hidden arguments, and from
there a finalization ends as it did before.
-/

namespace CallLowering

open List

variable {data base other : Call} {p q r : Procedure} {settings : Settings} {role : ArgRole} {id : CallId}
  {index : Nat} {value : NodeId} {call : CallId}

namespace Call

def supplied (data : Call) (role : ArgRole) : Option NodeId :=
  ((data.args.args.map fun arg => (arg.role, arg.value)).find? fun given => given.1 == role).bind Prod.snd

theorem supplied_eq (data : Call) (role : ArgRole) :
    ((data.args.findRole role).bind fun index => data.args.args[index]?.bind Argument.value)
      = data.supplied role := by
  rw [supplied, find?_map, Option.bind_map]
  change _ = (data.args.args.find? fun arg => arg.role == role).bind Argument.value
  rw [find?_eq_bind_findIdx?_getElem?, Option.bind_assoc]
  rfl

def bare (data : Call) : Call := data.withArgs (data.args.args.map Argument.bare)

theorem bare_afterThis (data : Call) : data.bare.args.afterThis = data.args.afterThis := by
  simp only [ArgList.afterThis, ArgList.thisIndex, ArgList.findRole_eq, bare, withArgs, map_map]
  rfl

theorem dress_bare {cells cells' : List (ArgRole × NodeId)} (same : other.bare = data.bare)
    (roles : cells'.map Prod.fst = cells.map Prod.fst) : (other.dress cells').bare = (data.dress cells).bare := by
  have hidden : ∀ (test : ArgRole → Bool) (cells : List (ArgRole × NodeId)),
      ((cells.filter fun cell => test cell.1).map Argument.ofCell).map Argument.bare
        = ((cells.map Prod.fst).filter test).map fun role => (Argument.ofCell (role, 0)).bare := by
    intro test cells
    rw [filter_map, map_map, map_map]
    rfl
  have inner := hidden (· == .wrapperCell)
  have outer := hidden (· != .wrapperCell)
  have canonical : ∀ (data : Call) (cells : List (ArgRole × NodeId)), (data.dress cells).bare
      = data.bare.routed.withArgs (data.bare.args.args.take data.bare.args.afterThis
        ++ ((cells.map Prod.fst).filter (· == .wrapperCell)).map (fun role => (Argument.ofCell (role, 0)).bare)
        ++ data.bare.args.args.drop data.bare.args.afterThis
        ++ ((data.bare.routing.map Argument.ofCell).map Argument.bare
          ++ ((cells.map Prod.fst).filter (· != .wrapperCell)).map
            fun role => (Argument.ofCell (role, 0)).bare)) := by
    intro data cells
    have sameRouted : data.bare.routed = data.routed.withArgs (data.args.args.map Argument.bare) :=
      data.routed_withArgs
    rw [← inner, ← outer, bare_afterThis, sameRouted]
    simp only [bare, dress, withArgs, map_append, map_take, map_drop]
    rfl
  rw [canonical, canonical, same, roles]

theorem placed_bare {args args' : List Argument} {stackSize : Nat} (same : other.bare = data.bare)
    (sameArgs : args'.map Argument.bare = args.map Argument.bare) :
    (other.placed args' stackSize).bare = (data.placed args stackSize).bare := by
  have any : ∀ (test : Placement → Bool) (args : List Argument), (args.any fun arg => test arg.placement)
      = (args.map Argument.bare).any fun arg => test arg.placement := by
    intro test args
    rw [any_map]
    rfl
  have canonical : ∀ (data : Call) (args : List Argument), (data.placed args stackSize).bare
      = data.bare.placed (args.map Argument.bare) stackSize := by
    intro data args
    simp only [bare, placed, withArgs, ← any]
  rw [canonical, canonical, same, sameArgs]

theorem Handed.bare {wrapped : Prop} (handed : data.Handed wrapped p q base) : base.bare = data.bare := by
  have same := congrArg (fun data : Call => data.withArgs (base.args.args.map Argument.bare)) handed.rest
  rw [Call.bare, Call.bare, ← handed.map Argument.bare fun _ _ => rfl]
  exact same

-- What becomes of a call that is finalized and reset time and again. The this-pointer of a wrapper
-- delegate is spilled each time unless it is simple, and a spilled one is not.
inductive Respilled (data : Call) (p q : Procedure) : Call → Prop where
  | same : data.Respilled p q data
  | spilled {value last : NodeId} (isWrapped : data.flags.wrapperDelegate = true)
      (isThis : data.thisValue = some value) (complex : ¬ p.Simple value)
      (spills : Relation.TransGen (fun old new => ∃ temp, p.locals.size ≤ temp ∧ q.Spills temp old new)
        value last) : data.Respilled p q (data.withThis last)

theorem Respilled.later (respilled : data.Respilled p q base) (grown : Reworks call q r) :
    data.Respilled p r base := by
  cases respilled with
  | same => exact .same
  | spilled isWrapped isThis complex spills =>
    refine .spilled isWrapped isThis complex (Relation.TransGen.mono ?_ _ _ spills)
    rintro old new ⟨temp, fresh, spill⟩
    exact ⟨temp, fresh, spill.later grown⟩

theorem Respilled.step {next : Call} (respilled : data.Respilled p q base)
    (before : Reworks call p q) (grown : Reworks call q r)
    (handed : base.Handed (base.flags.wrapperDelegate = true) q r next) : data.Respilled p r next := by
  cases handed with
  | same => exact respilled.later grown
  | spilled isWrapped isThis complex fresh spill =>
    have newTemp := Nat.le_trans before.locals_le fresh
    cases respilled.later grown with
    | same =>
      exact .spilled isWrapped isThis (fun simple => complex (simple.later (before.trans grown)))
        (.single ⟨_, newTemp, spill⟩)
    | spilled isWrapped wasThis wasComplex spills =>
      rw [data.withThis_thisValue _ wasThis] at isThis
      cases isThis
      rw [withThis_withThis]
      exact .spilled isWrapped wasThis wasComplex (spills.tail ⟨_, newTemp, spill⟩)

theorem Blank.list_eq (blank : data.Blank) : data.args = { args := data.args.args } := by
  obtain ⟨unfinalized, _, stackSize, hasRegArgs, hasStackArgs, lateOrder⟩ := blank
  generalize data.args = list at *
  obtain ⟨args, order, stage, hasReg, hasStack, size⟩ := list
  cases unfinalized
  cases stackSize
  cases hasRegArgs
  cases hasStackArgs
  cases lateOrder
  rfl

end Call

namespace AbiInfo

theorem restoreIndirect_supplied {cookie target : NodeId} (isHelper : data.target = .pinvokeHelper)
    (hasCookie : data.supplied .pinvokeCookie = some cookie)
    (hasTarget : data.supplied .pinvokeTarget = some target) :
    restoreIndirect data = { data with target := .indirect target, cookie := some cookie } := by
  rw [← Call.supplied_eq] at hasCookie hasTarget
  unfold restoreIndirect
  simp only [isHelper, Option.bind_eq_bind, hasCookie, hasTarget]

theorem restoreIndirect_unsupplied (noCookie : data.supplied .pinvokeCookie = none) :
    restoreIndirect data = data := by
  rw [← Call.supplied_eq] at noCookie
  unfold restoreIndirect
  simp only [Option.bind_eq_bind, noCookie]
  split
  · rename_i found _
    cases found
  · rfl

variable {base : Call} {cells : List (ArgRole × NodeId)}

theorem supplied_dress (plain : base.Plain) (added : role.isAdded = true) (absent : ∀ cell ∈ cells, cell.1 ≠ role) :
    (base.dress cells).supplied role = (base.routing.find? fun cell => cell.1 == role).map Prod.snd := by
  have own : ∀ args : List Argument, (∀ arg ∈ args, arg ∈ base.args.args) →
      (args.map fun arg => (arg.role, arg.value)).find? (fun given => given.1 == role) = none := by
    intro args among
    refine find?_eq_none.mpr fun given mem => ?_
    obtain ⟨arg, there, rfl⟩ := mem_map.mp mem
    have other : arg.role ≠ role := fun same => by
      cases (plain.own arg (among arg there)).2.symm.trans (same ▸ added)
    simpa using other
  have others : ∀ cells' : List (ArgRole × NodeId), (∀ cell ∈ cells', cell ∈ cells) →
      ((cells'.map Argument.ofCell).map fun arg => (arg.role, arg.value)).find? (fun given => given.1 == role)
        = none := by
    intro cells' among
    refine find?_eq_none.mpr fun given mem => ?_
    obtain ⟨arg, there, rfl⟩ := mem_map.mp mem
    obtain ⟨cell, isCell, rfl⟩ := mem_map.mp there
    simpa [Argument.ofCell, Argument.hidden] using absent cell (among cell isCell)
  simp only [Call.supplied, Call.dress, Call.withArgs, map_append, find?_append,
    own _ fun _ => mem_of_mem_take, own _ fun _ => mem_of_mem_drop,
    others _ fun _ mem => (mem_filter.mp mem).1, Option.none_or, Option.or_none]
  rw [map_map, find?_map, Option.bind_map, Option.map_eq_bind]
  rfl

theorem restoreIndirect_dressed (now : Call) (plain : base.Plain)
    (roles : ∀ cell ∈ cells, cell.1 ∈ base.cellRoles)
    (target : now.target = (base.dress cells).target) (cookie : now.cookie = (base.dress cells).cookie)
    (values : now.args.args.map (fun arg => (arg.role, arg.value))
      = (base.dress cells).args.args.map fun arg => (arg.role, arg.value)) :
    restoreIndirect now = { now with target := base.target, cookie := base.cookie } := by
  have absent : ∀ role, role ∉ base.cellRoles → ∀ cell ∈ cells, cell.1 ≠ role :=
    fun role outside cell mem same => outside (same ▸ roles cell mem)
  have noCookie : ArgRole.pinvokeCookie ∉ base.cellRoles := by simp [Call.cellRoles]
  have noTarget : ArgRole.pinvokeTarget ∉ base.cellRoles := by simp [Call.cellRoles]
  have supplied : ∀ role : ArgRole, now.supplied role = (base.dress cells).supplied role := fun role => by
    rw [Call.supplied, values]
    rfl
  have hasCookie := (supplied _).trans (supplied_dress plain rfl (absent _ noCookie))
  have hasTarget := (supplied _).trans (supplied_dress plain rfl (absent _ noTarget))
  by_cases direct : base.routing = []
  · rw [direct] at hasCookie
    have sameTarget : now.target = base.target := by rw [target, Call.dress, Call.routed, if_pos direct]; rfl
    have sameCookie : now.cookie = base.cookie := by rw [cookie, Call.dress, Call.routed, if_pos direct]; rfl
    rw [restoreIndirect_unsupplied hasCookie, ← sameTarget, ← sameCookie]
  · have isHelper : now.target = .pinvokeHelper := by rw [target, Call.dress, Call.routed, if_neg direct]; rfl
    cases isTarget : base.target with
    | indirect node =>
      cases isCookie : base.cookie with
      | some value =>
        have routing : base.routing = [(.pinvokeCookie, value), (.pinvokeTarget, node)] := by
          simp only [Call.routing, isTarget, isCookie]
        rw [routing] at hasCookie hasTarget
        exact restoreIndirect_supplied isHelper hasCookie hasTarget
      | none => simp [Call.routing, isTarget, isCookie] at direct
    | _ => simp [Call.routing, isTarget] at direct

section Runs

variable {ε σ α β : Type}

def Runs (x : EStateM ε σ α) (s : σ) : Prop := ∃ a t, x s = .ok a t

theorem Runs.bind {x : EStateM ε σ β} {f : β → EStateM ε σ α} {s t : σ} {b : β} (first : x s = .ok b t)
    (rest : Runs (f b) t) : Runs (x >>= f) s := by
  obtain ⟨a, u, last⟩ := rest
  exact ⟨a, u, bind_ok_iff.mpr ⟨b, t, first, last⟩⟩

theorem Runs.edit {step : Edit α} (runs : Runs step p) : Runs (liftM step : Attempt α) p := by
  obtain ⟨a, q, done⟩ := runs
  exact ⟨a, q, lift_edit_ok_iff.mpr done⟩

theorem Runs.bindEdit {step : Edit β} {f : β → Attempt α} {b : β} (first : step p = .ok b q)
    (rest : Runs (f b) q) : Runs ((liftM step : Attempt β) >>= f) p :=
  .bind (lift_edit_ok_iff.mpr first) rest

theorem Runs.optional {condition : Prop} [Decidable condition] {step : EStateM ε σ PUnit}
    {after : EStateM ε σ α} {s : σ} (taken : condition → Runs step s)
    (rest : ∀ t, (if condition then step s = .ok ⟨⟩ t else t = s) → Runs after t) :
    Runs (if condition then step >>= fun _ => after else after) s := by
  by_cases holds : condition
  · obtain ⟨_, t, stepped⟩ := taken holds
    rw [if_pos holds]
    exact .bind stepped (rest t (by rw [if_pos holds]; exact stepped))
  · rw [if_neg holds]
    exact rest s (by rw [if_neg holds])

end Runs

section Running

open Edit

variable {id : CallId} {p q r : Procedure} {data : Call} {arg : Argument} {offset : Nat} {node : Node}

section Run

variable (here : p.calls[id]? = some data)

include here

theorem reset_runs {args : ArgList} (resets : data.args.reset = .ok args) :
    reset id p = .ok () (p.setCall id { restoreIndirect data with args }) := by
  have open_ : data.args.stage.isCompleted = false := by
    unfold ArgList.reset at resets
    split at resets
    · rename_i stage
      rw [stage]
      rfl
    · rename_i stage
      rw [stage]
      rfl
    · cases resets
    · cases resets
  have sameArgs : (restoreIndirect data).args = data.args := by
    unfold restoreIndirect
    dsimp only
    split <;> rfl
  have set := p.setCall_here (restoreIndirect data) here
  refine bind_ok_iff.mpr ⟨data, p, lift_edit_ok_iff.mpr (call_answers here), ?_⟩
  rw [open_]
  refine bind_ok_iff.mpr ⟨(), _, lift_edit_ok_iff.mpr (modifyCall_runs here), ?_⟩
  refine lift_edit_ok_iff.mpr ?_
  rw [modifyArgs_runs set (sameArgs ▸ resets), Procedure.setCall_setCall]

theorem routeThroughHelper_runs : Runs (routeThroughHelper id) p := by
  refine .bind (call_answers here) ?_
  cases isTarget : data.target with
  | indirect target =>
    cases isCookie : data.cookie with
    | some cookie =>
      refine .bind (modifyCall_runs here) (.bind (modifyCall_runs (p.setCall_here _ here)) ?_)
      exact ⟨_, _, modifyCall_runs (Procedure.setCall_here _ _ (p.setCall_here _ here))⟩
    | none => exact ⟨(), p, rfl⟩
  | _ => exact ⟨(), p, rfl⟩

theorem addCell_runs {missing : Inconsistency} {cell : Option Int64}
    (given : cell.isSome = true) : Runs (addCell id role missing cell) p := by
  obtain ⟨addr, rfl⟩ := Option.isSome_iff_exists.mp given
  obtain ⟨value, m, made⟩ := addNode_known (.intConst addr) .ptr rfl (by simp [NodeKind.children])
    (by simp [NodeKind.mentionsLocal?, NodeKind.storesLocal?])
  have atM : m.calls[id]? = some data := (addNode_adds made).calls ▸ here
  exact .bindEdit made (.edit ⟨_, _, modifyCall_runs atM⟩)

theorem spillThis_runs (ty : ValueType) (atIndex : data.args.args[index]? = some arg)
    (atValue : p.nodes[value]? = some node) : Runs (spillThis id index value ty) p := by
  have made : Edit.addLocal { ty, kind := .argTemp } p
      = .ok p.locals.size { p with locals := p.locals.push { ty, kind := .argTemp } } := rfl
  have start := addLocal_adds made
  generalize temp : p.locals.size = var at made
  generalize after : { p with locals := p.locals.push { ty, kind := .argTemp } } = m at made start
  have atTemp : m.locals[var]? = some { ty, kind := .argTemp } := by
    rw [← after, ← temp]
    exact Array.getElem?_push_size
  obtain ⟨store, m₁, stored⟩ := addNode_known (.storeLocal var value) .void rfl
    (by simpa [NodeKind.children] using ⟨node, start.node atValue⟩)
    (by simpa [NodeKind.mentionsLocal?, NodeKind.storesLocal?] using ⟨_, atTemp⟩)
  have first := addNode_adds stored
  obtain ⟨read, m₂, reads⟩ := addNode_known (.readLocal var) ty rfl (by simp [NodeKind.children])
    (by simpa [NodeKind.mentionsLocal?, NodeKind.storesLocal?] using ⟨_, first.varKept _ _ atTemp⟩)
  have second := addNode_adds reads
  obtain ⟨storeNode, atStore, _⟩ := addNode_here stored
  obtain ⟨readNode, atRead, _⟩ := addNode_here reads
  obtain ⟨spilled, m₃, joined⟩ := addNode_known (.comma store read) ty rfl
    (by simpa [NodeKind.children] using ⟨⟨storeNode, second.node atStore⟩, readNode, atRead⟩)
    (by simp [NodeKind.mentionsLocal?, NodeKind.storesLocal?])
  have third := addNode_adds joined
  have atM₃ : m₃.calls[id]? = some data :=
    (((start.trans first).trans second).trans third).calls ▸ here
  have set := modifyArg_runs atM₃ atIndex fun arg => { arg with early := some spilled }
  have atLast := (modifyArg_extends set).varKept _ _
    (((first.trans second).trans third).varKept _ _ atTemp)
  exact .bind made (.bind stored (.bind reads (.bind joined (.bind set
    (addNode_known (.readLocal var) ty rfl (by simp [NodeKind.children])
      (by simpa [NodeKind.mentionsLocal?, NodeKind.storesLocal?] using ⟨_, atLast⟩))))))

theorem loadCell_runs {base : NodeId} (atBase : p.nodes[base]? = some node) : Runs (loadCell id base offset) p := by
  obtain ⟨amount, m₁, counted⟩ := addNode_known (.intConst (Int64.ofNat offset)) .ptr rfl (by simp [NodeKind.children])
    (by simp [NodeKind.mentionsLocal?, NodeKind.storesLocal?])
  have first := addNode_adds counted
  obtain ⟨amountNode, atAmount, _⟩ := addNode_here counted
  obtain ⟨addr, m₂, added⟩ := addNode_known (.binary .add base amount) .ptr rfl
    (by simpa [NodeKind.children] using ⟨⟨node, first.node atBase⟩, amountNode, atAmount⟩)
    (by simp [NodeKind.mentionsLocal?, NodeKind.storesLocal?])
  have second := addNode_adds added
  obtain ⟨addrNode, atAddr, _⟩ := addNode_here added
  obtain ⟨cell, m₃, loaded⟩ := addNode_known (.load addr false) .ptr rfl
    (by simpa [NodeKind.children] using ⟨addrNode, atAddr⟩)
    (by simp [NodeKind.mentionsLocal?, NodeKind.storesLocal?])
  have atLast : m₃.calls[id]? = some data :=
    ((first.trans second).trans (addNode_adds loaded)).calls ▸ here
  exact .bind counted (.bind added (.bind loaded ⟨_, _, modifyCall_runs atLast⟩))

theorem addWrapperCell_runs {copy : Option NodeId} {m : Procedure} (isThis : data.args.thisIndex = some index)
    (hasOffset : data.wrapperOffset = some offset) (atIndex : data.args.args[index]? = some arg)
    (hasValue : arg.early = some value) (cloned : cloneSimple value p = .ok copy m) : Runs (addWrapperCell id) p := by
  have run := cloneSimple_ok_iff.mp cloned
  have atM : m.calls[id]? = some data := run.adds.calls ▸ here
  obtain ⟨node, atValue⟩ := run.source
  unfold addWrapperCell
  refine .bindEdit (call_answers here) ?_
  simp only [isThis, hasOffset]
  refine .bindEdit (arg_answers here atIndex) ?_
  simp only [hasValue]
  have again : thisAgain id index value p = _ := (bind_of_ok (node_runs atValue)).trans (bind_of_ok cloned)
  cases copy with
  | some base =>
    obtain ⟨copied, atBase⟩ := run.known rfl
    exact .bindEdit again (.edit (loadCell_runs atM atBase))
  | none =>
    have stillValue := run.adds.node atValue
    obtain ⟨base, m', spilled⟩ := spillThis_runs atM node.ty atIndex stillValue
    obtain ⟨_, _, _, _, _, atSpilled⟩ := spillThis_spills atM atIndex stillValue spilled
    obtain ⟨spill⟩ := spillThis_ok spilled
    obtain ⟨copied, atBase, _⟩ := addNode_here spill.again
    exact .bindEdit (again.trans spilled) (.edit (loadCell_runs atSpilled atBase))

theorem addHiddenArgs_runs (provided : ∀ role ∈ data.cellRoles, data.provides role = true)
    (clones : .wrapperCell ∈ data.cellRoles → ∃ value, data.thisValue = some value
      ∧ ∀ r, Reworks id p r → ∃ copy s, cloneSimple value r = .ok copy s) : Runs (addHiddenArgs id) p := by
  obtain ⟨_, routed, routing⟩ := routeThroughHelper_runs here
  have dressed := routeThroughHelper_dressed here routing
  refine .bindEdit (call_answers here) (.bindEdit routing ?_)
  refine .optional (fun isWrapper => ?_) fun _ wrapping => ?_
  · have asked : ArgRole.wrapperCell ∈ data.cellRoles := by simp [Call.cellRoles, isWrapper]
    obtain ⟨value, thisValue, again⟩ := clones asked
    obtain ⟨copy, m, cloned⟩ := again routed dressed.grown
    obtain ⟨arg, found, hasValue⟩ := Option.bind_eq_some_iff.mp thisValue
    obtain ⟨index, isThis, atIndex⟩ := Option.bind_eq_some_iff.mp found
    have given := provided _ asked
    rw [Call.provides, Bool.and_eq_true_iff] at given
    obtain ⟨offset, hasOffset⟩ := Option.isSome_iff_exists.mp given.2
    exact addWrapperCell_runs dressed.here ((data.dress_nil_thisIndex).trans isThis)
      ((congrArg Call.wrapperOffset (data.dress_rest []) :).trans hasOffset)
      ((data.dress_nil_here isThis).trans atIndex) hasValue cloned
  obtain ⟨_, _, _, wrapped⟩ := optional_dressed dressed (addWrapperCell_dressed dressed) wrapping
  refine .optional (fun isStub => ?_) fun _ stubbing => ?_
  · exact addCell_runs wrapped.here (provided .stubCell (by simp [Call.cellRoles, isStub]))
  obtain ⟨_, _, _, stubbed⟩ := optional_dressed wrapped
    (fun step => ⟨_, addCell_dressed wrapped (by decide) rfl step⟩) stubbing
  by_cases isR2r : data.flags.r2r = true
  · rw [if_pos isR2r]
    exact addCell_runs stubbed.here (provided .r2rCell (by simp [Call.cellRoles, isR2r]))
  · rw [if_neg isR2r]
    exact ⟨(), _, rfl⟩

end Run

theorem callShape_bare (data : Call) : callShape data.bare = callShape data := by
  simp only [callShape, Call.isVarargs, Call.hasThis, Call.hasReturnBuffer, ArgList.thisIndex,
    ArgList.findRole_eq, Call.bare, Call.withArgs, map_map]
  rfl

theorem placeArgs_alike {placed : Placed settings id p q} (here : r.calls[id]? = some other)
    (same : other.bare = placed.data.bare) :
    ∃ args, args.map Argument.bare = placed.args.map Argument.bare
      ∧ placeArgs settings id r = .ok () (r.setCall id (other.placed args placed.answer.stackSize)) := by
  have sameArgs : other.args.args.map Argument.bare = placed.data.args.args.map Argument.bare :=
    (congrArg (fun data : Call => data.args.args) same :)
  have sameStage : other.args.stage = .unfinalized :=
    (congrArg (fun data : Call => data.args.stage) same :).trans placed.fresh
  have sameShape : callShape other = callShape placed.data := by
    rw [← callShape_bare, same, callShape_bare]
  have sameShapes := shapes_masking Argument.bare (fun _ => rfl) settings.target (fun _ => rfl) settings.types
  have shaped := placed.shaped
  rw [← sameShapes, ← sameArgs, sameShapes] at shaped
  obtain ⟨args, assigned, bare⟩ : ∃ args, assign settings.target other.args.args placed.answer.placements
      = some args ∧ args.map Argument.bare = placed.args.map Argument.bare := by
    have masking := assign_masking Argument.bare (fun _ => rfl) settings.target (fun _ _ => rfl)
    have both := masking other.args.args placed.answer.placements
    rw [sameArgs, masking, placed.assigned] at both
    obtain ⟨args, assigned, bare⟩ := Option.map_eq_some_iff.mp both.symm
    exact ⟨args, assigned, bare⟩
  refine ⟨args, bare, ?_⟩
  simp only [placeArgs, bind_ok_iff, lift_edit_ok_iff, lift_fault_ok_iff, lift_stop_ok_iff]
  refine ⟨other, r, call_answers here, placed.shapes, r, ⟨shaped, rfl⟩, placed.answer, r,
    ⟨sameShape ▸ placed.classified, rfl⟩, ?_⟩
  rw [if_neg (by simpa using placed.counted)]
  simp only [assigned, lift_edit_ok_iff]
  refine modifyArgs_runs here ?_
  rw [ArgList.markFinalized, if_pos sameStage]

end Running

namespace Finalized

variable {settings : Settings} {id : CallId} {data : Call} {p q : Procedure}
  (run : Finalized settings id data p q)

theorem resets (plain : data.Plain) : reset id q = .ok () (q.setCall id run.base) := by
  have basePlain := run.handed.plain plain
  have sameOrder : run.final.args.lateOrder = [] :=
    (congrArg ArgList.lateOrder run.base.routed_args).trans basePlain.lateOrder
  have listed : run.final.args.reset = .ok run.base.args := by
    rw [basePlain.list_eq, ← run.ownArgs_unplaced plain, ← sameOrder]
    rfl
  have sameRoles : run.base.cellRoles = data.cellRoles := (congrArg Call.cellRoles run.handed.rest :)
  have restored := restoreIndirect_dressed run.final basePlain
    (fun cell mem => sameRoles ▸ run.roles ▸ mem_map_of_mem mem) rfl rfl
    (run.args_map _ fun _ _ => rfl)
  rw [reset_runs run.here listed, restored]
  exact congrArg (fun data => EStateM.Result.ok () (q.setCall id data)) (run.base.dress_rest run.cells)

theorem again (plain : data.Plain) (grown : Reworks id q r) (here : r.calls[id]? = some run.base) :
    ∃ s final, finalize settings id r = .ok () s
      ∧ s.calls[id]? = some final ∧ final.bare = run.final.bare := by
  have basePlain := run.handed.plain plain
  have rest := run.handed.rest
  have sameRoles : run.base.cellRoles = data.cellRoles := (congrArg Call.cellRoles rest :)
  have sameFlags : run.base.flags = data.flags := (congrArg Call.flags rest :)
  have fromMiddle : Reworks id run.middle q := .set run.placing.last
  have provided : ∀ role ∈ run.base.cellRoles, run.base.provides role = true := by
    intro role mem
    rw [sameRoles, ← run.roles] at mem
    obtain ⟨cell, isCell, rfl⟩ := mem_map.mp mem
    exact run.handed.provides (run.dressed.provided cell isCell)
  obtain ⟨_, m, adding⟩ := addHiddenArgs_runs here provided fun asked => by
    obtain ⟨value, isThis, clones⟩ := run.dressed.clones (run.roles ▸ sameRoles ▸ asked)
    exact ⟨value, isThis, fun s later => clones s ((fromMiddle.trans grown).trans later)⟩
  obtain ⟨base, cells, roles, dressed⟩ := addHiddenArgs_dressed here adding
  have sameBare : (base.dress cells).bare = run.placing.data.bare := by
    rw [run.same]
    exact Call.dress_bare (dressed.handed m Extends.refl).bare
      (roles.trans (sameRoles.trans run.roles.symm))
  obtain ⟨args, bare, placing⟩ := placeArgs_alike dressed.here sameBare
  refine ⟨_, (base.dress cells).placed args run.placing.answer.stackSize, ?_,
    m.setCall_here _ dressed.here, ?_⟩
  · have found := lift_edit_ok_iff.mpr (Edit.call_answers here)
    refine bind_ok_iff.mpr ⟨run.base, r, found, ?_⟩
    rw [if_neg (by simp [basePlain.unfinalized, Stage.isFinalized])]
    refine bind_ok_iff.mpr ⟨(), m, adding, bind_ok_iff.mpr ⟨(), m, ?_, placing⟩⟩
    exact (lift_stop_ok_iff).mpr ⟨sameFlags ▸ run.allowed, rfl⟩
  · exact Call.placed_bare (run.same ▸ sameBare) bare

end Finalized

def rounds (settings : Settings) (id : CallId) : Nat → Attempt Unit
  | 0 => pure ()
  | count + 1 => do
    rounds settings id count
    finalize settings id
    reset id

theorem rounds_finalized (plain : data.Plain) (done : finalize settings id p = .ok () q)
    (first : Finalized settings id data p q) (count : Nat) :
    ∃ start base finished, ∃ round : Finalized settings id base start finished,
      rounds settings id count p = .ok () start ∧ finalize settings id start = .ok () finished
        ∧ Reworks id p start ∧ base.Plain ∧ data.Respilled p start base
        ∧ round.final.bare = first.final.bare := by
  induction count with
  | zero => exact ⟨p, data, q, first, rfl, done, .refl, plain, .same, rfl⟩
  | succ count ih =>
    obtain ⟨start, base, finished, round, before, finalized, grown, basePlain, respilled, same⟩ := ih
    have undone := round.resets basePlain
    have now := finished.setCall_here round.base round.here
    have reset : Reworks id finished (finished.setCall id round.base) := .set rfl
    obtain ⟨after, final, again, atFinal, sameFinal⟩ := round.again basePlain reset now
    have restPlain := round.handed.plain basePlain
    obtain ⟨next⟩ := finalize_finalized now restPlain.unfinalized again
    have isFinal : next.final = final := Option.some.inj (next.here.symm.trans atFinal)
    have ran : rounds settings id (count + 1) p = .ok () (finished.setCall id round.base) :=
      bind_ok_iff.mpr ⟨(), start, before, bind_ok_iff.mpr ⟨(), finished, finalized, undone⟩⟩
    refine ⟨_, round.base, after, next, ran, again,
      (grown.trans round.grown).trans reset, restPlain, ?_, ?_⟩
    · exact (respilled.step grown round.grown round.handed).later reset
    · rw [isFinal, sameFinal, same]

-- A finalization that succeeds can be undone and repeated any number of times. A reset gives the call
-- back as it was, but for the this-pointer of a wrapper delegate, and every finalization ends with the
-- same call but for the nodes of its arguments.
theorem reset_undoes_finalizing (settings : Settings) (id : CallId) (data first : Call) (p q : Procedure)
    (plain : data.Plain) (here : p.calls[id]? = some data) (done : finalize settings id p = .ok () q)
    (atFirst : q.calls[id]? = some first) (count : Nat) :
    ∃ start finished after final restored, rounds settings id count p = .ok () start
      ∧ finalize settings id start = .ok () finished
      ∧ finished.calls[id]? = some final ∧ final.bare = first.bare
      ∧ reset id finished = .ok () after ∧ Reworks id p after
      ∧ after.calls[id]? = some restored ∧ restored.Plain ∧ data.Respilled p after restored := by
  obtain ⟨run⟩ := finalize_finalized here plain.unfinalized done
  have isFirst : run.final = first := Option.some.inj (run.here.symm.trans atFirst)
  obtain ⟨start, base, finished, round, before, finalized, grown, basePlain, respilled, same⟩ :=
    rounds_finalized plain done run count
  have reset : Reworks id finished (finished.setCall id round.base) := .set rfl
  refine ⟨start, finished, _, round.final, round.base, before, finalized, round.here, isFirst ▸ same,
    round.resets basePlain, (grown.trans round.grown).trans reset,
    finished.setCall_here _ round.here, round.handed.plain basePlain, ?_⟩
  exact (respilled.step grown round.grown round.handed).later reset

-- The delegate's this-pointer is spilled in each of the rounds.
theorem cookie_delegate_restored :
    cookieDelegateBuilt.calls[1]? = some cookieDelegate.toCall
      ∧ finalize onX86 1 cookieDelegateBuilt = .ok () cookieDelegateFinalized
      ∧ ∃ (start finished after : Procedure) (first final restored : Call),
        cookieDelegateFinalized.calls[1]? = some first
        ∧ first.target = .pinvokeHelper
        ∧ rounds onX86 1 3 cookieDelegateBuilt = .ok () start
        ∧ finalize onX86 1 start = .ok () finished
        ∧ finished.calls[1]? = some final ∧ final.bare = first.bare
        ∧ reset 1 finished = .ok () after ∧ Reworks 1 cookieDelegateBuilt after
        ∧ after.calls[1]? = some restored ∧ restored.Plain
        ∧ cookieDelegate.toCall.Respilled cookieDelegateBuilt after restored := by
  have here : cookieDelegateBuilt.calls[1]? = some cookieDelegate.toCall := by decide +kernel
  have done : finalize onX86 1 cookieDelegateBuilt = .ok () cookieDelegateFinalized :=
    ok_of_answerOf _ _ (by decide +kernel)
  have routed : cookieDelegateFinalized.calls[1]?.map Call.target = some .pinvokeHelper := by decide +kernel
  obtain ⟨first, atFirst, toHelper⟩ := Option.map_eq_some_iff.mp routed
  obtain ⟨start, finished, after, final, restored, result⟩ := reset_undoes_finalizing onX86 1 _ first _ _
    cookieDelegate.toCall_plain here done atFirst 3
  exact ⟨here, done, start, finished, after, first, final, restored, atFirst, toHelper, result⟩

end AbiInfo

end CallLowering
