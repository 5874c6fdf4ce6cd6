import CallLowering.Proofs.LawfulCalls

/-!
What the passes keep of a call, however they end. A pass works on one call and makes nodes and locals, so it
keeps whatever is known of another call.
-/

namespace CallLowering

variable {id : CallId} {p : Procedure} {step : ArgList → Except Fault ArgList} {held : Call → Prop} {index : Nat}
  {condition : Prop} {ty : ValueType} {value base : NodeId}

-- Wherever the run ends, what held before it holds there too.
def Keeps {ε σ α : Type} (holds : σ → Prop) (x : EStateM ε σ α) : Prop :=
  ∀ s, holds s → Ends (x s) (fun _ => holds) fun _ => holds

namespace Ends

variable {α : Type} {well : α → Procedure → Prop} {ill : Procedure → Prop}

theorem inAttempt {step : Edit α} (ends : Ends (step p) well fun _ => ill) :
    Ends ((liftM step : Attempt α) p) well fun _ => ill := by
  simp only [liftM, monadLift, MonadLift.monadLift]
  cases ran : step p with
  | ok a q =>
    rw [ran] at ends
    exact ends
  | error fault q =>
    rw [ran] at ends
    exact ends

theorem inStep {run : Attempt α} {s : LoweringState} (ends : Ends (run s.proc) well fun _ => ill) :
    Ends ((liftM run : Step α) s) (fun a t => well a t.proc) fun _ t => ill t.proc := by
  simp only [liftM, monadLift, MonadLift.monadLift]
  cases ran : run s.proc with
  | ok a q =>
    rw [ran] at ends
    exact ends
  | error stop q =>
    rw [ran] at ends
    exact ends

theorem look {ε σ : Type} {f : σ → EStateM ε σ α} {s : σ} {well : α → σ → Prop} {ill : ε → σ → Prop}
    (rest : Ends (f s s) well ill) : Ends ((get >>= f) s) well ill := rest

theorem answered {σ : Type} {ill : σ → Prop} {s : σ} (x : Except Stop α) (here : ill s) :
    Ends ((liftM x : EStateM Stop σ α) s) (fun a t => t = s ∧ x = .ok a) fun _ => ill := by
  cases x with
  | ok a => exact ⟨rfl, rfl⟩
  | error stop => exact here

end Ends

namespace Keeps

section Rules

variable {ε σ α β : Type} {holds : σ → Prop} {f : β → EStateM ε σ α} {x : EStateM ε σ α} {items : List β}

theorem done (a : α) : Keeps holds (pure a : EStateM ε σ α) := fun _ here => here

theorem stop {e : ε} : Keeps holds (throw e : EStateM ε σ α) := fun _ here => here

theorem look : Keeps holds (get : EStateM ε σ σ) := fun _ here => here

theorem update {f : σ → σ} (step : ∀ s, holds s → holds (f s)) : Keeps holds (modify f : EStateM ε σ PUnit) := step

theorem bind {x : EStateM ε σ β} (first : Keeps holds x)
    (rest : ∀ b, Keeps holds (f b)) : Keeps holds (x >>= f) :=
  fun s here => Ends.bind (first s here) fun b t reached => rest b t reached

theorem either [Decidable condition] {y : EStateM ε σ α} (first : condition → Keeps holds x)
    (second : ¬ condition → Keeps holds y) : Keeps holds (if condition then x else y) := by
  by_cases taken : condition
  · rw [if_pos taken]
    exact first taken
  · rw [if_neg taken]
    exact second taken

theorem optional [Decidable condition] {step : EStateM ε σ PUnit} {after : EStateM ε σ α}
    (stepped : Keeps holds step) (rest : Keeps holds after) :
    Keeps holds (if condition then step >>= fun _ => after else after) :=
  either (fun _ => stepped.bind fun _ => rest) fun _ => rest

theorem forM {f : β → EStateM ε σ PUnit} (each : ∀ item ∈ items, Keeps holds (f item)) :
    Keeps holds (items.forM f) :=
  fun _ here => Ends.forM holds each here

theorem mapM (each : ∀ item, Keeps holds (f item)) : Keeps holds (items.mapM f) := by
  induction items with
  | nil => exact done []
  | cons item rest ih =>
    rw [List.mapM_cons]
    exact (each item).bind fun _ => ih.bind fun _ => done _

theorem iff_endOf : Keeps holds x ↔ ∀ s, holds s → holds (endOf (x s)) := by
  refine forall_congr' fun s => imp_congr_right fun _ => ?_
  cases x s with
  | ok a t => exact Iff.rfl
  | error e t => exact Iff.rfl

end Rules

section Lifts

variable {α : Type} {holds : Procedure → Prop} {σ : Type}

theorem edit {step : Edit α} (keeps : Keeps holds step) : Keeps holds (liftM step : Attempt α) :=
  fun p here => (keeps p here).inAttempt

theorem attempt {run : Attempt α} (keeps : Keeps holds run) :
    Keeps (fun s : LoweringState => holds s.proc) (liftM run : Step α) :=
  fun s here => (keeps s.proc here).inStep

theorem stepEdit {step : Edit α} (keeps : Keeps holds step) :
    Keeps (fun s : LoweringState => holds s.proc) (liftM step : Step α) :=
  attempt (edit keeps)

theorem liftFault {holds : σ → Prop} {x : Except Fault α} : Keeps holds (liftM x : EStateM Stop σ α) := by
  intro s here
  cases x with
  | ok a => exact here
  | error fault => exact here

theorem liftStop {holds : σ → Prop} {x : Except Stop α} : Keeps holds (liftM x : EStateM Stop σ α) :=
  fun _ here => (Ends.answered x here).weaken fun _ _ answer => answer.1 ▸ here

theorem refuse {holds : σ → Prop} {call : CallId} {reason : Inconsistency} :
    Keeps holds (CallLowering.refuse call reason : EStateM Stop σ α) := stop

end Lifts

end Keeps

def Procedure.Has (call : CallId) (held : Call → Prop) (p : Procedure) : Prop :=
  ∃ now, p.calls[call]? = some now ∧ held now

abbrev LoweringState.Has (call : CallId) (held : Call → Prop) (s : LoweringState) : Prop := s.proc.Has call held

-- Nothing about nodes, temps, flags and stages matters once the list is finalized.
def Recastable (held : Call → Prop) : Prop :=
  ∀ now after : Call, held now → now.Frozen after →
    (now.args.stage.isFinalized = true → after.args.stage.isFinalized = true) → held after

open Procedure (Has)

namespace Edit

variable {call : CallId} {held : Call → Prop} {kind : NodeKind} {α : Type}

theorem ask_answers (question : Procedure → Except Fault α) (here : p.Has call held) :
    Ends (ask question p) (fun a q => q = p ∧ question p = .ok a) fun _ => Has call held := by
  unfold ask
  cases answer : question p with
  | ok a => exact ⟨rfl, rfl⟩
  | error fault => exact here

theorem ask_keeps {question : Procedure → Except Fault α} : Keeps (Has call held) (ask question) :=
  fun _ here => (ask_answers question here).weaken fun _ _ answered => answered.1 ▸ here

theorem ask_then {β : Type} {question : Procedure → Except Fault β} {f : β → Edit α}
    (here : p.Has call held) (rest : ∀ b, question p = .ok b →
      Ends (f b p) (fun _ => Has call held) fun _ => Has call held) :
    Ends ((ask question >>= f) p) (fun _ => Has call held) fun _ => Has call held := by
  refine Ends.bind (ask_answers question here) ?_
  rintro b q ⟨rfl, answer⟩
  exact rest b answer

theorem call_known (id : CallId) (here : p.Has call held) :
    Ends (Edit.call id p) (fun data q => q = p ∧ p.calls[id]? = some data) fun _ => Has call held :=
  (ask_answers _ here).weaken fun _ _ answered => ⟨answered.1, p.call_ok_iff.mp answered.2⟩

theorem node_keeps (id : NodeId) : Keeps (Has call held) (node id) := ask_keeps

theorem call_keeps (id : CallId) : Keeps (Has call held) (Edit.call id) := ask_keeps

theorem arg_keeps (id : CallId) (index : Nat) : Keeps (Has call held) (arg id index) := ask_keeps

theorem addNode_keeps : Keeps (Has call held) (addNode kind ty) :=
  .bind (ask_keeps) fun _ => .bind .look fun _ => .bind (.update fun _ here => here) fun _ => .done _

theorem addLocal_keeps {var : LocalVar} : Keeps (Has call held) (addLocal var) := fun _ here => here

theorem replaceNode_keeps {id : NodeId} : Keeps (Has call held) (replaceNode id kind ty) :=
  .bind (ask_keeps) fun _ => .bind (node_keeps id) fun _ => .update fun _ here => here

theorem refreshNode_keeps (id : NodeId) : Keeps (Has call held) (refreshNode id) :=
  .bind (node_keeps id) fun _ => .bind (ask_keeps) fun _ => .update fun _ here => here

theorem setCall_keeps {data after : Call} (here : p.Has call held) (atId : p.calls[id]? = some data)
    (own : id = call → held data → held after) : (p.setCall id after).Has call held := by
  obtain ⟨now, atCall, isHeld⟩ := here
  by_cases same : id = call
  · subst same
    cases atId.symm.trans atCall
    exact ⟨after, p.setCall_here after atId, own rfl isHeld⟩
  · refine ⟨now, ?_, isHeld⟩
    rw [Procedure.setCall, Array.getElem?_setIfInBounds_ne same]
    exact atCall

theorem modifyCall_keeps {step : Call → Call} (own : id = call → ∀ now, held now → held (step now)) :
    Keeps (Has call held) (modifyCall id step) :=
  fun p here => ask_then here fun data found =>
    setCall_keeps here (p.call_ok_iff.mp found) fun same => own same data

theorem modifyArgs_holds (here : p.Has call held)
    (own : id = call → ∀ data args, p.calls[id]? = some data → held data →
      step data.args = .ok args → held { data with args }) :
    Ends (modifyArgs id step p) (fun _ => Has call held) fun _ => Has call held := by
  refine ask_then here fun data found => ask_then here fun args stepped => ?_
  have atId := p.call_ok_iff.mp found
  exact setCall_keeps here atId fun same isHeld => own same data args atId isHeld stepped

theorem modifyArgs_keeps
    (own : id = call → ∀ now args, held now → step now.args = .ok args → held { now with args }) :
    Keeps (Has call held) (modifyArgs id step) :=
  fun _ here => modifyArgs_holds here fun same data args _ => own same data args

theorem modifyArg_keeps {step : Argument → Argument}
    (own : id = call → ∀ now arg, held now → now.args.args[index]? = some arg →
      held (now.withArgs (now.args.args.set index (step arg)))) :
    Keeps (Has call held) (modifyArg id index step) := by
  refine modifyArgs_keeps fun same now args isHeld stepped => ?_
  obtain ⟨arg, found, stepped⟩ := except_bind_ok_iff.mp stepped
  cases stepped
  have atIndex := now.args.arg_ok_iff.mp found
  have written := own same now arg isHeld atIndex
  rw [ArgList.modifyArg, modify_eq_set _ atIndex]
  exact written

theorem modifyArg_recasts {step : Argument → Argument} (free : id = call → Recastable held)
    (fixed : ∀ arg, (step arg).fixed = arg.fixed) : Keeps (Has call held) (modifyArg id index step) := by
  refine modifyArg_keeps fun same now arg isHeld atIndex => ?_
  have recast := now.recast_set atIndex (fixed arg)
  exact free same now _ isHeld recast.toFrozen fun finalized => recast.stage ▸ finalized

theorem cloneWithin_keeps {depth : Nat} (id : NodeId) : Keeps (Has call held) (cloneWithin depth id) := by
  induction depth generalizing id with
  | zero => exact .stop
  | succ depth ih =>
    refine .bind (node_keeps id) fun source => ?_
    split
    · refine .either (fun _ => .bind (ih _) fun left => ?_) fun _ => .done _
      cases left with
      | none => exact .done _
      | some left =>
        refine .bind (ih _) fun right => ?_
        cases right with
        | none => exact .done _
        | some right => exact .bind (addNode_keeps) fun _ => .done _
    · exact .either (fun _ => .bind (addNode_keeps) fun _ => .done _) fun _ => .done _

theorem cloneSimple_keeps (id : NodeId) : Keeps (Has call held) (cloneSimple id) :=
  .bind .look fun _ => cloneWithin_keeps id

end Edit

open Edit

namespace AbiInfo

section Elsewhere

variable {id call : CallId} {held : Call → Prop} (other : id ≠ call) {role : ArgRole}

include other

theorem pushHidden_keeps : Keeps (Has call held) (pushHidden id value role) :=
  modifyCall_keeps fun same => absurd same other

theorem routeThroughHelper_keeps : Keeps (Has call held) (routeThroughHelper id) := by
  refine .bind (call_keeps id) fun data => ?_
  split
  · exact .bind (pushHidden_keeps other) fun _ => .bind (pushHidden_keeps other) fun _ =>
      modifyCall_keeps fun same => absurd same other
  · exact .done _

theorem spillThis_keeps : Keeps (Has call held) (spillThis id index value ty) :=
  .bind (addLocal_keeps) fun _ => .bind (addNode_keeps) fun _ => .bind (addNode_keeps) fun _ =>
    .bind (addNode_keeps) fun _ => .bind (modifyArg_keeps fun same => absurd same other) fun _ =>
      addNode_keeps

theorem thisAgain_keeps (index : Nat) (value : NodeId) : Keeps (Has call held) (thisAgain id index value) := by
  refine .bind (node_keeps value) fun _ => .bind (cloneSimple_keeps value) fun copy => ?_
  cases copy with
  | some base => exact .done _
  | none => exact spillThis_keeps other

theorem loadCell_keeps (offset : Nat) : Keeps (Has call held) (loadCell id base offset) :=
  .bind (addNode_keeps) fun _ => .bind (addNode_keeps) fun _ => .bind (addNode_keeps) fun _ =>
    modifyCall_keeps fun same => absurd same other

theorem addWrapperCell_keeps : Keeps (Has call held) (addWrapperCell id) := by
  refine .bind (.edit (call_keeps id)) fun data => ?_
  cases data.args.thisIndex with
  | none => exact .refuse
  | some index =>
    cases data.wrapperOffset with
    | none => exact .refuse
    | some offset =>
      refine .bind (.edit (arg_keeps id index)) fun arg => ?_
      cases arg.early with
      | none => exact .refuse
      | some value =>
        exact .bind (.edit (thisAgain_keeps other index value)) fun _ => .edit (loadCell_keeps other offset)

theorem addCell_keeps {missing : Inconsistency} {cell : Option Int64} :
    Keeps (Has call held) (addCell id role missing cell) := by
  cases cell with
  | none => exact .refuse
  | some addr => exact .bind (.edit (addNode_keeps)) fun _ => .edit (pushHidden_keeps other)

theorem addHiddenArgs_keeps : Keeps (Has call held) (addHiddenArgs id) :=
  .bind (.edit (call_keeps id)) fun _ => .bind (.edit (routeThroughHelper_keeps other)) fun _ =>
    .optional (addWrapperCell_keeps other) <| .optional (addCell_keeps other) <|
      .either (fun _ => addCell_keeps other) fun _ => .done _

theorem placeArgs_keeps (settings : Settings) : Keeps (Has call held) (placeArgs settings id) := by
  refine .bind (.edit (call_keeps id)) fun data => .bind (.liftFault) fun shapes =>
    .bind (.liftStop) fun answer => .optional (.refuse) ?_
  cases assign settings.target data.args.args answer.placements with
  | none => exact .refuse
  | some args => exact .edit (modifyArgs_keeps fun same => absurd same other)

end Elsewhere

theorem finalize_keeps {call : CallId} (settings : Settings) (id : CallId)
    (finalized : ∀ now, held now → now.args.stage.isFinalized = true) :
    Keeps (Has call held) (finalize settings id) := by
  intro p here
  refine Ends.bind (call_known id here).inAttempt ?_
  rintro data q ⟨rfl, atId⟩
  by_cases same : id = call
  · obtain ⟨now, atCall, isHeld⟩ := here
    have isNow : data = now := Option.some.inj (atId.symm.trans (same ▸ atCall))
    rw [isNow, if_pos (finalized now isHeld)]
    exact ⟨now, atCall, isHeld⟩
  · refine Keeps.either (fun _ => .done _) (fun _ => ?_) q here
    exact .bind (addHiddenArgs_keeps same) fun _ => .bind (.liftStop) fun _ => placeArgs_keeps same settings

end AbiInfo

theorem Step.structCopy_keeps {call : CallId} (settings : Settings) (ty : ValueType) :
    Keeps (LoweringState.Has call held) (structCopy settings ty) := by
  intro s here
  obtain ⟨_, u, ran, _, choice⟩ := structCopy_chooses settings ty s
  have kept : u.proc.Has call held := by
    cases choice with
    | reused _ _ _ _ same _ => rwa [same]
    | fresh _ _ made _ =>
      rw [made]
      exact here
  rw [ran, keep]
  split
  · exact kept
  · exact kept

namespace Shape

variable {call : CallId} {held : Call → Prop} {pieces : List Piece} {nonFaulting : Bool}

theorem localFields_keeps {var : LocalId} {base : Nat} : Keeps (Has call held) (localFields var base pieces) :=
  .bind (.mapM fun _ => .bind (ask_keeps) fun _ => .bind (addNode_keeps) fun _ => .done _)
    fun _ => addNode_keeps

theorem fieldAddr_keeps {offset : Nat} : Keeps (Has call held) (fieldAddr base offset) :=
  .either (fun _ => .done _) fun _ => .bind (addNode_keeps) fun _ => addNode_keeps

theorem loadPiece_keeps {piece : Piece} :
    Keeps (Has call held) (loadPiece id base nonFaulting index piece) := by
  refine .bind (.either (fun _ => .done _) fun _ => .bind (.edit (cloneSimple_keeps base)) fun copy => ?_) fun _ =>
    .edit (.bind (fieldAddr_keeps) fun _ => .bind (addNode_keeps) fun _ => .done _)
  cases copy with
  | none => exact .refuse
  | some copied => exact .done _

theorem hoistAddr_keeps (addr : NodeId) : Keeps (Has call held) (hoistAddr addr) :=
  .bind (node_keeps addr) fun _ => .either (fun _ => .done _) fun _ => .bind (addLocal_keeps) fun _ =>
    .bind (addNode_keeps) fun _ => .bind (addNode_keeps) fun _ => .done _

theorem loadFields_keeps {addr : NodeId} : Keeps (Has call held) (loadFields id addr nonFaulting pieces) := by
  refine .bind (.edit (hoistAddr_keeps addr)) fun hoisted => .bind (.mapM fun _ => loadPiece_keeps)
    fun uses => .bind (.edit (addNode_keeps)) fun list => ?_
  cases hoisted.1 with
  | some store => exact .edit (addNode_keeps)
  | none => exact .done _

section Own

variable {id : CallId} (free : id = call → Recastable held)

include free

theorem setCopy_keeps {copy : LocalId} {early late : NodeId} :
    Keeps (Has call held) (setCopy id index copy early late) :=
  modifyArg_recasts free fun _ => rfl

theorem setEarly_keeps : Keeps (Has call held) (setEarly id index value) :=
  modifyArg_recasts free fun _ => rfl

variable (settings : Settings)

theorem passCopy_keeps (index : Nat) (ty : ValueType) (value : NodeId)
    {use : LocalId → Edit NodeId} (uses : ∀ copy, Keeps (Has call held) (use copy)) :
    Keeps (LoweringState.Has call held) (passCopy settings id index ty value use) :=
  .bind (Step.structCopy_keeps settings ty) fun _ => .bind (.stepEdit (addNode_keeps)) fun _ =>
    .bind (.stepEdit (uses _)) fun _ => .stepEdit (setCopy_keeps free)

theorem decompose_keeps (index : Nat) :
    Keeps (LoweringState.Has call held) (decompose settings id index ty value pieces) := by
  refine .bind (.stepEdit (node_keeps value)) fun data => ?_
  cases data.kind with
  | fieldList uses => exact .done _
  | readLocal var =>
    exact .bind (.stepEdit (localFields_keeps)) fun _ => .stepEdit (setEarly_keeps free)
  | readField var offset =>
    exact .bind (.stepEdit (localFields_keeps)) fun _ => .stepEdit (setEarly_keeps free)
  | load addr nonFaulting =>
    exact .bind (.attempt (loadFields_keeps)) fun _ => .stepEdit (setEarly_keeps free)
  | _ => exact passCopy_keeps free settings index ty value fun _ => localFields_keeps

theorem shapeArg_keeps (index : Nat) : Keeps (LoweringState.Has call held) (shapeArg settings id index) := by
  refine .bind (.stepEdit (arg_keeps id index)) fun data => ?_
  split
  · exact .bind .liftFault fun layout => .either
      (fun _ => passCopy_keeps free settings index _ _ fun _ => addNode_keeps) fun _ =>
      .either (fun _ => .bind (.liftFault) fun _ => decompose_keeps free settings index) fun _ => .done _
  · exact .done _

theorem shapeArgs_keeps : Keeps (LoweringState.Has call held) (shapeArgs settings id) :=
  .bind (.stepEdit (call_keeps id)) fun _ => .forM fun index _ => shapeArg_keeps free settings index

end Own

end Shape

section Passes

variable {id call : CallId} {held : Call → Prop} (free : id = call → Recastable held)

include free

theorem Interference.complete_keeps (settings : Settings) :
    Keeps (Has call held) (Interference.complete settings id) := by
  intro p here
  refine Ends.bind (call_known id here).inAttempt ?_
  rintro data q ⟨rfl, atId⟩
  by_cases unready : data.args.stage ≠ .finalized
  · rw [if_pos unready]
    exact here
  rw [if_neg unready]
  refine Ends.look (.bind (.answered (analyse settings id q data) here) ?_)
  rintro marks t ⟨rfl, analysed⟩
  refine (modifyArgs_holds here fun same now args atNow isHeld stepped => ?_).inAttempt
  obtain ⟨analysis⟩ := analyse_ok analysed
  cases atId.symm.trans atNow
  unfold ArgList.markComplete at stepped
  split at stepped
  · cases stepped
    exact free same data _ isHeld ⟨rfl, rfl, analysis.marked_map _ fun _ _ => rfl, rfl, rfl, rfl⟩ fun _ => rfl
  · cases stepped

theorem Schedule.place_keeps {cost : CostModel} : Keeps (Has call held) (Schedule.place cost id) := by
  refine .bind (call_keeps id) fun data => .bind (ask_keeps) fun result =>
    .bind (modifyArgs_keeps fun same now args isHeld stepped => ?_) fun _ => .done _
  cases stepped
  refine free same now _ isHeld ⟨rfl, rfl, ?_, rfl, rfl, rfl⟩ fun finalized => finalized
  rw [Schedule.markProcessed, List.map_map]
  rfl

end Passes

namespace Materialize

variable {call : CallId} {held : Call → Prop}

theorem fieldToTemp_keeps (field : FieldUse) : Keeps (Has call held) (fieldToTemp field) :=
  .bind (addLocal_keeps) fun _ => .bind (addNode_keeps) fun _ => .bind (addNode_keeps) fun _ => .done _

theorem sequence_keeps {nodes : List NodeId} : Keeps (Has call held) (sequence nodes) := by
  induction nodes with
  | nil => exact addNode_keeps
  | cons first rest ih =>
    cases rest with
    | nil => exact .done _
    | cons => exact .bind ih fun _ => addNode_keeps

theorem fieldsToTemps_keeps (value : FieldValue) : Keeps (Has call held) (fieldsToTemps value) :=
  .bind (.mapM fieldToTemp_keeps) fun _ => .bind (replaceNode_keeps) fun _ => sequence_keeps

theorem readTemp_keeps {settings : Settings} {data : Argument} {temp : LocalId} :
    Keeps (Has call held) (readTemp settings data temp ty) := by
  refine .bind (ask_keeps) fun layout => ?_
  split
  · exact .bind (ask_keeps) fun _ => Shape.localFields_keeps
  · exact addNode_keeps

variable {id : CallId} (free : id = call → Recastable held)

include free

variable (settings : Settings)

theorem toTemps_keeps (index : Nat) (data : Argument) (value : NodeId) :
    Keeps (Has call held) (toTemps settings id index data value) := by
  refine .bind (.edit (ask_keeps)) fun fields => ?_
  cases fields with
  | some fields =>
    exact .bind (.edit (fieldsToTemps_keeps fields)) fun _ => .edit (modifyArg_recasts free fun _ => rfl)
  | none =>
    exact .bind (.edit (node_keeps value)) fun _ => .optional (.refuse) <|
      .bind (.edit (addLocal_keeps)) fun _ => .bind (.edit (addNode_keeps)) fun _ =>
        .bind (.edit (readTemp_keeps)) fun _ => .edit (Shape.setCopy_keeps free)

theorem materializeArg_keeps (retbufAsLocal : Bool) (index : Nat) :
    Keeps (Has call held) (materializeArg settings id retbufAsLocal index) := by
  refine .bind (.edit (arg_keeps id index)) fun data => .either (fun _ => .done _) fun _ => ?_
  cases data.early with
  | none => exact .refuse
  | some value =>
    refine .either (fun _ => .optional (.refuse) ?_) fun _ => .either (fun _ => ?_) fun _ => .done _
    · exact .bind (toTemps_keeps free settings index data value) fun _ => .done _
    · exact .bind (.edit (modifyArg_recasts free fun _ => rfl)) fun _ => .done _

theorem materializeArgs_keeps {retbufAsLocal : Bool} (order : List Nat) :
    Keeps (Has call held) (materializeArgs settings id retbufAsLocal order) := by
  induction order with
  | nil => exact .done _
  | cons index rest ih =>
    exact .bind (materializeArg_keeps free settings retbufAsLocal index) fun _ => .bind ih fun _ => .done _

theorem materialize_keeps (order : List Nat) : Keeps (Has call held) (materialize settings id order) := by
  refine .bind (.edit (call_keeps id)) fun data => .optional (.refuse) <|
    .bind (materializeArgs_keeps free settings order) fun lateOrder => .edit (modifyArgs_keeps ?_)
  intro same now args isHeld stepped
  unfold ArgList.markMaterialized at stepped
  split at stepped
  · cases stepped
    exact free same now _ isHeld ⟨rfl, rfl, rfl, rfl, rfl, rfl⟩ fun _ => rfl
  · cases stepped

end Materialize

end CallLowering
