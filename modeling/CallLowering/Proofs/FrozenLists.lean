import CallLowering.Graph.Instruction
import CallLowering.Lowering.Run
import CallLowering.Proofs.Keeping

/-! What lowering cannot change any more. -/

namespace CallLowering

variable {id : CallId} {index : Nat}

def Transform.SparesCalls (transform : Transform) : Prop :=
  ∀ (seen : Array NodeId) (value : NodeId) (p : Procedure) (call : CallId) (data : Call),
    p.calls[call]? = some data → (endOf (transform seen value p)).calls[call]? = some data

-- What lowering keeps about a call, be it another one or the one that it visits.
structure Lasting (held : Call → Prop) : Prop where
  finalized : ∀ now, held now → now.args.stage.isFinalized = true
  late : ∀ now other : Call, held now → held other → ∀ index ∈ now.args.lateOrder, ∀ arg value,
    other.args.args[index]? = some arg →
      held (other.withArgs (other.args.args.set index { arg with late := some value }))
  -- either there is no first visit any more, or it does no harm
  first : (∀ now, held now → now.args.isMaterialized = true) ∨ Recastable held

structure Call.Relates (before after : Call) : Prop where
  rest : after.withArgs before.args.args = before
  size : after.args.args.length = before.args.args.length
  arg : ∀ (index : Nat) (old : Argument), before.args.args[index]? = some old →
    ∃ late, after.args.args[index]? = some { old with late }
      ∧ (index ∉ before.args.lateOrder → late = old.late)

namespace Call

theorem frozen_lasting (data : Call) :
    Lasting fun now => data.Frozen now ∧ now.args.stage.isFinalized = true where
  finalized := fun _ held => held.2
  late := fun _ other _ held index _ arg value atIndex => by
    have recast : other.Recast (other.withArgs (other.args.args.set index { arg with late := some value })) :=
      other.recast_set atIndex rfl
    exact ⟨held.1.trans recast.toFrozen, recast.stage ▸ held.2⟩
  first := .inr fun _ _ held frozen stage => ⟨held.1.trans frozen, stage held.2⟩

theorem Relates.refl (data : Call) : data.Relates data :=
  ⟨rfl, rfl, fun _ old here => ⟨old.late, here, fun _ => rfl⟩⟩

theorem Relates.late {before now : Call} (relates : before.Relates now)
    (ordered : index ∈ before.args.lateOrder) {arg : Argument} (value : NodeId)
    (atIndex : now.args.args[index]? = some arg) :
    before.Relates (now.withArgs (now.args.args.set index { arg with late := some value })) := by
  refine ⟨relates.rest, (List.length_set).trans relates.size, fun other old here => ?_⟩
  obtain ⟨late, there, same⟩ := relates.arg other old here
  by_cases written : index = other
  · subst written
    cases atIndex.symm.trans there
    refine ⟨some value, ?_, fun outside => absurd ordered outside⟩
    exact List.getElem?_set_self (lt_length there)
  · refine ⟨late, ?_, same⟩
    exact (List.getElem?_set_ne written).trans there

theorem relates_lasting (data : Call) (materialized : data.args.stage = .materialized) : Lasting data.Relates := by
  have sameStage : ∀ now, data.Relates now → now.args.stage = .materialized := fun now relates =>
    (congrArg (fun data : Call => data.args.stage) relates.rest).trans materialized
  refine ⟨fun now relates => ?_, fun now other relates relates' index ordered arg value atIndex => ?_,
    .inl fun now relates => ?_⟩
  · rw [sameStage now relates]
    rfl
  · have sameOrder : now.args.lateOrder = data.args.lateOrder :=
      (congrArg (fun data : Call => data.args.lateOrder) relates.rest :)
    exact relates'.late (sameOrder ▸ ordered) value atIndex
  · rw [ArgList.isMaterialized, sameStage now relates]
    rfl

end Call

open Procedure (Has)

namespace Lowering

open Edit

section Visits

variable {call : CallId} {held : Call → Prop} {transform : Transform} {lower : NodeId → Step Unit}

theorem inScope_keeps {α : Type} {step : Step α} (keeps : Keeps (LoweringState.Has call held) step) :
    Keeps (LoweringState.Has call held) (Step.inScope step) := by
  intro s here
  have ends := keeps s.opened here
  unfold Step.inScope
  cases ran : step s.opened with
  | ok a t =>
    rw [ran] at ends
    exact ends
  | error stop t =>
    rw [ran] at ends
    exact ends

theorem transformed_keeps (spares : transform.SparesCalls) (value : NodeId) :
    Keeps (LoweringState.Has call held) (transformed transform value) := by
  refine .bind .look fun state => .bind (.update fun _ here => here) fun _ => .attempt (Keeps.iff_endOf.mpr ?_)
  rintro p ⟨now, here, isHeld⟩
  exact ⟨now, spares _ value p call now here, isHeld⟩

theorem checkCall_keeps (settings : Settings) (id : CallId) : Keeps (Has call held) (checkCall settings id) :=
  .bind (.edit (ask_keeps)) fun _ => .either (fun _ => .stop) fun _ => .done _

variable (below : ∀ node, Keeps (LoweringState.Has call held) (lower node))

include below

theorem lowerTarget_keeps (id : CallId) : Keeps (LoweringState.Has call held) (lowerTarget lower id) := by
  refine .bind (.stepEdit (call_keeps id)) fun data => ?_
  cases data.target.node? with
  | some target => exact below target
  | none => exact .done _

variable (spares : transform.SparesCalls)

include spares

theorem lowerNode_keeps {read : Argument → Option NodeId} {write : NodeId → Argument → Argument}
    (written : ∀ value, Keeps (Has call held) (modifyArg id index (write value))) :
    Keeps (LoweringState.Has call held) (lowerNode read write transform lower id index) := by
  refine .bind (.stepEdit (arg_keeps id index)) fun arg => ?_
  cases read arg with
  | some node =>
    exact .bind (below node) fun _ => .bind (transformed_keeps spares node) fun value => .stepEdit (written value)
  | none => exact .done _

variable (lasting : Lasting held)

include lasting

theorem lowerCall_keeps (free : id = call → Recastable held) (settings : Settings) :
    Keeps (LoweringState.Has call held) (lowerCall settings transform lower id) :=
  .bind (.stepEdit (call_keeps id)) fun _ => .optional (.refuse) <|
    .bind (.attempt (AbiInfo.finalize_keeps settings id lasting.finalized)) fun _ =>
    .bind (lowerTarget_keeps below id) fun _ => .bind (.stepEdit (call_keeps id)) fun _ =>
    .bind (.forM fun _ _ => lowerNode_keeps below spares fun _ => modifyArg_recasts free fun _ => rfl) fun _ =>
    .bind (Shape.shapeArgs_keeps free settings) fun _ =>
    .bind (.attempt (Interference.complete_keeps free settings)) fun _ =>
    .bind (Schedule.schedule_eq id ▸ .stepEdit (Schedule.place_keeps free)) fun order =>
    .bind (.attempt (Materialize.materialize_keeps free settings order)) fun _ =>
      .attempt (checkCall_keeps settings id)

theorem revisitCall_keeps (id : CallId) : Keeps (LoweringState.Has call held) (revisitCall transform lower id) := by
  refine .bind (lowerTarget_keeps below id) fun _ s here => ?_
  refine Ends.bind (call_known id here).inAttempt.inStep ?_
  rintro data t ⟨sameProc, atId⟩
  have there : t.proc.Has call held := sameProc ▸ here
  refine Keeps.forM (fun index ordered => lowerNode_keeps below spares fun value => modifyArg_keeps ?_) t there
  intro same now arg isHeld atIndex
  obtain ⟨before, atCall, wasHeld⟩ := here
  cases atId.symm.trans (same ▸ atCall)
  exact lasting.late data now wasHeld isHeld index ordered arg value atIndex

theorem visitCall_keeps (settings : Settings) (id : CallId) :
    Keeps (LoweringState.Has call held) (visitCall settings transform lower id) := by
  refine inScope_keeps fun s here => ?_
  refine Ends.bind (call_known id here).inAttempt.inStep ?_
  rintro data t ⟨sameProc, atId⟩
  have there : t.proc.Has call held := sameProc ▸ here
  by_cases materialized : data.args.isMaterialized = true
  · rw [if_pos materialized]
    exact revisitCall_keeps below spares lasting id t there
  · rw [if_neg materialized]
    refine lowerCall_keeps below spares lasting (fun same => ?_) settings t there
    rcases lasting.first with settled | free
    · obtain ⟨before, atCall, wasHeld⟩ := here
      cases atId.symm.trans (same ▸ atCall)
      exact absurd (settled data wasHeld) materialized
    · exact free

theorem overTree_keeps (settings : Settings) (length : Nat) (id : NodeId) :
    Keeps (LoweringState.Has call held) (overTree (visitCall settings transform lower) length id) := by
  induction length generalizing id with
  | zero => exact .stop
  | succ length ih =>
    refine .bind (.stepEdit (node_keeps id)) fun data => ?_
    have refreshed : Keeps (LoweringState.Has call held)
        (liftM (refreshNode id) : Step Unit) := .stepEdit (refreshNode_keeps id)
    cases data.kind with
    | call seen => exact .bind (visitCall_keeps below spares lasting settings seen) fun _ => refreshed
    | _ => exact .bind (.forM fun child _ => ih child) fun _ => refreshed

end Visits

variable {call : CallId} {held : Call → Prop} {transform : Transform} {proc : Procedure}

theorem lowerTree_keeps (lasting : Lasting held) (spares : transform.SparesCalls) (settings : Settings)
    (depth : Nat) (id : NodeId) : Keeps (LoweringState.Has call held) (lowerTree settings transform depth id) := by
  induction depth generalizing id with
  | zero => exact .stop
  | succ depth below =>
    exact fun s here => overTree_keeps below spares lasting settings (s.proc.nodes.size + 2) id s here

structure Pass where
  settings : Settings
  transform : Transform
  depth : Nat

def Pass.leave (pass : Pass) (proc : Procedure) : Procedure :=
  (endOf (proc.statements.forM (lowerTree pass.settings pass.transform pass.depth) { proc })).proc

theorem lower_leaves {settings : Settings} {outcome : Outcome}
    (done : proc.lower settings transform = .ok outcome) :
    Pass.leave ⟨settings, transform, depthLimit proc⟩ proc = outcome.proc := by
  have same : lowerStatements settings transform { proc }
      = proc.statements.forM (lowerTree settings transform (depthLimit proc)) { proc } := rfl
  rw [Procedure.lower, same] at done
  rw [Pass.leave]
  cases ran : proc.statements.forM (lowerTree settings transform (depthLimit proc)) { proc } with
  | ok _ t =>
    rw [ran] at done
    cases done
    rfl
  | error stop t =>
    rw [ran] at done
    cases stop with
    | refusal refusal =>
      cases done
      rfl
    | fault fault => cases done

theorem Pass.leave_keeps (pass : Pass) (lasting : Lasting held) (spares : pass.transform.SparesCalls)
    (here : proc.Has call held) : (pass.leave proc).Has call held := by
  have keeps : Keeps (LoweringState.Has call held)
      (proc.statements.forM (lowerTree pass.settings pass.transform pass.depth)) :=
    .forM fun id _ => lowerTree_keeps lasting spares pass.settings pass.depth id
  exact Keeps.iff_endOf.mp keeps { proc } here

theorem passes_keep (lasting : Lasting held) {passes : List Pass}
    (spares : ∀ pass ∈ passes, pass.transform.SparesCalls) (proc : Procedure) (here : proc.Has call held) :
    (passes.foldl (fun proc pass => pass.leave proc) proc).Has call held := by
  induction passes generalizing proc with
  | nil => exact here
  | cons pass rest ih =>
    obtain ⟨spared, later⟩ := List.forall_mem_cons.mp spares
    exact ih later (pass.leave proc) (pass.leave_keeps lasting spared here)

theorem foldSums_spares : Transform.foldSums.SparesCalls := by
  intro seen value p call data here
  have keeps : Keeps (Has call (· = data)) (Transform.foldSums seen value) := by
    refine .bind (.edit (node_keeps value)) fun source => ?_
    split
    · refine .bind (.edit (node_keeps _)) fun lhs => .bind (.edit (node_keeps _)) fun rhs => ?_
      split
      · exact .edit (addNode_keeps)
      · exact .done _
    · exact .done _
  obtain ⟨now, there, rfl⟩ := Keeps.iff_endOf.mp keeps p ⟨data, here, rfl⟩
  exact there

-- A sum in a register, which a second pass folds in the late list.
def sumPassed : Procedure :=
  endOf (([.intConst 1 .i32, .intConst 2 .i32, .binary .add 0 1,
    .call { target := .method "taker", args := [(2, .i32)] }, .statement 3] : List Instruction).mapM
      Instruction.run { name := "caller" })

end Lowering

end CallLowering
