import CallLowering.Check.Verifier
import CallLowering.Lowering.AbiInfo
import CallLowering.Lowering.Interference
import CallLowering.Lowering.Materialize
import CallLowering.Proofs.Placements
import CallLowering.Proofs.Scheduling

/-! Who can raise the faults of a wrong stage. -/

namespace CallLowering

variable (stackSize : Nat) (id : NodeId) (kind : NodeKind) (types : TypeTable) (used : List Reg)

-- The faults of a list that is asked for something in the wrong stage.
def Fault.isStage : Fault → Bool
  | .wrongStage | .resetAfterCompletion => true
  | _ => false

def Stop.isStage : Stop → Bool
  | .fault raised => raised.isStage
  | .refusal _ => false

theorem Word.add_avoids {a b : Nat} : Avoids Fault.isStage (Word.add a b) := check_avoids rfl

theorem ArgList.arg_avoids (list : ArgList) (index : Nat) : Avoids Fault.isStage (list.arg index) := by
  unfold ArgList.arg
  split
  · exact .ok _
  · exact .error rfl

namespace Procedure

variable (proc : Procedure) {depth : Nat}

theorem node_avoids : Avoids Fault.isStage (proc.node id) := by
  unfold Procedure.node
  split
  · exact .ok _
  · exact .error rfl

theorem localVar_avoids (id : LocalId) : Avoids Fault.isStage (proc.localVar id) := by
  unfold Procedure.localVar
  split
  · exact .ok _
  · exact .error rfl

theorem call_avoids (id : CallId) : Avoids Fault.isStage (proc.call id) := by
  unfold Procedure.call
  split
  · exact .ok _
  · exact .error rfl

theorem references_avoids : Avoids Fault.isStage (proc.references kind) := by
  cases kind with
  | call id => exact (proc.call_avoids id).bind fun _ => .pure _
  | _ => exact .ok _

theorem evaluated_avoids : Avoids Fault.isStage (proc.evaluated kind) := by
  cases kind with
  | call id =>
    refine (proc.call_avoids id).bind fun data => ?_
    unfold Call.evaluated
    split
    · exact (Avoids.mapM data.args.arg_avoids _).bind fun _ => .pure _
    · exact (Avoids.pure _).bind fun _ => .pure _
  | _ => exact .ok _

theorem ownImpact_avoids : Avoids Fault.isStage (proc.ownImpact kind) := by
  cases kind with
  | readLocal var => exact (proc.localVar_avoids var).bind fun _ => .pure _
  | readField var offset => exact (proc.localVar_avoids var).bind fun _ => .pure _
  | storeLocal var value => exact (proc.localVar_avoids var).bind fun _ => .pure _
  | binary op lhs rhs => exact (proc.node_avoids rhs).bind fun _ => .pure _
  | _ => exact .pure _

theorem impactOf_avoids : Avoids Fault.isStage (proc.impactOf kind) := by
  refine (proc.references_avoids kind).bind fun ids => Avoids.bind ?_ fun _ => ?_
  · exact Avoids.foldlM (fun _ id => (proc.node_avoids id).bind fun _ => .pure _) ids _
  · exact (proc.ownImpact_avoids kind).bind fun _ => .pure _

theorem walkWithin_avoids (id : NodeId) : Avoids Fault.isStage (proc.walkWithin depth id) := by
  induction depth generalizing id with
  | zero => exact .error rfl
  | succ depth ih =>
    exact (proc.node_avoids id).bind fun node => (proc.evaluated_avoids node.kind).bind fun inputs =>
      (Avoids.mapM ih inputs).bind fun _ => .pure _

theorem visited_avoids : Avoids Fault.isStage (proc.visited id) :=
  (proc.walkWithin_avoids id).bind fun _ => .pure _

theorem contains_avoids {accept : NodeKind → Bool} : Avoids Fault.isStage (proc.contains id accept) :=
  (proc.visited_avoids id).bind fun _ => .pure _

theorem storedLocals_avoids : Avoids Fault.isStage (proc.storedLocals id) :=
  (proc.visited_avoids id).bind fun _ => .pure _

theorem localsRead_avoids : Avoids Fault.isStage (proc.localsRead id) :=
  (proc.visited_avoids id).bind fun _ => .pure _

-- By induction on the depth, with the operands of each kind in turn.
theorem textWithin_avoids (id : NodeId) : Avoids Fault.isStage (proc.textWithin depth id) := by
  induction depth generalizing id with
  | zero => exact .error rfl
  | succ depth ih =>
    have address : ∀ addr, Avoids Fault.isStage (do
        let text ← proc.textWithin depth addr
        pure (if isBareAddress (← proc.node addr).kind then text else "(" ++ text ++ ")")) :=
      fun addr => (ih addr).bind fun _ => (proc.node_avoids addr).bind fun _ => .pure _
    refine (proc.node_avoids id).bind fun node => ?_
    cases node.kind with
    | load addr nonFaulting => exact (address addr).bind fun _ => .pure _
    | storeLocal var value => exact (ih value).bind fun _ => .pure _
    | storeInd addr value => exact (address addr).bind fun _ => (ih value).bind fun _ => .pure _
    | unary op operand => exact (ih operand).bind fun _ => .pure _
    | binary op lhs rhs => exact (ih lhs).bind fun _ => (ih rhs).bind fun _ => .pure _
    | boundsCheck index len => exact (ih index).bind fun _ => (ih len).bind fun _ => .pure _
    | comma first second => exact (ih first).bind fun _ => (ih second).bind fun _ => .pure _
    | stackAlloc size => exact (ih size).bind fun _ => .pure _
    | call call => exact (proc.call_avoids call).bind fun _ => .pure _
    | fieldList uses =>
      exact (Avoids.mapM (fun field : FieldUse => (ih field.node).bind fun _ => .pure _) uses).bind
        fun _ => .pure _
    | _ => exact .pure _

theorem optionText_avoids {id : Option NodeId} : Avoids Fault.isStage (proc.optionText id) := by
  cases id with
  | none => exact .ok _
  | some id => exact proc.textWithin_avoids id

theorem callText_avoids (id : CallId) : Avoids Fault.isStage (proc.callText id) := by
  refine (proc.call_avoids id).bind fun data => Avoids.bind ?_ fun _ => .pure _
  refine Avoids.mapM (fun (located : Argument × Nat) => ?_) _
  exact (proc.optionText_avoids).bind fun _ => (proc.optionText_avoids).bind fun _ => .pure _

end Procedure

namespace Verifier

theorem perArgument_avoids {check : Argument → Except Fault (List Finding)}
    (each : ∀ arg, Avoids Fault.isStage (check arg)) {args : List Argument} :
    Avoids Fault.isStage (perArgument check args) :=
  (Avoids.mapM (fun located : Argument × Nat => (each located.1).bind fun _ => .pure _) _).bind
    fun _ => .pure _

theorem shape_avoids (proc : Procedure) (arg : Argument) : Avoids Fault.isStage (shape proc arg) := by
  unfold shape
  split
  · exact .pure _
  · exact (proc.node_avoids _).bind fun _ => (proc.node_avoids _).bind fun _ => .pure _
  · exact .pure _
  · exact .pure _

theorem temps_avoids (proc : Procedure) (arg : Argument) : Avoids Fault.isStage (temps proc arg) := by
  unfold temps
  split
  · exact .pure _
  · split
    · exact (proc.storedLocals_avoids _).bind fun _ => (proc.contains_avoids _).bind fun _ => .pure _
    · exact .pure _

theorem firstGap_avoids (expected : Nat) {segments : List Segment} :
    Avoids Fault.isStage (firstGap expected segments) := by
  induction segments generalizing expected with
  | nil => exact .ok _
  | cons segment rest ih =>
    unfold firstGap
    split
    · exact (Word.add_avoids).bind ih
    · exact .ok _

theorem segments_avoids {parts : List Segment} : Avoids Fault.isStage (segments stackSize used parts) := by
  induction parts generalizing used with
  | nil => exact .ok _
  | cons segment rest ih =>
    unfold segments
    split
    · exact (ih _).bind fun _ => .pure _
    · exact (Word.add_avoids).bind fun _ => (ih _).bind fun _ => .pure _

theorem placement_avoids {place : Placement} : Avoids Fault.isStage (placement stackSize used place) := by
  unfold placement
  split
  · exact .ok _
  · exact Avoids.choice (.pure _) (firstGap_avoids _) fun _ =>
      (segments_avoids _ _).bind fun _ => .pure _

theorem placementsFrom_avoids {args : List (Argument × Nat)} :
    Avoids Fault.isStage (placementsFrom stackSize used args) := by
  induction args generalizing used with
  | nil => exact .ok _
  | cons located rest ih =>
    exact (placement_avoids _ _).bind fun _ => (ih _).bind fun _ => .pure _

theorem findings_avoids (config : CheckConfig) (proc : Procedure) {list : ArgList} :
    Avoids Fault.isStage (findings config proc list) := by
  unfold findings
  split
  · exact .pure _
  · have placed : Avoids Fault.isStage (placements list) :=
      (placementsFrom_avoids _ _).bind fun _ => .pure _
    exact (perArgument_avoids (shape_avoids proc)).bind fun _ => placed.choice (.pure _) fun _ =>
      (perArgument_avoids (temps_avoids proc)).choice (.pure _) fun _ => .pure _

end Verifier

theorem Procedure.verifyCall_avoids (proc : Procedure) {config : CheckConfig} (id : CallId) :
    Avoids Fault.isStage (proc.verifyCall config id) := by
  refine (proc.call_avoids id).bind fun data => (Verifier.findings_avoids config proc).bind fun _ => ?_
  dsimp only
  split
  · exact .pure _
  · exact (proc.callText_avoids id).bind fun _ => .pure _

namespace TypeTable

theorem layoutAt_avoids (index : Nat) : Avoids Fault.isStage (types.layoutAt index) := by
  unfold layoutAt
  split
  · exact .ok _
  · exact .error rfl

theorem layoutOf_avoids (ty : ValueType) : Avoids Fault.isStage (types.layoutOf ty) := by
  cases ty with
  | struct index => exact (types.layoutAt_avoids index).bind fun _ => .pure _
  | _ => exact .ok _

end TypeTable

theorem Layout.isFloatRange_avoids (layout : Layout) {start len : Nat} :
    Avoids Fault.isStage (layout.isFloatRange start len) :=
  (Word.add_avoids).bind fun _ => .pure _

theorem AbiInfo.argShape_avoids (arg : Argument) : Avoids Fault.isStage (argShape types arg) :=
  (types.layoutOf_avoids arg.ty).bind fun _ => .pure _

theorem AbiInfo.checkVarargs_avoids {target : Target} {flags : CallFlags} :
    Avoids Stop.isStage (checkVarargs target flags) := by
  unfold checkVarargs
  split
  · exact .error rfl
  · split
    · exact .error rfl
    · exact .ok _

theorem Shape.pieces_avoids {placement : Placement} (layout : Layout) {pointerSize : Nat} :
    Avoids Fault.isStage (pieces placement layout pointerSize) := by
  refine (Avoids.mapM (fun segment => ?_) _).bind fun _ => .pure _
  have cut : ∀ unit, Avoids Fault.isStage (do
      let _ ← Word.add segment.start ((chunkCount segment.size unit - 1) * unit)
      (chunks segment.size unit).mapM fun chunk => do
        let offset := segment.start + chunk.offset
        let isFloat ← if segment.inFloatReg then layout.isFloatRange offset chunk.len else pure false
        let ty := if isFloat then (if chunk.len = 4 then .f32 else .f64) else intType chunk.len
        pure (⟨offset, ty⟩ : Piece)) := by
    intro unit
    refine (Word.add_avoids).bind fun _ => Avoids.mapM (fun chunk => ?_) _
    exact (layout.isFloatRange_avoids).choice (.pure _) fun _ => .pure _
  unfold piecesOf
  extract_lets unit jump
  split
  · exact Avoids.bind (.error rfl) fun _ => cut unit
  · exact cut unit

theorem Materialize.fieldValue_avoids (proc : Procedure) (value : NodeId) :
    Avoids Fault.isStage (fieldValue? proc value) := by
  refine (proc.node_avoids value).bind fun node => ?_
  split
  · exact .pure _
  · refine (proc.node_avoids _).bind fun second => ?_
    split
    · exact .pure _
    · exact .pure _
  · exact .pure _

namespace Schedule

theorem costModel_avoids (settings : Settings) (proc : Procedure) (id : NodeId) :
    Avoids Fault.isStage (costModel settings proc id) := by
  unfold costModel
  cases settings.options.optLevel with
  | minimal => exact .ok _
  | full => exact (proc.visited_avoids id).bind fun _ => .pure _

theorem sort_avoids {cost : CostModel} {proc : Procedure} (priced : ∀ id, Avoids Fault.isStage (cost proc id))
    (list : ArgList) : Avoids Fault.isStage (entries proc list >>= Sorter.sort cost proc) := by
  intro fault failed
  have told := sort_specified cost proc list
  rw [failed] at told
  obtain ⟨_, value, absent | unpriced⟩ := told
  · exact proc.node_avoids value fault absent
  · exact priced value fault unpriced

end Schedule

namespace Interference

theorem ofArgument_avoids (proc : Procedure) (arg : Argument) :
    Avoids Fault.isStage (ArgSummary.ofArgument proc arg) := by
  unfold ArgSummary.ofArgument
  dsimp only
  split
  · exact .pure _
  · exact (proc.node_avoids _).bind fun node =>
      (proc.storedLocals_avoids _).choice (.pure _) fun _ => .pure _

theorem addReads_avoids (proc : Procedure) (args : List ArgSummary) :
    Avoids Fault.isStage (ArgSummary.addReads proc args) := by
  induction args with
  | nil => exact .ok _
  | cons arg later ih =>
    refine ih.bind fun _ => ?_
    split
    · split
      · exact (proc.localsRead_avoids _).bind fun _ => .pure _
      · exact .pure _
    · exact .pure _

theorem faultBlocks_avoids (rule : FaultRule) (proc : Procedure) {value : NodeId} :
    Avoids Fault.isStage (faultBlocks rule proc value) := by
  cases rule with
  | raises => exact (proc.node_avoids value).bind fun _ => .pure _
  | allocatesStack =>
    unfold faultBlocks
    dsimp only
    split
    · exact proc.contains_avoids _
    · exact .pure _

theorem blockRequests_avoids {rule : FaultRule} (proc : Procedure) {profiles : List Profile}
    {pinned : List Bool} : Avoids Fault.isStage (blockRequests rule proc profiles pinned) := by
  refine Avoids.mapM (fun located => ?_) _
  dsimp only
  split
  · split
    · exact faultBlocks_avoids rule proc
    · exact .pure _
  · exact .pure _

theorem analyse_avoids (settings : Settings) (id : CallId) {proc : Procedure} (data : Call) :
    Avoids Stop.isStage (analyse settings id proc data) := by
  have summaries : Avoids Fault.isStage (ArgSummary.ofArguments proc data.args.args) :=
    (Avoids.mapM (ofArgument_avoids proc) _).bind (addReads_avoids proc)
  refine summaries.lift.bind fun _ => (blockRequests_avoids proc).lift.choice (.pure _) fun _ => ?_
  dsimp only
  split
  · split
    · exact (Avoids.pure _).bind fun _ => .pure _
    · exact Avoids.bind (.error rfl) fun _ => .pure _
  · exact (Avoids.pure _).bind fun _ => .pure _

end Interference

namespace Target

theorem ofTriple_avoids (triple : Triple) (call : CallShape) (args : List ArgShape) :
    Avoids Stop.isStage ((ofTriple triple).classify call args) := by
  rw [classify_eq]
  intro stop failed
  rcases ((placer_conforms triple call).classify_outcome args).2 stop failed with rfl | ⟨_, _, rfl⟩
  · rfl
  · rfl

theorem ofScript_avoids (script : Script) (call : CallShape) (args : List ArgShape) :
    Avoids Stop.isStage ((ofScript script).classify call args) := by
  unfold ofScript
  dsimp only
  split
  · exact .ok _
  · exact .error rfl

end Target

end CallLowering
