import CallLowering.Proofs.Verifying

/-! The verdict on a lowered call. -/

namespace CallLowering

open List

variable {arg : Argument} {id : NodeId} {proc : Procedure} {seen : List NodeId} {depth : Nat} {call : Call}

namespace Procedure

theorem walkWithin_inputs (proc : Procedure) (walked : proc.walkWithin (depth + 1) id = .ok seen) :
    ∃ node inputs, proc.node id = .ok node ∧ proc.evaluated node.kind = .ok inputs
      ∧ ∀ input ∈ inputs, ∃ below, proc.walkWithin depth input = .ok below := by
  simp only [walkWithin, except_bind_ok_iff, mapM_except_ok_iff] at walked
  obtain ⟨node, here, inputs, refers, parts, below, _⟩ := walked
  refine ⟨node, inputs, here, refers, fun input mem => ?_⟩
  obtain ⟨index, bound, rfl⟩ := getElem_of_mem mem
  have paired := List.forall₂_iff_get.mp below
  exact ⟨_, paired.2 index bound (paired.1 ▸ bound)⟩

theorem textWithin_succeeds (proc : Procedure)
    (walked : proc.walkWithin depth id = .ok seen) : ∃ text, proc.textWithin depth id = .ok text := by
  induction depth generalizing id seen with
  | zero => cases walked
  | succ depth ih =>
    obtain ⟨node, inputs, here, refers, below⟩ := proc.walkWithin_inputs walked
    have inner : ∀ child ∈ inputs, ∃ text, proc.textWithin depth child = .ok text := fun child mem => by
      obtain ⟨part, walked⟩ := below child mem
      exact ih walked
    have atChild : ∀ child ∈ inputs, ∃ other, proc.node child = .ok other := fun child mem => by
      obtain ⟨part, walked⟩ := below child mem
      cases depth with
      | zero => cases walked
      | succ depth =>
        obtain ⟨other, _, found, _⟩ := proc.walkWithin_inputs walked
        exact ⟨other, found⟩
    have address : ∀ addr ∈ inputs, ∃ text, (do
        let text ← proc.textWithin depth addr
        pure (if isBareAddress (← proc.node addr).kind then text else "(" ++ text ++ ")")) = .ok text :=
      fun addr mem => bind_succeeds (inner addr mem) fun _ _ =>
        bind_succeeds (atChild addr mem) fun _ _ => ⟨_, rfl⟩
    rw [textWithin]
    refine bind_succeeds ⟨node, here⟩ fun other same => ?_
    cases here.symm.trans same
    cases kind : node.kind with
    | call call =>
      simp only [evaluated, kind, except_bind_ok_iff] at refers
      obtain ⟨data, atCall, _⟩ := refers
      exact bind_succeeds ⟨data, atCall⟩ fun _ _ => ⟨_, rfl⟩
    | fieldList uses =>
      simp only [evaluated, kind, NodeKind.children, Except.ok.injEq] at refers
      subst refers
      refine bind_succeeds (mapM_succeeds fun field mem => ?_) fun _ _ => ⟨_, rfl⟩
      exact bind_succeeds (inner _ (mem_map_of_mem mem)) fun _ _ => ⟨_, rfl⟩
    | load addr _ =>
      rw [kind] at refers
      cases refers
      exact bind_succeeds (address addr (by simp [NodeKind.children])) fun _ _ => ⟨_, rfl⟩
    | storeInd addr value =>
      rw [kind] at refers
      cases refers
      refine bind_succeeds (address addr (by simp [NodeKind.children])) fun _ _ => ?_
      exact bind_succeeds (inner value (by simp [NodeKind.children])) fun _ _ => ⟨_, rfl⟩
    | storeLocal _ operand | unary _ operand | stackAlloc operand =>
      rw [kind] at refers
      cases refers
      exact bind_succeeds (inner operand (by simp [NodeKind.children])) fun _ _ => ⟨_, rfl⟩
    | binary _ first second | boundsCheck first second | comma first second =>
      rw [kind] at refers
      cases refers
      refine bind_succeeds (inner first (by simp [NodeKind.children])) fun _ _ => ?_
      exact bind_succeeds (inner second (by simp [NodeKind.children])) fun _ _ => ⟨_, rfl⟩
    | _ => exact ⟨_, rfl⟩

def Walkable (proc : Procedure) (arg : Argument) : Prop :=
  ∀ id, arg.early = some id ∨ arg.late = some id → ∃ visited, proc.walk id = .ok visited

theorem optionText_succeeds (proc : Procedure) {id? : Option NodeId}
    (walks : ∀ id, id? = some id → ∃ seen, proc.walk id = .ok seen) :
    ∃ text, proc.optionText id? = .ok text := by
  cases id? with
  | none => exact ⟨_, rfl⟩
  | some id =>
    obtain ⟨seen, walked⟩ := walks id rfl
    exact proc.textWithin_succeeds walked

theorem callText_succeeds (proc : Procedure) {id : CallId} (here : proc.calls[id]? = some call)
    (walkable : ∀ arg ∈ call.args.args, proc.Walkable arg) : ∃ text, proc.callText id = .ok text := by
  refine bind_succeeds ⟨call, proc.call_ok_iff.mpr here⟩ fun other same => ?_
  cases (proc.call_ok_iff.mpr here).symm.trans same
  refine bind_succeeds (mapM_succeeds fun entry mem => ?_) fun _ _ => ⟨_, rfl⟩
  have walks := walkable entry.1 (fst_mem_of_mem_zipIdx mem)
  refine bind_succeeds (proc.optionText_succeeds fun id found => walks id (.inl found)) fun _ _ => ?_
  exact bind_succeeds (proc.optionText_succeeds fun id found => walks id (.inr found)) fun _ _ => ⟨_, rfl⟩

theorem walk_node (proc : Procedure) (walked : proc.walk id = .ok seen) : ∃ node, proc.node id = .ok node := by
  obtain ⟨node, _, found, _⟩ := proc.walkWithin_inputs walked
  exact ⟨node, found⟩

theorem visited_succeeds (proc : Procedure) (walked : proc.walk id = .ok seen) :
    ∃ nodes, proc.visited id = .ok nodes :=
  bind_succeeds ⟨seen, walked⟩ fun _ _ => ⟨_, rfl⟩

end Procedure

def Argument.Bounded (arg : Argument) : Prop :=
  ∀ segment ∈ arg.placement.segments, segment.start + segment.size < Word.limit
    ∧ ∀ offset, segment.stackOffset? = some offset → offset + segment.size < Word.limit

namespace Verifier

theorem perArgument_succeeds (check : Argument → Except Fault (List Finding)) {args : List Argument}
    (each : ∀ arg ∈ args, ∃ found, check arg = .ok found) : ∃ found, perArgument check args = .ok found := by
  refine bind_succeeds (mapM_succeeds fun entry mem => ?_) fun _ _ => ⟨_, rfl⟩
  exact bind_succeeds (each entry.1 (fst_mem_of_mem_zipIdx mem)) fun _ _ => ⟨_, rfl⟩

theorem shape_succeeds (walkable : proc.Walkable arg) : ∃ found, shape proc arg = .ok found := by
  have nodes : ∀ id, arg.early = some id ∨ arg.late = some id → ∃ node, proc.node id = .ok node :=
    fun id found => by
      obtain ⟨seen, walked⟩ := walkable id found
      exact proc.walk_node walked
  simp only [shape]
  split
  · exact ⟨_, rfl⟩
  · rename_i early late atEarly atLate
    refine bind_succeeds (nodes early (.inl atEarly)) fun _ _ => ?_
    exact bind_succeeds (nodes late (.inr atLate)) fun _ _ => ⟨_, rfl⟩
  · exact ⟨_, rfl⟩
  · exact ⟨_, rfl⟩

theorem temps_succeeds (walkable : proc.Walkable arg) : ∃ found, temps proc arg = .ok found := by
  have nodes : ∀ id, arg.early = some id ∨ arg.late = some id → ∃ nodes, proc.visited id = .ok nodes :=
    fun id found => by
      obtain ⟨seen, walked⟩ := walkable id found
      exact proc.visited_succeeds walked
  by_cases isTemp : arg.flags.isTemp = true
  · simp only [temps, isTemp, Bool.not_true, Bool.false_eq_true, if_false]
    split
    · rename_i temp early late _ atEarly atLate
      refine bind_succeeds (bind_succeeds (nodes early (.inl atEarly)) fun _ _ => ⟨_, rfl⟩) fun _ _ => ?_
      exact bind_succeeds (bind_succeeds (nodes late (.inr atLate)) fun _ _ => ⟨_, rfl⟩) fun _ _ => ⟨_, rfl⟩
    · exact ⟨_, rfl⟩
  · exact ⟨[], by simp only [temps, isTemp, Bool.not_false, if_true]; rfl⟩

theorem firstGap_succeeds (expected : Nat) (segments : List Segment)
    (bounded : ∀ segment ∈ segments, segment.start + segment.size < Word.limit) :
    ∃ found, firstGap expected segments = .ok found := by
  induction segments generalizing expected with
  | nil => exact ⟨[], rfl⟩
  | cons segment rest ih =>
    obtain ⟨fits, later⟩ := forall_mem_cons.mp bounded
    by_cases here : segment.start = expected
    · simp only [firstGap, here, if_true]
      refine bind_succeeds ⟨_, Word.check_ok_iff.mpr ⟨here ▸ fits, rfl⟩⟩ fun next _ => ?_
      exact ih next later
    · exact ⟨[.gap segment expected], by simp [firstGap, here]⟩

theorem segments_succeeds (stackSize : Nat) (used : List Reg) (segs : List Segment)
    (bounded : ∀ segment ∈ segs, ∀ offset, segment.stackOffset? = some offset → offset + segment.size < Word.limit) :
    ∃ found, segments stackSize used segs = .ok found := by
  induction segs generalizing used with
  | nil => exact ⟨_, rfl⟩
  | cons segment rest ih =>
    obtain ⟨fits, later⟩ := forall_mem_cons.mp bounded
    cases place : segment.place with
    | reg reg =>
      simp only [segments, place]
      exact bind_succeeds (ih (reg :: used) later) fun _ _ => ⟨_, rfl⟩
    | stack offset =>
      simp only [segments, place]
      have fits := fits offset (by simp [Segment.stackOffset?, place])
      refine bind_succeeds ⟨_, Word.check_ok_iff.mpr ⟨fits, rfl⟩⟩ fun _ _ => ?_
      exact bind_succeeds (ih used later) fun _ _ => ⟨_, rfl⟩

theorem placement_succeeds (stackSize : Nat) (used : List Reg) (bounded : arg.Bounded) :
    ∃ found, placement stackSize used arg.placement = .ok found := by
  have checked := segments_succeeds stackSize used arg.placement.segments fun segment mem =>
    (bounded segment mem).2
  have gapless := firstGap_succeeds 0 arg.placement.byStart fun segment mem =>
    (bounded segment ((stableSort_perm _ _).mem_iff.mp mem)).1
  by_cases empty : arg.placement.isEmpty = true
  · exact ⟨([.noPlacement], used), by simp [placement, empty]⟩
  · cases byRef : arg.placement.byRef with
    | true =>
      simp only [placement, empty, byRef, Bool.false_eq_true, if_false, if_true]
      exact bind_succeeds ⟨[], rfl⟩ fun _ _ => bind_succeeds checked fun _ _ => ⟨_, rfl⟩
    | false =>
      simp only [placement, empty, byRef, Bool.false_eq_true, if_false]
      exact bind_succeeds gapless fun _ _ => bind_succeeds checked fun _ _ => ⟨_, rfl⟩

theorem placementsFrom_succeeds (stackSize : Nat) (used : List Reg) {args : List (Argument × Nat)}
    (bounded : ∀ entry ∈ args, entry.1.Bounded) : ∃ found, placementsFrom stackSize used args = .ok found := by
  induction args generalizing used with
  | nil => exact ⟨_, rfl⟩
  | cons entry rest ih =>
    obtain ⟨here, later⟩ := forall_mem_cons.mp bounded
    refine bind_succeeds (placement_succeeds stackSize used here) fun _ _ => ?_
    exact bind_succeeds (ih _ later) fun _ _ => ⟨_, rfl⟩

theorem findings_succeeds (config : CheckConfig) {list : ArgList}
    (walkable : ∀ arg ∈ list.args, proc.Walkable arg) (bounded : ∀ arg ∈ list.args, arg.Bounded) :
    ∃ found, findings config proc list = .ok found := by
  have shapes := perArgument_succeeds (shape proc) fun arg mem =>
    shape_succeeds (walkable arg mem)
  have placed : ∃ found, placements list = .ok found :=
    bind_succeeds (placementsFrom_succeeds list.stackSize [] fun entry mem =>
      bounded entry.1 (fst_mem_of_mem_zipIdx mem)) fun _ _ => ⟨_, rfl⟩
  have tempored := perArgument_succeeds (temps proc) fun arg mem =>
    temps_succeeds (walkable arg mem)
  by_cases materialized : list.isMaterialized = true
  · simp only [findings, materialized, Bool.not_true, Bool.false_eq_true, if_false]
    refine bind_succeeds shapes fun _ _ => ?_
    by_cases onPlacements : config.checksPlacements = true <;> by_cases onTemps : config.checksTemps = true <;>
      simp only [onPlacements, onTemps, Bool.false_eq_true, if_true, if_false]
    · exact bind_succeeds placed fun _ _ => bind_succeeds tempored fun _ _ => ⟨_, rfl⟩
    · exact bind_succeeds placed fun _ _ => ⟨_, rfl⟩
    · exact bind_succeeds ⟨[], rfl⟩ fun _ _ => bind_succeeds tempored fun _ _ => ⟨_, rfl⟩
    · exact ⟨_, rfl⟩
  · exact ⟨_, by simp only [findings, materialized, Bool.not_false, if_true]; rfl⟩

end Verifier

theorem Procedure.verifyCall_succeeds (proc : Procedure) (config : CheckConfig) {id : CallId}
    (here : proc.calls[id]? = some call) (walkable : ∀ arg ∈ call.args.args, proc.Walkable arg)
    (bounded : ∀ arg ∈ call.args.args, arg.Bounded) : ∃ report, proc.verifyCall config id = .ok report := by
  refine bind_succeeds ⟨call, proc.call_ok_iff.mpr here⟩ fun other same => ?_
  cases (proc.call_ok_iff.mpr here).symm.trans same
  refine bind_succeeds (Verifier.findings_succeeds config walkable bounded) fun found _ => ?_
  simp only
  split
  · exact ⟨_, rfl⟩
  · exact bind_succeeds (proc.callText_succeeds here walkable) fun _ _ => ⟨_, rfl⟩

theorem verdict_exact (proc : Procedure) (config : CheckConfig) (id : CallId) (call : Call)
    (here : proc.calls[id]? = some call) (materialized : call.args.isMaterialized = true)
    (full : config.level = .full) :
    (∀ report, proc.verifyCall config id = .ok report →
        (report.isOk = true ↔ call.args.Verified proc))
      ∧ ((∀ arg ∈ call.args.args, proc.Walkable arg ∧ arg.Bounded) →
        ∃ report, proc.verifyCall config id = .ok report) := by
  refine ⟨fun report done => ?_, fun good => ?_⟩
  · obtain ⟨found, checked, clean⟩ := proc.verifyCall_isOk here done
    rw [clean]
    constructor
    · rintro rfl
      exact Verifier.findings_verified materialized full checked
    · intro verified
      exact Verifier.verified_findings materialized verified checked
  · exact proc.verifyCall_succeeds config here (fun arg inside => (good arg inside).1)
      fun arg inside => (good arg inside).2

-- A call with one argument in a temp and two of eight bytes on the stack.
def callWithSlots (offsets : List Nat) : Call where
  target := .method "callee"
  returnType := .void
  args := {
    args := { early := some 1, late := some 2, ty := .i32, placement := .inReg (.int 7) 4,
              flags := { isTemp := true }, temp := some 0 }
      :: offsets.map fun offset => { early := some 0, ty := .i64, placement := .onStack offset 8 }
    lateOrder := [0]
    stage := .materialized
    stackSize := 24 }

def callerWithSlots (offsets : List Nat) : Procedure where
  name := "caller"
  nodes := #[⟨.intConst 5, .i32, {}⟩, ⟨.storeLocal 0 0, .void, { effects := { assigns := true } }⟩,
    ⟨.readLocal 0, .i32, {}⟩]
  locals := #[{ ty := .i32, kind := .argTemp }]
  calls := #[callWithSlots offsets]

-- Slots that touch are good, slots that overlap are reported even if one diagnostic is all that fits.
theorem overlap_reported_and_touch_not :
    (callWithSlots [16, 8]).args.Verified (callerWithSlots [16, 8])
      ∧ ¬ (callWithSlots [16, 10]).args.Verified (callerWithSlots [16, 10]) := by
  constructor
  · obtain ⟨report, done, isOk⟩ := except_ok_of_any
      ((callerWithSlots [16, 8]).verifyCall (.ofLevel .full) 0) Report.isOk (by decide +kernel)
    exact ((verdict_exact _ (.ofLevel .full) 0 (callWithSlots [16, 8]) rfl rfl rfl).1 report done).mp isOk
  · obtain ⟨report, done, failed⟩ := except_ok_of_any
      ((callerWithSlots [16, 10]).verifyCall { CheckConfig.ofLevel .full with cap := 1 } 0)
      (fun report => !report.isOk) (by decide +kernel)
    intro verified
    have isOk := ((verdict_exact _ _ 0 (callWithSlots [16, 10]) rfl rfl rfl).1 report done).mpr verified
    simp [isOk] at failed

end CallLowering
