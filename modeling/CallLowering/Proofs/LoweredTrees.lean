import CallLowering.Proofs.LoweredCalls

/-!
Lowering a tree lowers it, by induction on the depth that is left: a call through the passes over it,
every other node through its children.
-/

namespace CallLowering

open List

variable {copies : List LocalId} {s t : LoweringState} {id : NodeId} {data : Call}

variable (settings : Settings)

theorem Step.inScope_ok {α : Type} {step : Step α} {a : α} (done : inScope step s = .ok a t) :
    ∃ m, step s.opened = .ok a m ∧ t = m.closed := by
  unfold inScope at done
  cases ran : step s.opened with
  | ok b m =>
    simp only [ran] at done
    cases done
    exact ⟨m, rfl, rfl⟩
  | error stop m =>
    simp only [ran] at done
    cases done

theorem CopyPool.holding_held {before after : CopyPool}
    (taken : Holding before.openScope after copies) {var : LocalId} (mem : var ∈ copies) : var ∈ after.held := by
  unfold Holding at taken
  simp only [openScope, modifyHead_cons, nil_append] at taken
  rw [held, taken, flatten_cons]
  exact mem_append_left _ mem

namespace Lowering

-- The second half of the first visit of a call, once everything it holds is lowered.
def finishCall (settings : Settings) (id : CallId) : Step Unit := do
  Shape.shapeArgs settings id
  Interference.complete settings id
  let order ← Schedule.schedule (Schedule.costModel settings) id
  Materialize.materialize settings id order
  checkCall settings id

def lowerCallWith (settings : Settings) (finish : CallId → Step Unit) (lower : NodeId → Step Unit)
    (id : CallId) : Step Unit := do
  if (← Edit.call id).args.stage.isCompleted then refuse id .completedNotMaterialized
  AbiInfo.finalize settings id
  lowerTarget lower id
  let count := (← Edit.call id).args.size
  (List.range count).forM (lowerEarly Transform.identity lower id)
  finish id

def visitCallWith (settings : Settings) (finish : CallId → Step Unit) (lower : NodeId → Step Unit)
    (id : CallId) : Step Unit :=
  Step.inScope do
    if (← Edit.call id).args.isMaterialized then revisitCall Transform.identity lower id
    else lowerCallWith settings finish lower id

def lowerTreeWith (settings : Settings) (finish : CallId → Step Unit) : Nat → NodeId → Step Unit
  | 0, _ => throw (.fault .tooDeep)
  | depth + 1, id => do
    let size := (← get).proc.nodes.size
    overTree (visitCallWith settings finish (lowerTreeWith settings finish depth)) (size + 2) id

theorem lowerCall_eq_with (lower : NodeId → Step Unit) (id : CallId) :
    lowerCall settings Transform.identity lower id = lowerCallWith settings (finishCall settings) lower id :=
  rfl

theorem visitCall_eq_with (lower : NodeId → Step Unit) :
    visitCall settings Transform.identity lower = visitCallWith settings (finishCall settings) lower :=
  rfl

theorem lowerTree_eq_with (depth : Nat) :
    lowerTree settings Transform.identity depth = lowerTreeWith settings (finishCall settings) depth := by
  induction depth with
  | zero => rfl
  | succ depth ih =>
    funext id
    simp only [lowerTree, lowerTreeWith, ih, visitCall_eq_with]

theorem node_answers {proc : Procedure} {node : Node} (here : proc.nodes[id]? = some node) :
    Edit.node id proc = .ok node proc :=
  ask_ok_iff.mpr ⟨proc.node_ok_iff.mpr here, rfl⟩

variable {lower : NodeId → Step Unit} {call : CallId}

section Visits

variable {settings : Settings} {visit : CallId → Step Unit} {depth : Nat} {node : Node}

theorem overTree_plain (here : s.proc.nodes[id]? = some node) (isPlain : node.kind.call? = none) :
    overTree visit (depth + 1) id s = (node.kind.children.forM (overTree visit depth)
        >>= fun _ => (liftM (Edit.refreshNode id) : Step Unit)) s := by
  rw [overTree, bind_of_ok (Step.asks (node_answers here))]
  cases kind : node.kind with
  | call call =>
    rw [kind] at isPlain
    cases isPlain
  | _ => rfl

theorem overTree_call (here : s.proc.nodes[id]? = some node)
    (isCall : node.kind.call? = some call) : overTree visit (depth + 1) id s
      = (visit call >>= fun _ => (liftM (Edit.refreshNode id) : Step Unit)) s := by
  rw [overTree, bind_of_ok (Step.asks (node_answers here))]
  cases kind : node.kind with
  | call other =>
    rw [kind] at isCall
    cases isCall
    rfl
  | _ =>
    rw [kind] at isCall
    cases isCall

theorem visitCallWith_open {finish : CallId → Step Unit} (atCall : s.proc.calls[call]? = some data)
    (isOpen : data.args.isMaterialized = false) :
    visitCallWith settings finish lower call s = Step.inScope (lowerCallWith settings finish lower call) s := by
  have asked : (liftM (Edit.call call) : Step Call) s.opened = .ok data s.opened :=
    Step.asks (Edit.call_answers atCall)
  unfold visitCallWith Step.inScope
  rw [bind_of_ok asked, if_neg (by simp [isOpen])]

end Visits

theorem CallLowered.lowered {m : LoweringState} {below below' : List NodeId}
    (lowered : CallLowered call s.opened m data below below' copies)
    (forest : Forest s.proc [id] (below ++ [id])) (here : s.proc.kindAt id = some (.call call))
    (refreshed : Edit.refreshNode id m.proc = .ok () t.proc) (samePool : t.pool = m.pool.closeScope) :
    Lowered s t [id] (below ++ [id]) (below' ++ [id]) copies := by
  obtain ⟨_, parts, _, outside, _⟩ := forest.atRoot
  cases append_cancel_right parts
  have bound := forest.valid id (by simp)
  have there : m.proc.kindAt id = some (.call call) :=
    (lowered.grown.kindAt_outside bound outside).trans here
  have named : m.proc.callAt id = some call := m.proc.callAt_some_iff.mpr there
  have isCall : s.proc.callAt id = some call := s.proc.callAt_some_iff.mpr here
  have under : Forest m.proc (m.proc.owned id) below' := by
    rw [m.proc.owned_of_call there lowered.holds.here]
    exact lowered.holds.forest
  have grown : Extends (· ∈ below) (· ∈ s.proc.callsIn (below ++ [id])) s.proc m.proc := by
    refine lowered.grown.mono (fun _ mem => mem) fun other either => ?_
    rw [s.proc.callsIn_append]
    rcases either with rfl | mem
    · exact mem_append_right _ (mem_filterMap.mpr ⟨id, by simp, isCall⟩)
    · exact mem_append_left _ mem
  have reworked : Reworked s.proc t.proc [id] (below ++ [id]) (below' ++ [id]) copies := by
    refine Reworked.withTop forest grown under lowered.carries lowered.done (fun other isOther => ?_) refreshed
    cases named.symm.trans isOther
    exact ⟨data, lowered.holds.here, lowered.settled, lowered.owns⟩
  have refresh := Edit.refreshNode_extends refreshed
  have nowNamed : t.proc.callAt id = some call :=
    (refresh.callAt (Nat.lt_of_lt_of_le bound grown.size_le)).trans named
  have recorded : ∀ var ∈ copies, t.proc.Recorded (below' ++ [id]) var := by
    intro var held
    rcases lowered.recorded var held with nested | ⟨arg, mem, isTemp⟩
    · exact (nested.frame refresh under.valid (fun _ _ => not_false)).mono
        fun other mem => mem_append_left _ mem
    · exact ⟨call, data, arg, mem_filterMap.mpr ⟨id, by simp, nowNamed⟩,
        (refresh.callKept call not_false).trans lowered.holds.here, mem, isTemp⟩
  have areCopies : ∀ var ∈ copies, ∃ ty, t.proc.IsCopy var ty := by
    intro var held
    obtain ⟨ty, isCopy⟩ := lowered.sound.copies var (.inr (CopyPool.holding_held lowered.holding held))
    exact ⟨ty, isCopy.kept refresh⟩
  refine ⟨⟨reworked, areCopies, recorded, ?_, ?_⟩, ?_, ?_⟩
  · rw [samePool]
    exact (CopyPool.closeScope_sound lowered.sound).kept refresh
  · rw [samePool]
    exact CopyPool.closeScope_holding lowered.holding
  · intro other met
    exact .inr ⟨id, by simp, id, _, .here id call nowNamed, reworked.forest, met⟩
  · intro outermost limit within root isRoot found isOutermost
    cases mem_singleton.mp isRoot
    cases isOutermost with
    | here _ _ _ =>
      exact ⟨_, reworked.forest, reworked.isSealed forest.valid within
        (CopyPool.holding_once outermost lowered.holding lowered.sound) areCopies recorded⟩
    | under _ _ _ kind isKind isPlain _ _ =>
      rw [t.proc.callAt_eq isKind, isPlain] at nowNamed
      cases nowNamed

theorem overTree_lowers (lowers : Lowers lower) (depth : Nat) :
    Lowers (overTree (visitCall settings Transform.identity lower) depth) := by
  induction depth with
  | zero =>
    intro id s t seen _ _ _ done
    cases done
  | succ depth ih =>
    intro id s t seen forest fresh sound done
    obtain ⟨below, rfl, under, outside, callOutside⟩ := forest.atRoot
    obtain ⟨node, atId⟩ := forest.root_node
    have here := s.proc.kindAt_of atId rfl
    have freshBelow := fresh.subset fun other mem => mem_append_left [id] mem
    cases isCall : node.kind.call? with
    | none =>
      rw [overTree_plain atId isCall] at done
      simp only [bind_ok_iff, lift_step_edit_ok_iff] at done
      obtain ⟨_, m, ran, _, refreshed, rfl⟩ := done
      rw [s.proc.owned_of_kind here isCall] at under
      obtain ⟨below', copies, lowered⟩ := Lowered.each ih s below under freshBelow sound ran
      exact ⟨_, copies, lowered.plain forest here isCall refreshed rfl⟩
    | some call =>
      have named : s.proc.callAt id = some call := (s.proc.callAt_eq here).trans isCall
      have here := s.proc.callAt_some_iff.mp named
      obtain ⟨data, atCall, asBuilt⟩ := fresh call (mem_filterMap.mpr ⟨id, by simp, named⟩)
      rw [overTree_call atId isCall] at done
      simp only [bind_ok_iff, lift_step_edit_ok_iff] at done
      obtain ⟨_, _, ran, _, refreshed, rfl⟩ := done
      rw [visitCall_eq_with, visitCallWith_open atCall (by simp [ArgList.isMaterialized, asBuilt.stage]),
        ← lowerCall_eq_with] at ran
      obtain ⟨u, called, rfl⟩ := Step.inScope_ok ran
      rw [s.proc.owned_of_call here atCall] at under
      obtain ⟨data', below', copies, lowered⟩ := lowerCall_lowered
        (s := s.opened) lowers ⟨atCall, under, callOutside call named⟩ asBuilt freshBelow
        (CopyPool.openScope_sound sound) called
      exact ⟨_, copies, lowered.lowered forest here refreshed rfl⟩

theorem lowerTree_lowers (depth : Nat) : Lowers (lowerTree settings Transform.identity depth) := by
  induction depth with
  | zero =>
    intro id s t seen _ _ _ done
    cases done
  | succ depth ih => exact fun id s t seen => overTree_lowers settings ih (s.proc.nodes.size + 2) id s t seen

end Lowering

end CallLowering
