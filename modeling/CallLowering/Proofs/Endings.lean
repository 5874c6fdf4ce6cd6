import CallLowering.Proofs.Growth
import CallLowering.Proofs.StageFaults

/-!
How runs end, well or ill. A run is described from its end backwards: what is left to show of the parts behind
is the condition under which the part in front ends well.
-/

namespace CallLowering

variable {id : CallId} {reason : Inconsistency} {s : LoweringState} {left : Procedure → Prop} {allowed : Stop → Prop}

def Ends {ε σ α : Type} (result : EStateM.Result ε σ α) (well : α → σ → Prop)
    (ill : ε → σ → Prop) : Prop :=
  match result with
  | .ok a s => well a s
  | .error e s => ill e s

-- A refusal leaves such a state, and no stage raises a fault, the allowed ones apart.
def Leaves {σ : Type} (allowed : Stop → Prop) (left : σ → Prop) (stop : Stop) (s : σ) : Prop :=
  (stop.isStage = false ∨ allowed stop) ∧ ∀ refusal, stop = .refusal refusal → left s

-- The state is such a one at the end, and after a refusal.
abbrev EndsIn {σ α : Type} (allowed : Stop → Prop) (held : σ → Prop) (result : EStateM.Result Stop σ α) : Prop :=
  Ends result (fun _ => held) (Leaves allowed held)

theorem Leaves.mono {σ : Type} {left left' : σ → Prop} {stop : Stop} {s : σ}
    (mono : ∀ t, left t → left' t) (leaves : Leaves allowed left stop s) : Leaves allowed left' stop s :=
  ⟨leaves.1, fun refusal isRefusal => mono s (leaves.2 refusal isRefusal)⟩

theorem Avoids.raises {α : Type} {x : Except Stop α} (avoids : Avoids Stop.isStage x) :
    ∀ stop, x = .error stop → stop.isStage = false ∨ allowed stop :=
  fun stop failed => .inl (avoids stop failed)

def Spares (fault : Fault) (_ : Procedure) : Prop := fault.isStage = false

namespace Ends

section Rules

variable {ε σ α β : Type} {well : α → σ → Prop} {ill : ε → σ → Prop}
  {result : EStateM.Result ε σ α} {f : β → EStateM ε σ α} {well' : α → σ → Prop} {items : List β}

theorem mono {ill' : ε → σ → Prop} (ends : Ends result well ill) (wellMono : ∀ a s, well a s → well' a s)
    (illMono : ∀ e s, ill e s → ill' e s) : Ends result well' ill' := by
  cases result with
  | ok a s => exact wellMono a s ends
  | error e s => exact illMono e s ends

theorem weaken (ends : Ends result well ill) (wellMono : ∀ a s, well a s → well' a s) : Ends result well' ill :=
  ends.mono wellMono fun _ _ ended => ended

theorem ran (ends : Ends result well ill) : Ends result (fun a s => result = .ok a s ∧ well a s) ill := by
  cases result with
  | ok a s => exact ⟨rfl, ends⟩
  | error e s => exact ends

theorem bind {x : EStateM ε σ β} {s : σ} {middle : β → σ → Prop} (first : Ends (x s) middle ill)
    (rest : ∀ b t, middle b t → Ends (f b t) well ill) : Ends ((x >>= f) s) well ill := by
  change Ends (EStateM.bind x f s) well ill
  unfold EStateM.bind
  cases ran : x s with
  | ok b t =>
    rw [ran] at first
    exact rest b t first
  | error e t =>
    rw [ran] at first
    exact first

theorem optional {condition : Prop} [Decidable condition] {step : EStateM ε σ PUnit}
    {after : EStateM ε σ α} {middle : σ → Prop} {s : σ} (here : middle s)
    (stepped : Ends (step s) (fun _ => middle) ill) (rest : ∀ t, middle t → Ends (after t) well ill) :
    Ends ((if condition then step >>= fun _ => after else after) s) well ill := by
  split
  · exact bind stepped fun _ t reached => rest t reached
  · exact rest s here

theorem forM {f : β → EStateM ε σ PUnit} (holds : σ → Prop)
    (round : ∀ item ∈ items, ∀ s, holds s → Ends (f item s) (fun _ => holds) ill) {s : σ}
    (start : holds s) : Ends (items.forM f s) (fun _ => holds) ill := by
  induction items generalizing s with
  | nil => exact start
  | cons item rest ih =>
    obtain ⟨here, later⟩ := List.forall_mem_cons.mp round
    exact bind (here s start) fun _ t reached => ih later reached

theorem mapM (holds : σ → Prop) (good : α → σ → Prop)
    (round : ∀ item ∈ items, ∀ s, holds s → Ends (f item s) (fun a t => holds t ∧ good a t
      ∧ ∀ other, good other s → good other t) ill) {s : σ} (start : holds s) :
    Ends (items.mapM f s) (fun results t => holds t ∧ (∀ a ∈ results, good a t)
      ∧ ∀ other, good other s → good other t) ill := by
  induction items generalizing s with
  | nil => exact ⟨start, by simp, fun _ known => known⟩
  | cons item rest ih =>
    obtain ⟨here, later⟩ := List.forall_mem_cons.mp round
    rw [List.mapM_cons]
    refine bind (here s start) fun a t reached => ?_
    obtain ⟨atT, isGood, keeps⟩ := reached
    refine bind (ih later atT) fun others u reached => ?_
    obtain ⟨atU, areGood, keeps'⟩ := reached
    exact ⟨atU, List.forall_mem_cons.mpr ⟨keeps' a isGood, areGood⟩,
      fun other known => keeps' other (keeps other known)⟩

end Rules

section Lifts

variable {α : Type} {allowed : Stop → Prop}
  {well : α → Procedure → Prop} {σ : Type} {step : Edit α} {call : CallId}

theorem edit {p : Procedure} (ends : Ends (step p) well Spares) :
    Ends ((liftM step : Attempt α) p) well (Leaves allowed left) := by
  simp only [liftM, monadLift, MonadLift.monadLift]
  cases ran : step p with
  | ok a q =>
    rw [ran] at ends
    exact ends
  | error fault q =>
    rw [ran] at ends
    exact ⟨.inl ends, fun _ isRefusal => by cases isRefusal⟩

theorem attempt {run : Attempt α} (ends : Ends (run s.proc) well (Leaves allowed left)) :
    Ends ((liftM run : Step α) s) (fun a t => well a t.proc) (Leaves allowed fun t => left t.proc) := by
  simp only [liftM, monadLift, MonadLift.monadLift]
  cases ran : run s.proc with
  | ok a q =>
    rw [ran] at ends
    exact ends
  | error stop q =>
    rw [ran] at ends
    exact ends

theorem stepEdit {left : LoweringState → Prop} (ends : Ends (step s.proc) well Spares) :
    Ends ((liftM step : Step α) s) (fun a t => well a t.proc) (Leaves allowed left) := by
  have inner : Ends ((liftM step : Attempt α) s.proc) well (Leaves allowed fun _ => False) := edit ends
  exact (attempt inner).mono (fun _ _ ended => ended) fun _ _ => Leaves.mono fun _ never => never.elim

theorem liftFault {x : Except Fault α} {s : σ} {left : σ → Prop} (avoids : Avoids Fault.isStage x) :
    Ends ((liftM x : EStateM Stop σ α) s) (fun a t => t = s ∧ x = .ok a) (Leaves allowed left) := by
  cases x with
  | ok a => exact ⟨rfl, rfl⟩
  | error fault => exact ⟨.inl (avoids fault rfl), fun _ isRefusal => by cases isRefusal⟩

theorem liftStop {x : Except Stop α} {s : σ} {left : σ → Prop}
    (avoids : ∀ stop, x = .error stop → stop.isStage = false ∨ allowed stop) (here : left s) :
    Ends ((liftM x : EStateM Stop σ α) s) (fun a t => t = s ∧ x = .ok a) (Leaves allowed left) := by
  cases x with
  | ok a => exact ⟨rfl, rfl⟩
  | error stop => exact ⟨avoids stop rfl, fun _ _ => here⟩

theorem refuse {s : σ} {well : α → σ → Prop} {left : σ → Prop} (here : left s) :
    Ends ((CallLowering.refuse call reason : EStateM Stop σ α) s) well (Leaves allowed left) :=
  ⟨.inl rfl, fun _ _ => here⟩

theorem refuseFirst {β : Type} {f : β → EStateM Stop σ α} {s : σ} {well : α → σ → Prop} {left : σ → Prop}
    (here : left s) :
    Ends (((CallLowering.refuse call reason : EStateM Stop σ β) >>= f) s) well (Leaves allowed left) :=
  ⟨.inl rfl, fun _ _ => here⟩

end Lifts

end Ends

namespace Edit

variable {p : Procedure} {allowed : Stop → Prop}

theorem ask_ends {α : Type} {question : Procedure → Except Fault α} (avoids : Avoids Fault.isStage (question p)) :
    Ends (ask question p) (fun a q => q = p ∧ question p = .ok a) Spares := by
  unfold ask
  cases asked : question p with
  | ok a => exact ⟨rfl, rfl⟩
  | error fault => exact avoids fault asked

theorem node_ends (id : NodeId) : Ends (node id p) (fun node q => q = p ∧ p.nodes[id]? = some node) Spares :=
  (ask_ends (p.node_avoids id)).weaken fun _ _ found => ⟨found.1, p.node_ok_iff.mp found.2⟩

theorem call_ends (id : CallId) : Ends (call id p) (fun data q => q = p ∧ p.calls[id]? = some data) Spares :=
  (ask_ends (p.call_avoids id)).weaken fun _ _ found => ⟨found.1, p.call_ok_iff.mp found.2⟩

theorem arg_ends (id : CallId) (index : Nat) : Ends (arg id index p) (fun arg q => q = p
    ∧ ∃ data, p.calls[id]? = some data ∧ data.args.args[index]? = some arg) Spares := by
  have avoids := (p.call_avoids id).bind fun data => data.args.arg_avoids index
  refine (ask_ends avoids).weaken fun arg q found => ?_
  obtain ⟨data, called, atIndex⟩ := except_bind_ok_iff.mp found.2
  exact ⟨found.1, data, p.call_ok_iff.mp called, data.args.arg_ok_iff.mp atIndex⟩

theorem addNode_ends (kind : NodeKind) (ty : ValueType) :
    Ends (addNode kind ty p) (fun id q => addNode kind ty p = .ok id q) Spares := by
  have ends : Ends (addNode kind ty p) (fun _ _ => True) Spares :=
    Ends.bind (ask_ends (p.impactOf_avoids kind)) fun _ _ _ => trivial
  exact ends.ran.weaken fun _ _ ended => ended.1

theorem replaceNode_ends (id : NodeId) {kind : NodeKind} (ty : ValueType) :
    Ends (replaceNode id kind ty p) (fun _ q => replaceNode id kind ty p = .ok () q) Spares := by
  have ends : Ends (replaceNode id kind ty p) (fun _ _ => True) Spares :=
    Ends.bind (ask_ends (p.impactOf_avoids kind)) fun _ _ _ =>
      Ends.bind (node_ends id) fun _ _ _ => trivial
  exact ends.ran.weaken fun _ _ ended => ended.1

theorem refreshNode_ends (id : NodeId) : Ends (refreshNode id p) (fun _ q => refreshNode id p = .ok () q) Spares := by
  have ends : Ends (refreshNode id p) (fun _ _ => True) Spares :=
    Ends.bind (node_ends id) fun node q _ =>
      Ends.bind (ask_ends (q.impactOf_avoids node.kind)) fun _ _ _ => trivial
  exact ends.ran.weaken fun _ _ ended => ended.1

theorem modifyCall_ends (id : CallId) (step : Call → Call) :
    Ends (modifyCall id step p)
      (fun _ q => ∃ data, p.calls[id]? = some data ∧ q = p.setCall id (step data)) Spares := by
  refine Ends.bind (call_ends id) fun data q found => ?_
  obtain ⟨rfl, here⟩ := found
  exact ⟨data, here, rfl⟩

theorem modifyArgs_ends {step : ArgList → Except Fault ArgList}
    (avoids : ∀ data, p.calls[id]? = some data → Avoids Fault.isStage (step data.args)) :
    Ends (modifyArgs id step p) (fun _ q => ∃ data args, p.calls[id]? = some data
      ∧ step data.args = .ok args ∧ q = p.setCall id { data with args }) Spares := by
  refine Ends.bind (call_ends id) fun data q found => ?_
  obtain ⟨rfl, here⟩ := found
  refine Ends.bind (ask_ends (avoids data here)) fun args q stepped => ?_
  obtain ⟨rfl, made⟩ := stepped
  exact ⟨data, args, here, made, rfl⟩

theorem modifyArg_ends (id : CallId) (index : Nat) (step : Argument → Argument) :
    Ends (modifyArg id index step p) (fun _ q => ∃ data arg, p.calls[id]? = some data
      ∧ data.args.args[index]? = some arg
      ∧ q = p.setCall id (data.withArgs (data.args.args.set index (step arg)))) Spares := by
  have avoids : ∀ list : ArgList, Avoids Fault.isStage (do
      let _ ← list.arg index
      pure (list.modifyArg index step)) := fun list => (list.arg_avoids index).bind fun _ => .pure _
  exact (modifyArgs_ends fun data _ => avoids data.args).ran.weaken fun _ q ended =>
    modifyArg_ok ended.1

theorem knownCall_ends {α : Type} {rest : Call → Attempt α} {well : α → Procedure → Prop}
    (known : ∀ data, p.calls[id]? = some data →
      Ends (((liftM (call id) : Attempt Call) >>= rest) p) well (Leaves allowed left)) :
    Ends (((liftM (call id) : Attempt Call) >>= rest) p) well (Leaves allowed left) := by
  cases here : p.calls[id]? with
  | none =>
    refine Ends.bind (Ends.edit (call_ends id)) ?_
    rintro data q ⟨rfl, there⟩
    cases here.symm.trans there
  | some data => exact known data here

end Edit

end CallLowering
