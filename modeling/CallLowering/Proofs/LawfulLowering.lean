import CallLowering.Proofs.Idempotence
import CallLowering.Proofs.LawfulCalls

/-! Lowering keeps every list lawful, also where it stops halfway. The induction is on the depth. -/

namespace CallLowering

open Edit

variable {p : Procedure} {call : CallId} {data : Call} {id : NodeId}

-- What stays the same during one run: the levels of the calls, and the laws they keep.
structure Regime where
  level : CallId → ℚ
  law : CallId → Call → Prop

namespace Regime

structure Orderly (regime : Regime) (rank : NodeId → ℚ) (p : Procedure) : Prop where
  ranked : p.Ranked rank regime.level
  lawful : ∀ (call : CallId) (data : Call), p.calls[call]? = some data → regime.law call data

-- The way from `p` to `q` keeps the ranks there were, and the calls above the bound. What it makes is
-- made for calls within the bound.
structure Within (regime : Regime) (bound : ℚ) (rank now : NodeId → ℚ) (p q : Procedure) : Prop where
  same : ∀ id < p.nodes.size, now id = rank id
  new : ∀ id, p.nodes.size ≤ id → id < q.nodes.size →
    ∃ call < p.calls.size, regime.level call ≤ bound ∧ now id < regime.level call
  grown : p.nodes.size ≤ q.nodes.size
  relists : p.Relists q
  count : q.calls.size = p.calls.size
  others : ∀ call, bound < regime.level call → q.calls[call]? = p.calls[call]?

def Reaches (regime : Regime) (bound : ℚ) (rank : NodeId → ℚ) (p q : Procedure) : Prop :=
  ∃ now, regime.Orderly now q ∧ regime.Within bound rank now p q

def Stands (regime : Regime) (p : Procedure) : Prop := ∃ rank, regime.Orderly rank p

def site (regime : Regime) (rank : NodeId → ℚ) (p : Procedure) (call : CallId) : Site :=
  ⟨p, rank, regime.level, call⟩

variable {regime : Regime} {bound : ℚ} {rank now : NodeId → ℚ} {p q r : Procedure} {allowed : Stop → Prop}
  {small : ℚ}

theorem Within.refl (regime : Regime) (bound : ℚ) (rank : NodeId → ℚ) (p : Procedure) :
    regime.Within bound rank rank p p where
  same := fun _ _ => rfl
  new := fun _ isNew mem => absurd mem (Nat.not_lt.mpr isNew)
  grown := Nat.le_refl _
  relists := .of_same fun _ _ here => here
  count := rfl
  others := fun _ _ => rfl

theorem Reaches.refl (orderly : regime.Orderly rank p) : regime.Reaches bound rank p p :=
  ⟨rank, orderly, .refl regime bound rank p⟩

theorem Reaches.stands (reaches : regime.Reaches bound rank p q) : regime.Stands q := by
  obtain ⟨now, orderly, _⟩ := reaches
  exact ⟨now, orderly⟩

theorem Within.trans {later : NodeId → ℚ} (first : regime.Within bound rank now p q)
    (second : regime.Within small now later q r) (le : small ≤ bound) :
    regime.Within bound rank later p r where
  same := fun id old => (second.same id (Nat.lt_of_lt_of_le old first.grown)).trans (first.same id old)
  new := by
    intro id isNew mem
    by_cases early : id < q.nodes.size
    · rw [second.same id early]
      exact first.new id isNew early
    · obtain ⟨call, known, low, below⟩ := second.new id (Nat.le_of_not_lt early) mem
      exact ⟨call, first.count ▸ known, low.trans le, below⟩
  grown := first.grown.trans second.grown
  relists := first.relists.trans second.relists
  count := second.count.trans first.count
  others := fun call above => (second.others call (le.trans_lt above)).trans (first.others call above)

theorem Reaches.mono (reaches : regime.Reaches small rank p q) (le : small ≤ bound) :
    regime.Reaches bound rank p q := by
  obtain ⟨now, orderly, within⟩ := reaches
  refine ⟨now, orderly, within.same, fun id isNew mem => ?_, within.grown, within.relists, within.count,
    fun call above => within.others call (le.trans_lt above)⟩
  obtain ⟨call, known, low, below⟩ := within.new id isNew mem
  exact ⟨call, known, low.trans le, below⟩

theorem Within.reaches (first : regime.Within bound rank now p q)
    (second : regime.Reaches small now q r) (le : small ≤ bound) : regime.Reaches bound rank p r := by
  obtain ⟨later, orderly, within⟩ := second
  exact ⟨later, orderly, first.trans within le⟩

variable (orderly : regime.Orderly rank p)

include orderly

theorem Orderly.enter (here : p.calls[call]? = some data) {held : Call → Prop} (isHeld : held data) :
    (regime.site rank p call).Holds held p :=
  ⟨⟨rank, orderly.ranked, fun _ _ => rfl, fun _ isNew bound => absurd isNew (Nat.not_le.mpr bound),
    Nat.le_refl _, .of_same fun _ _ here => here, rfl, fun _ _ => rfl⟩, data, here, isHeld⟩

theorem Orderly.leave (holds : (regime.site rank p call).Holds (regime.law call) q) :
    regime.Reaches (regime.level call) rank p q := by
  obtain ⟨⟨now, work⟩, data, here, lawful⟩ := holds
  have known : call < p.calls.size := by
    have mem := lt_size here
    exact work.count ▸ mem
  refine ⟨now, ⟨work.ranked, fun other otherData atOther => ?_⟩, work.same, ?_, work.grown, work.relists,
    work.count, ?_⟩
  · by_cases same : other = call
    · subst same
      cases here.symm.trans atOther
      exact lawful
    · exact orderly.lawful other otherData (work.others other same ▸ atOther)
  · exact fun id isNew mem => ⟨call, known, le_refl _, work.new id isNew mem⟩
  · intro other above
    exact work.others other fun same => absurd above (same ▸ lt_irrefl _)

theorem Orderly.left {stop : Stop}
    (ended : Leaves allowed ((regime.site rank p call).Holds (regime.law call)) stop q) :
    Leaves allowed regime.Stands stop q :=
  ended.mono fun _ holds => (orderly.leave holds).stands

theorem Orderly.mentioned (here : p.calls[call]? = some data) (member : id ∈ data.mentions) :
    rank id < regime.level call :=
  (orderly.ranked.mentioned call data here id member).2

theorem Orderly.refresh (done : Edit.refreshNode id p = .ok () q) : regime.Reaches bound rank p q := by
  obtain ⟨kinds, calls, _⟩ := refreshNode_same done
  have size : q.nodes.size = p.nodes.size := by
    obtain ⟨_, _, _, _, rfl⟩ := refreshNode_ok done
    exact Array.size_setIfInBounds
  refine ⟨rank, ⟨⟨?_, ?_, ?_⟩, ?_⟩, fun _ _ => rfl, fun _ isNew mem => ?_, Nat.le_of_eq size.symm,
    .of_same fun _ _ here => by rwa [kinds], by rw [calls], fun _ _ => by rw [calls]⟩
  · rw [kinds, size]
    exact orderly.ranked.children
  · rw [kinds, calls]
    exact orderly.ranked.callers
  · rw [calls, size]
    exact orderly.ranked.mentioned
  · rw [calls]
    exact orderly.lawful
  · exact absurd (size ▸ mem) (Nat.not_lt.mpr isNew)

end Regime

theorem Ends.inScope {α : Type} {step : Step α} {s : LoweringState} {well : α → Procedure → Prop}
    {allowed : Stop → Prop} {left : Procedure → Prop}
    (ends : Ends (step s.opened) (fun a t => well a t.proc)
      (Leaves allowed fun t => left t.proc)) :
    Ends (Step.inScope step s) (fun a t => well a t.proc) (Leaves allowed fun t => left t.proc) := by
  unfold Step.inScope
  cases ran : step s.opened with
  | ok a t =>
    rw [ran] at ends
    exact ends
  | error stop t =>
    rw [ran] at ends
    exact ends

namespace Lowering

variable {regime : Regime} {rank : NodeId → ℚ} {lower : NodeId → Step Unit} {s : LoweringState}
  {id : CallId} {data : Call} {allowed : Stop → Prop}

-- What lowering a tree does to an orderly state.
def Bounded (regime : Regime) (allowed : Stop → Prop) (lower : NodeId → Step Unit) : Prop :=
  ∀ (id : NodeId) (rank : NodeId → ℚ) (s : LoweringState), regime.Orderly rank s.proc →
    Ends (lower id s) (fun _ t => regime.Reaches (rank id) rank s.proc t.proc)
      (Leaves allowed fun t => regime.Stands t.proc)

def Spared (regime : Regime) (id : CallId) (data : Call) (rank : NodeId → ℚ) (p q : Procedure) : Prop :=
  regime.Reaches (regime.level id) rank p q ∧ q.calls[id]? = some data

-- What lowers the nodes that a call refers to, and what takes over where a path gets too long.
structure Runner where
  lower : NodeId → Step Unit
  beyond : NodeId → Step Unit

-- A way to tell how runs end that lower further nodes. What is known of those is up to it.
structure Calculus (regime : Regime) (allowed : Stop → Prop) where
  Tells : {α : Type} → (Runner → Step α) → LoweringState → (α → LoweringState → Prop) → Prop
  ends : ∀ {α : Type} {x : Step α} {s : LoweringState} {well : α → LoweringState → Prop},
    Ends (x s) well (Leaves allowed fun t => regime.Stands t.proc) → Tells (fun _ => x) s well
  weaken : ∀ {α : Type} {x : Runner → Step α} {s : LoweringState}
    {well well' : α → LoweringState → Prop},
    Tells x s well → (∀ a t, well a t → well' a t) → Tells x s well'
  bind : ∀ {α β : Type} {x : Runner → Step β} {f : Runner → β → Step α}
    {s : LoweringState} {middle : β → LoweringState → Prop} {well : α → LoweringState → Prop},
    Tells x s middle → (∀ b t, middle b t → Tells (fun run => f run b) t well) →
    Tells (fun run => x run >>= f run) s well
  inScope : ∀ {α : Type} {x : Runner → Step α} {s : LoweringState}
    {well : α → Procedure → Prop},
    Tells x { s with pool := s.pool.openScope } (fun a t => well a t.proc) →
    Tells (fun run => Step.inScope (x run)) s fun a t => well a t.proc

namespace Calculus

variable (calculus : Calculus regime allowed)

theorem edit {α : Type} {step : Edit α} {well : α → Procedure → Prop} (ends : Ends (step s.proc) well Spares) :
    calculus.Tells (fun _ => (liftM step : Step α)) s fun a t => well a t.proc :=
  calculus.ends (Ends.stepEdit ends)

theorem forM {β : Type} {f : Runner → β → Step Unit} (holds : LoweringState → Prop) {items : List β}
    (round : ∀ item ∈ items, ∀ s, holds s → calculus.Tells (fun run => f run item) s fun _ => holds)
    (start : holds s) : calculus.Tells (fun run => items.forM (f run)) s fun _ => holds := by
  induction items generalizing s with
  | nil => exact calculus.ends start
  | cons item rest ih =>
    obtain ⟨here, later⟩ := List.forall_mem_cons.mp round
    exact calculus.bind (here s start) fun _ t reached => ih later reached

def Spares (id : CallId) (data : Call) (rank : NodeId → ℚ)
    (p : Procedure) (x : Runner → Step Unit) (s : LoweringState) : Prop :=
  calculus.Tells x s fun _ t => Spared regime id data rank p t.proc

def Mentions (id : CallId) (rank : NodeId → ℚ) (p : Procedure) : Prop :=
  ∀ {data : Call} {s : LoweringState}, Spared regime id data rank p s.proc →
    ∀ node ∈ data.mentions, calculus.Spares id data rank p (fun run => run.lower node) s

section Mentions

variable {calculus} (mentions : calculus.Mentions id rank p) (spared : Spared regime id data rank p s.proc)

include mentions spared

theorem lowerTarget_spares : calculus.Spares id data rank p (fun run => lowerTarget run.lower id) s := by
  refine calculus.bind (calculus.edit (call_ends id)) fun same t found => ?_
  obtain ⟨sameProc, atSame⟩ := found
  cases spared.2.symm.trans atSame
  rw [← sameProc] at spared
  cases isTarget : data.target.node? with
  | none => exact calculus.ends spared
  | some target => exact mentions spared target (Call.mem_mentions.mpr (.inr (.inl isTarget)))

theorem lowerNode_spares {read : Argument → Option NodeId} {write : NodeId → Argument → Argument} (index : Nat)
    (isNode : ∀ arg node, read arg = some node → arg.early = some node ∨ arg.late = some node)
    (idle : ∀ arg node, read arg = some node → write node arg = arg) :
    calculus.Spares id data rank p (fun run => lowerNode read write Transform.identity run.lower id index) s := by
  refine calculus.bind (calculus.edit (arg_ends id index)) fun arg t found => ?_
  obtain ⟨sameProc, same, atSame, atIndex⟩ := found
  cases spared.2.symm.trans atSame
  rw [← sameProc] at spared
  cases isRead : read arg with
  | none => exact calculus.ends spared
  | some node =>
    have member := Call.mem_mentions.mpr (.inl ⟨arg, List.mem_of_getElem? atIndex, isNode arg node isRead⟩)
    refine calculus.bind (mentions spared node member) fun _ t spared => ?_
    have seen : calculus.Tells (fun _ => transformed Transform.identity node) t
        fun value u => value = node ∧ u.proc = t.proc := calculus.ends ⟨rfl, rfl⟩
    refine calculus.bind seen fun value u same => ?_
    obtain ⟨sameNode, sameProc⟩ := same
    rw [← sameProc] at spared
    rw [sameNode]
    have ends : Ends (Edit.modifyArg id index (write node) u.proc) (fun _ q => q = u.proc) CallLowering.Spares := by
      rw [modifyArg_idle spared.2 (write node) atIndex (idle arg node isRead)]
      rfl
    exact calculus.weaken (calculus.edit ends) fun _ v sameProc => by rwa [sameProc]

end Mentions

theorem revisitCall_reaches {calculus : Calculus regime allowed} (mentions : calculus.Mentions id rank s.proc)
    (orderly : regime.Orderly rank s.proc) (here : s.proc.calls[id]? = some data) :
    calculus.Tells (fun run => revisitCall Transform.identity run.lower id) s
      fun _ t => regime.Reaches (regime.level id) rank s.proc t.proc := by
  have start : Spared regime id data rank s.proc s.proc := ⟨.refl orderly, here⟩
  refine calculus.bind (lowerTarget_spares mentions start) fun _ t spared => ?_
  refine calculus.bind (calculus.edit (call_ends id)) fun _ u found => ?_
  rw [← found.1] at spared
  refine calculus.weaken (calculus.forM (fun u : LoweringState => Spared regime id data rank s.proc u.proc) ?_
    spared) fun _ _ reached => reached.1
  exact fun index _ _ reached => lowerNode_spares mentions reached index (fun _ _ => .inr)
    fun _ _ isLate => by rw [← isLate]

end Calculus

theorem checkCall_ends {settings : Settings} {held : Procedure → Prop} (holds : held p) :
    EndsIn allowed held (checkCall settings id p) := by
  refine Ends.bind (Ends.edit (ask_ends (p.verifyCall_avoids id))) ?_
  rintro report _ ⟨rfl, _⟩
  split
  · exact ⟨.inl rfl, fun _ _ => holds⟩
  · exact holds

-- The way over a tree, with `beyond` for what lies at the end of a path of that length.
def overTreeOr (beyond : NodeId → Step Unit) (visit : CallId → Step Unit) : Nat → NodeId → Step Unit
  | 0 => beyond
  | length + 1 => fun id => do
    let data ← Edit.node id
    match data.kind with
    | .call call => visit call
    | kind => kind.children.forM (overTreeOr beyond visit length)
    Edit.refreshNode id

theorem overTree_eq_or (visit : CallId → Step Unit) (length : Nat) :
    overTree visit length = overTreeOr (fun _ => throw (.fault .tooDeep)) visit length := by
  induction length with
  | zero => rfl
  | succ length ih =>
    funext id
    rw [overTreeOr, ← ih]
    rfl

theorem lowerTree_succ (settings : Settings) (transform : Transform) (depth : Nat) (id : NodeId)
    (s : LoweringState) : lowerTree settings transform (depth + 1) id s
      = overTree (visitCall settings transform (lowerTree settings transform depth)) (s.proc.nodes.size + 2) id s :=
  rfl

section Calls

-- Lowering under some settings. The lists that were finalized before come with the settings of that time.
variable {known : CallId → Option Settings} {settings : Settings}
  (laws : regime.law = fun call => Call.LawfulIn (known call) settings)

include laws

theorem finishCall_ends (orderly : regime.Orderly rank s.proc) (here : s.proc.calls[id]? = some data)
    (finalized : data.args.stage = .finalized) :
    Ends ((do
        Shape.shapeArgs settings id
        Interference.complete settings id
        let order ← Schedule.schedule (Schedule.costModel settings) id
        Materialize.materialize settings id order
        checkCall settings id : Step Unit) s)
      (fun _ t => regime.Reaches (regime.level id) rank s.proc t.proc)
      (Leaves allowed fun t => regime.Stands t.proc) := by
  have lawful : data.LawfulIn (known id) settings := by simpa only [laws] using orderly.lawful id data here
  have start : (regime.site rank s.proc id).Holds data.Recast s.proc := orderly.enter here (.refl data)
  have recast : ∀ after, data.Recast after → after.LawfulIn (known id) settings := by
    intro after recast
    exact lawful.recast recast (by rw [finalized]; rfl) (by simp [finalized])
  have left := fun (q : Procedure) (holds : (regime.site rank s.proc id).Holds
    (Call.LawfulIn (known id) settings) q) => orderly.leave (by simpa only [laws] using holds)
  refine Ends.mono ?_ (fun _ t reached => left t.proc reached) fun _ _ =>
    Leaves.mono fun t holds => (left t.proc holds).stands
  refine Ends.bind ((start.shapeArgs settings).mono (fun _ _ reached => reached) fun _ _ =>
    Leaves.mono fun _ holds => holds.weaken recast) ?_
  intro _ t shaped
  have shaped : (regime.site rank s.proc id).Holds (fun after =>
      after.LawfulIn (known id) settings ∧ after.args.stage = .finalized) t.proc :=
    shaped.weaken fun after same => ⟨recast after same, same.stage.trans finalized⟩
  refine Ends.bind (Ends.attempt shaped.complete) fun _ u completed => ?_
  rw [Schedule.schedule_eq]
  refine Ends.bind (Ends.stepEdit completed.schedule) fun order v scheduled => ?_
  refine Ends.bind (Ends.attempt scheduled.materialize) fun _ w settled => ?_
  exact Ends.attempt (checkCall_ends (settled.weaken fun _ both => both.1))

theorem finalize_ends (orderly : regime.Orderly rank p) (here : p.calls[id]? = some data)
    (raises : settings.RaisesOnly allowed) :
    Ends (AbiInfo.finalize settings id p) (fun _ q => ∃ after, Spared regime id after rank p q
          ∧ (data.args.stage.isCompleted = false → after.args.stage = .finalized))
      (Leaves allowed regime.Stands) := by
  have start : (regime.site rank p id).Holds (Call.LawfulIn (known id) settings) p :=
    orderly.enter here (by simpa only [laws] using orderly.lawful id data here)
  refine (start.finalize here raises).mono (fun _ q finalized => ?_) fun stop q ended => ?_
  · have reached : regime.Reaches (regime.level id) rank p q :=
      orderly.leave (finalized.weaken fun _ both => by simpa only [laws] using both.1)
    obtain ⟨_, after, atQ, _, stage⟩ := finalized
    exact ⟨after, ⟨reached, atQ⟩, stage⟩
  · exact orderly.left (by simpa only [laws] using ended)

section Visits

variable {calculus : Calculus regime allowed} (mentions : calculus.Mentions id rank s.proc)
  (orderly : regime.Orderly rank s.proc) (raises : settings.RaisesOnly allowed)

include mentions orderly raises

theorem Calculus.lowerCall_reaches (here : s.proc.calls[id]? = some data) :
    calculus.Tells (fun run => lowerCall settings Transform.identity run.lower id) s
      fun _ t => regime.Reaches (regime.level id) rank s.proc t.proc := by
  refine calculus.bind (calculus.edit (call_ends id)) fun same t found => ?_
  obtain ⟨sameProc, atSame⟩ := found
  cases here.symm.trans atSame
  rw [← sameProc] at mentions orderly here ⊢
  dsimp only
  by_cases isCompleted : data.args.stage.isCompleted
  · simp only [if_pos isCompleted]
    have refused : calculus.Tells (fun _ => refuse id .completedNotMaterialized) t fun (_ : Unit) _ => False :=
      calculus.ends (Ends.refuse ⟨rank, orderly⟩)
    exact calculus.bind refused fun _ _ never => never.elim
  simp only [if_neg isCompleted]
  refine calculus.bind (calculus.ends (Ends.attempt (finalize_ends laws orderly here raises))) ?_
  rintro _ u ⟨placed, spared, stage⟩
  refine calculus.bind (lowerTarget_spares mentions spared) fun _ v spared => ?_
  refine calculus.bind (calculus.edit (call_ends id)) fun _ w found => ?_
  rw [← found.1] at spared
  refine calculus.bind (calculus.forM (fun u : LoweringState => Spared regime id placed rank t.proc u.proc)
    (fun index _ _ reached => lowerNode_spares mentions reached index (fun _ _ => .inl)
      fun _ _ isEarly => by rw [← isEarly]) spared) fun _ x spared => ?_
  obtain ⟨⟨later, orderlyX, within⟩, atX⟩ := spared
  have isFinalized : placed.args.stage = .finalized := stage (by simpa using isCompleted)
  exact calculus.weaken (calculus.ends (finishCall_ends laws orderlyX atX isFinalized)) fun _ y reached =>
    within.reaches reached (le_refl _)

theorem Calculus.visitCall_reaches :
    calculus.Tells (fun run => visitCall settings Transform.identity run.lower id) s
      fun _ t => regime.Reaches (regime.level id) rank s.proc t.proc := by
  refine calculus.inScope (calculus.bind (calculus.edit (call_ends id)) fun data t found => ?_)
  obtain ⟨sameProc, here⟩ := found
  have sameProc : t.proc = s.proc := sameProc
  have here : t.proc.calls[id]? = some data := sameProc ▸ here
  rw [← sameProc] at mentions orderly ⊢
  by_cases materialized : data.args.isMaterialized
  · simp only [if_pos materialized]
    exact revisitCall_reaches mentions orderly here
  · simp only [if_neg materialized]
    exact lowerCall_reaches laws mentions orderly raises here

end Visits

section Trees

variable {calculus : Calculus regime allowed} {bound : ℚ} (raises : settings.RaisesOnly allowed)
  {length : Nat}

omit laws in
theorem Calculus.refresh_reaches {id : NodeId} (orderly : regime.Orderly rank s.proc) :
    calculus.Tells (fun _ => (liftM (Edit.refreshNode id) : Step Unit)) s
      fun _ t => regime.Reaches bound rank s.proc t.proc :=
  calculus.weaken (calculus.edit (refreshNode_ends id)) fun _ _ done => orderly.refresh done

omit laws in
theorem Calculus.read_reaches {id : NodeId} {var : LocalId} {visit : Runner → CallId → Step Unit}
    (orderly : regime.Orderly rank s.proc) (here : s.proc.kindAt id = some (.readLocal var)) :
    calculus.Tells (fun run => overTreeOr run.beyond (visit run) (length + 1) id) s
      fun _ t => regime.Reaches (rank id) rank s.proc t.proc := by
  refine calculus.bind (calculus.edit (node_ends id)) fun node t found => ?_
  obtain ⟨sameProc, atId⟩ := found
  have isRead : node.kind = .readLocal var := Option.some.inj ((s.proc.kindAt_of atId rfl).symm.trans here)
  rw [← sameProc] at orderly ⊢
  rw [isRead]
  have stays : Ends ((pure () : Step Unit) t) (fun _ u => u = t) (Leaves allowed fun u => regime.Stands u.proc) := rfl
  refine calculus.bind (calculus.ends stays) fun _ u same => ?_
  subst same
  exact refresh_reaches orderly

include raises

-- The nodes of `p` up to some bound, by induction on the length of the paths, while lowering goes on among
-- them. There are enough nodes left below each, and what was made since `p` is met only as a read.
theorem Calculus.overTree_reaches {p : Procedure} {now : NodeId → ℚ} (start : regime.Orderly rank p)
    (mentions : ∀ (call : CallId) (now : NodeId → ℚ) (q : Procedure), q.calls.size = p.calls.size →
      call < p.calls.size → regime.level call ≤ bound → calculus.Mentions call now q)
    (id : NodeId) (s : LoweringState) (mem : id < p.nodes.size) (le : rank id ≤ bound)
    (long : p.countBelow rank (rank id) + 1 < length) (orderly : regime.Orderly now s.proc)
    (within : regime.Within bound rank now p s.proc) :
    calculus.Tells (fun run => overTreeOr run.beyond (visitCall settings Transform.identity run.lower) length id) s
      fun _ t => regime.Reaches (now id) now s.proc t.proc := by
  induction length generalizing id s now with
  | zero => exact absurd long (Nat.not_lt_zero _)
  | succ length ih =>
    refine calculus.bind (calculus.edit (node_ends id)) fun node t found => ?_
    obtain ⟨sameProc, here⟩ := found
    rw [← sameProc] at orderly within here ⊢
    have atKind := t.proc.kindAt_of here rfl
    have leNow : now id ≤ bound := within.same id mem ▸ le
    have refreshed : ∀ u : LoweringState, regime.Reaches (now id) now t.proc u.proc →
        calculus.Tells (fun _ => (liftM (Edit.refreshNode id) : Step Unit)) u
          fun _ v => regime.Reaches (now id) now t.proc v.proc := by
      rintro u ⟨later, orderlyU, withinU⟩
      exact calculus.weaken (refresh_reaches orderlyU) fun _ v reached => withinU.reaches reached (le_refl _)
    have children : calculus.Tells (fun run => node.kind.children.forM
        (overTreeOr run.beyond (visitCall settings Transform.identity run.lower) length)) t
        fun _ u => regime.Reaches (now id) now t.proc u.proc := by
      refine calculus.forM (fun u : LoweringState => regime.Reaches (now id) now t.proc u.proc) ?_
        (.refl orderly)
      rintro child member u ⟨later, orderlyU, withinU⟩
      obtain ⟨childInside, less⟩ := orderly.ranked.children id _ atKind child member
      have sameRank : later child = now child := withinU.same child childInside
      have reaches : calculus.Tells (fun run =>
          overTreeOr run.beyond (visitCall settings Transform.identity run.lower) length child) u
          fun _ v => regime.Reaches (later child) later u.proc v.proc := by
        by_cases old : child < p.nodes.size
        · have sameOld : now child = rank child := within.same child old
          have lower : rank child < rank id := sameOld ▸ within.same id mem ▸ less
          have fewer := Procedure.countBelow_lt old lower
          exact ih child u old (lower.le.trans le) (by omega) orderlyU (within.trans withinU leNow)
        · obtain ⟨length, rfl⟩ : ∃ rest, length = rest + 1 := ⟨length - 1, by omega⟩
          have atStart : p.kindAt id = some _ := p.kindAt_of (Array.getElem?_eq_getElem mem) rfl
          rcases within.relists id _ atStart with same | ⟨_, uses, listed, reads⟩
          · have kept := Option.some.inj (atKind.symm.trans same)
            exact absurd (start.ranked.children id _ atStart child (kept ▸ member)).1 old
          · rw [Option.some.inj (atKind.symm.trans listed)] at member
            obtain ⟨use, inside, rfl⟩ := List.mem_map.mp member
            obtain ⟨var, isRead⟩ := reads use inside
            rcases withinU.relists use.node _ isRead with still | ⟨⟨_, never⟩, _⟩
            · exact read_reaches orderlyU still
            · cases never
      exact calculus.weaken reaches fun _ v reached => withinU.reaches reached (sameRank ▸ less.le)
    cases kind : node.kind with
    | call call =>
      rw [kind] at atKind
      obtain ⟨isKnown, level⟩ := orderly.ranked.callers id call atKind
      have known : call < p.calls.size := within.count ▸ isKnown
      exact calculus.bind (visitCall_reaches laws (mentions call now t.proc within.count known (level.trans leNow))
        orderly raises) fun _ u reached => refreshed u (reached.mono level)
    | _ => exact calculus.bind (kind ▸ children) fun _ u reached => refreshed u reached

variable (calculus) in
theorem Calculus.lowerTree_reaches (orderly : regime.Orderly rank s.proc) (id : NodeId)
    (mentions : ∀ (call : CallId) (now : NodeId → ℚ) (q : Procedure), q.calls.size = s.proc.calls.size →
      call < s.proc.calls.size → regime.level call ≤ rank id → calculus.Mentions call now q) :
    calculus.Tells (fun run => overTreeOr run.beyond (visitCall settings Transform.identity run.lower)
        (s.proc.nodes.size + 2) id) s
      fun _ t => regime.Reaches (rank id) rank s.proc t.proc := by
  by_cases mem : id < s.proc.nodes.size
  · have fewer : s.proc.countBelow rank (rank id) < s.proc.nodes.size := Procedure.countBelow_lt_size mem
    exact overTree_reaches laws raises orderly mentions id s mem (le_refl _) (by omega) orderly
      (.refl regime (rank id) rank s.proc)
  · refine calculus.bind (calculus.edit (node_ends id)) fun node t found => ?_
    exact absurd (lt_size found.2) mem

end Trees

def Calculus.under (regime : Regime) (allowed : Stop → Prop) (run : Runner) : Calculus regime allowed where
  Tells x s well := Ends (x run s) well (Leaves allowed fun t => regime.Stands t.proc)
  ends ended := ended
  weaken := Ends.weaken
  bind := Ends.bind
  inScope := Ends.inScope

omit laws in
theorem Bounded.mentions {run : Runner} (bounded : Bounded regime allowed run.lower) :
    (Calculus.under regime allowed run).Mentions id rank p := by
  intro data s spared node member
  obtain ⟨⟨now, orderly, within⟩, here⟩ := spared
  have low := orderly.mentioned here member
  refine (bounded node now s orderly).weaken fun _ t reached => ⟨within.reaches reached low.le, ?_⟩
  obtain ⟨_, _, further⟩ := reached
  exact (further.others id low).trans here

theorem lowerTree_ends (depth : Nat) (raises : settings.RaisesOnly allowed) :
    Bounded regime allowed (lowerTree settings Transform.identity depth) := by
  induction depth with
  | zero => exact fun _ _ _ _ => ⟨.inl rfl, fun _ isRefusal => by cases isRefusal⟩
  | succ depth bounded =>
    intro id rank s orderly
    have reaches := (Calculus.under regime allowed
      ⟨lowerTree settings Transform.identity depth, fun _ => throw (.fault .tooDeep)⟩).lowerTree_reaches laws raises
      orderly id fun _ _ _ _ _ _ => Bounded.mentions bounded
    rw [lowerTree_succ, overTree_eq_or]
    exact reaches

end Calls

end Lowering

end CallLowering
