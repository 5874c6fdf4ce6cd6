import CallLowering.Proofs.LawfulLowering

/-!
Lowering never comes to its limits. It goes on in nodes that it makes itself, so the nodes there were do not
bound its depth, but the calls do.
-/

namespace CallLowering

namespace Regime

def levels (regime : Regime) (count : Nat) (rank : ℚ) : Nat :=
  ((Finset.range count).filter fun call => regime.level call ≤ rank).card

variable {regime : Regime} {count : Nat}

theorem levels_mono {low high : ℚ} (le : low ≤ high) : regime.levels count low ≤ regime.levels count high :=
  Finset.card_le_card (Finset.monotone_filter_right _ fun _ _ below => below.trans le)

theorem levels_lt {rank : ℚ} {call : CallId} (known : call < count) (below : rank < regime.level call) :
    regime.levels count rank < regime.levels count (regime.level call) :=
  card_filter_range_lt (fun other (le : regime.level other ≤ rank) => le.trans below.le) known (le_refl _)
    (not_le.mpr below)

theorem levels_le {rank : ℚ} : regime.levels count rank ≤ count :=
  (Finset.card_filter_le _ _).trans (Finset.card_range count).le

end Regime

namespace Lowering

-- Lowering to some depth, with `beyond` for what lies further down or at the end of too long a path.
def descend (settings : Settings) (beyond : NodeId → Step Unit) : Nat → NodeId → Step Unit
  | 0 => beyond
  | depth + 1 => fun id => do
    let size := (← get).proc.nodes.size
    overTreeOr beyond (visitCall settings Transform.identity (descend settings beyond depth)) (size + 2) id

theorem lowerTree_eq_descend (settings : Settings) (depth : Nat) :
    lowerTree settings Transform.identity depth = descend settings (fun _ => throw (.fault .tooDeep)) depth := by
  induction depth with
  | zero => rfl
  | succ depth ih =>
    funext id
    simp only [lowerTree, descend, ih, overTree_eq_or]

-- From some depth on, the run is the same whatever happens further down, and it ends as described.
def SettlesTo {α : Type} (settings : Settings) (limit : Nat)
    (run : Runner → EStateM.Result Stop LoweringState α) (well : α → LoweringState → Prop) : Prop :=
  ∃ result, (∀ beyond depth, limit ≤ depth → run ⟨descend settings beyond depth, beyond⟩ = result)
    ∧ Ends result well fun _ _ => True

namespace SettlesTo

variable {α β : Type} {settings : Settings} {limit : Nat} {well : α → LoweringState → Prop} {s : LoweringState}

theorem const {result : EStateM.Result Stop LoweringState α} {ill : Stop → LoweringState → Prop}
    (ends : Ends result well ill) : SettlesTo settings limit (fun _ => result) well :=
  ⟨result, fun _ _ _ => rfl, ends.mono (fun _ _ ended => ended) fun _ _ _ => trivial⟩

theorem weaken {run : Runner → EStateM.Result Stop LoweringState α} {well' : α → LoweringState → Prop}
    (settles : SettlesTo settings limit run well) (mono : ∀ a t, well a t → well' a t) :
    SettlesTo settings limit run well' := by
  obtain ⟨result, same, ends⟩ := settles
  exact ⟨result, same, ends.weaken mono⟩

theorem bind {x : Runner → Step β} {f : Runner → β → Step α} {middle : β → LoweringState → Prop}
    (first : SettlesTo settings limit (fun run => x run s) middle)
    (rest : ∀ b t, middle b t → SettlesTo settings limit (fun run => f run b t) well) :
    SettlesTo settings limit (fun run => (x run >>= f run) s) well := by
  obtain ⟨result, same, ends⟩ := first
  cases result with
  | ok b t =>
    obtain ⟨result', same', ends'⟩ := rest b t ends
    refine ⟨result', fun beyond depth deep => ?_, ends'⟩
    have ran : x ⟨descend settings beyond depth, beyond⟩ s = .ok b t := same beyond depth deep
    change EStateM.bind _ _ s = _
    rw [EStateM.bind, ran]
    exact same' beyond depth deep
  | error stop t =>
    refine ⟨.error stop t, fun beyond depth deep => ?_, trivial⟩
    have ran : x ⟨descend settings beyond depth, beyond⟩ s = .error stop t := same beyond depth deep
    change EStateM.bind _ _ s = _
    rw [EStateM.bind, ran]

theorem inScope {step : Runner → Step α} {well : α → Procedure → Prop}
    (settles : SettlesTo settings limit (fun run => step run s.opened) fun a t => well a t.proc) :
    SettlesTo settings limit (fun run => Step.inScope (step run) s) fun a t => well a t.proc := by
  obtain ⟨result, same, ends⟩ := settles
  have closed : ∀ beyond depth, limit ≤ depth → Step.inScope (step ⟨descend settings beyond depth, beyond⟩) s
      = Step.inScope (fun _ => result) s := by
    intro beyond depth deep
    unfold Step.inScope
    rw [show step ⟨descend settings beyond depth, beyond⟩ s.opened = result from same beyond depth deep]
  refine ⟨_, closed, ?_⟩
  unfold Step.inScope
  cases result with
  | ok a t => exact ends
  | error stop t => trivial

end SettlesTo

def settling (regime : Regime) (settings : Settings) (limit : Nat) : Calculus regime fun _ => True where
  Tells x s well := SettlesTo settings limit (fun run => x run s) well
  ends := SettlesTo.const
  weaken := SettlesTo.weaken
  bind := SettlesTo.bind
  inScope := SettlesTo.inScope

-- A run that settles is the run within the limits.
theorem settling_within {α : Type} {regime : Regime} {settings : Settings} {limit : Nat} {x : Runner → Step α}
    {s : LoweringState} {well : α → LoweringState → Prop} (tells : (settling regime settings limit).Tells x s well)
    (beyond : NodeId → Step Unit) {depth : Nat} (deep : limit ≤ depth) :
    x ⟨descend settings beyond depth, beyond⟩ s
      = x ⟨lowerTree settings Transform.identity limit, fun _ => throw (.fault .tooDeep)⟩ s := by
  obtain ⟨result, same, _⟩ := tells
  rw [lowerTree_eq_descend]
  exact (same beyond depth deep).trans (same _ limit (Nat.le_refl _)).symm

-- Trees that lie above fewer levels than that are lowered to their end.
def EndsBelow (regime : Regime) (settings : Settings) (count height : Nat) : Prop :=
  ∀ (id : NodeId) (rank : NodeId → ℚ) (s : LoweringState), regime.Orderly rank s.proc →
    s.proc.calls.size = count → regime.levels count (rank id) < height →
    (settling regime settings height).Tells (fun run => run.lower id) s
      fun _ t => regime.Reaches (rank id) rank s.proc t.proc

-- What a call within reach of the induction refers to lies above fewer levels than it has itself.
theorem EndsBelow.mentions {regime : Regime} {settings : Settings} {count height : Nat} {rank : NodeId → ℚ}
    {p : Procedure} {id : CallId} (below : EndsBelow regime settings count height) (size : p.calls.size = count)
    (isCall : id < count) (low : regime.levels count (regime.level id) ≤ height) :
    (settling regime settings height).Mentions id rank p := by
  intro data s spared node member
  obtain ⟨⟨now, orderly, within⟩, here⟩ := spared
  have less := orderly.mentioned here member
  have fewer := (Regime.levels_lt isCall less).trans_le low
  refine (settling regime settings height).weaken (below node now s orderly (within.count.trans size) fewer)
    fun _ t reached => ⟨within.reaches reached less.le, ?_⟩
  obtain ⟨_, _, further⟩ := reached
  exact (further.others id less).trans here

section Trees

variable {regime : Regime} {known : CallId → Option Settings} {settings : Settings}
  {rank : NodeId → ℚ} {s : LoweringState}
  (laws : regime.law = fun call => Call.LawfulIn (known call) settings)

include laws

theorem endsBelow (count height : Nat) : EndsBelow regime settings count height := by
  induction height with
  | zero => exact fun _ _ _ _ _ fewer => absurd fewer (Nat.not_lt_zero _)
  | succ height ih =>
    intro id rank s orderly size fewer
    obtain ⟨result, same, ends⟩ := (settling regime settings height).lowerTree_reaches laws
      (fun _ _ _ _ => .inr trivial) orderly id fun call now q sameCount isCall level =>
        ih.mentions (sameCount.trans size) (size ▸ isCall)
          ((Regime.levels_mono level).trans (Nat.le_of_lt_succ fewer))
    refine ⟨result, fun beyond depth deep => ?_, ends⟩
    obtain ⟨depth, rfl⟩ : ∃ less, depth = less + 1 := ⟨depth - 1, by omega⟩
    exact same beyond depth (Nat.le_of_succ_le_succ deep)

variable (orderly : regime.Orderly rank s.proc) (beyond : NodeId → Step Unit) (depth : Nat)
  (deep : depthLimit s.proc ≤ depth)

include orderly deep

theorem descend_settles (id : NodeId) : descend settings beyond depth id s
    = lowerTree settings Transform.identity (depthLimit s.proc) id s :=
  settling_within (endsBelow laws s.proc.calls.size (depthLimit s.proc) id rank s orderly rfl
    (Nat.lt_succ_of_le (Regime.levels_le))) beyond deep

theorem statements_settle (roots : List NodeId) : roots.forM (descend settings beyond depth) s
    = roots.forM (lowerTree settings Transform.identity (depthLimit s.proc)) s := by
  refine settling_within ((settling regime settings (depthLimit s.proc)).forM (f := fun run => run.lower)
    (fun t : LoweringState => t.proc.calls.size = s.proc.calls.size ∧ regime.Stands t.proc)
    (fun root _ t reached => ?_) ⟨rfl, rank, orderly⟩) beyond deep
  obtain ⟨count, now, orderlyT⟩ := reached
  refine (settling regime settings _).weaken (endsBelow laws s.proc.calls.size _ root now t orderlyT count
    (Nat.lt_succ_of_le (Regime.levels_le))) fun _ u ended => ⟨?_, ended.stands⟩
  obtain ⟨_, _, within⟩ := ended
  exact within.count.trans count

end Trees

end Lowering

end CallLowering
