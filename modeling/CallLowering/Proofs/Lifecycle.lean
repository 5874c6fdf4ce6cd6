import CallLowering.Proofs.Building
import CallLowering.Proofs.LawfulLowering

/-!
The life of the argument lists of a procedure, from its building through any number of finalizations, resets and
lowerings on whatever calls, targets and options, refused or not.
-/

namespace CallLowering

open Edit

variable {data : Call} {p proc q : Procedure} {regime : Regime} {name : String}

def Procedure.hasPlaces (p : Procedure) (call : CallId) : Bool :=
  p.calls[call]?.any fun data => data.args.stage.isFinalized

-- What can be done to a procedure. Lowering goes to its own limit, or to any other depth.
inductive Action where
  | finalize (settings : Settings) (call : CallId)
  | reset (call : CallId)
  | lower (settings : Settings)
  | lowerTo (settings : Settings) (depth : Nat)

variable {action : Action} {actions : List Action}

namespace Action

-- The procedure that is left, with the refusal if there was one. A fault leaves nothing.
def outcome {σ : Type} (proc : σ → Procedure) :
    EStateM.Result Stop σ Unit → Except Fault (Procedure × Option Refusal)
  | .ok () s => .ok (proc s, none)
  | .error (.refusal refusal) s => .ok (proc s, some refusal)
  | .error (.fault fault) _ => .error fault

def run (action : Action) (p : Procedure) : Except Fault (Procedure × Option Refusal) :=
  match action with
  | finalize settings call => outcome id (AbiInfo.finalize settings call p)
  | reset call => outcome id (AbiInfo.reset call p)
  | lower settings =>
    (p.lower settings Transform.identity).map fun ended => (ended.proc, ended.refusal)
  | lowerTo settings depth => outcome LoweringState.proc
      (p.statements.forM (Lowering.lowerTree settings Transform.identity depth) { proc := p })

theorem run_lower (p : Procedure) (settings : Settings) :
    (lower settings).run p = (lowerTo settings (Lowering.depthLimit p)).run p := by
  have same : Lowering.lowerStatements settings Transform.identity { proc := p }
      = p.statements.forM (Lowering.lowerTree settings Transform.identity (Lowering.depthLimit p))
        { proc := p } := rfl
  simp only [run, Procedure.lower, same]
  generalize p.statements.forM (Lowering.lowerTree settings Transform.identity (Lowering.depthLimit p))
    { proc := p } = result
  rcases result with ⟨⟨⟩, state⟩ | ⟨⟨fault⟩ | ⟨refusal⟩, state⟩
  · rfl
  · rfl
  · rfl

def settings? : Action → Option Settings
  | finalize settings _ | lower settings | lowerTo settings _ => some settings
  | reset _ => none

def Impartial (action : Action) : Prop :=
  ∀ settings, action.settings? = some settings →
    ∀ call shapes, Avoids Stop.isStage (settings.target.classify call shapes)

-- Classifying arguments raises no faults that have to do with stages, the allowed ones apart.
def RaisesOnly (action : Action) (allowed : Stop → Prop) : Prop :=
  ∀ settings, action.settings? = some settings → settings.RaisesOnly allowed

-- Under which settings the lists were finalized last: one that is still finalized keeps its own, and
-- one that has just been finalized gets those of the action.
def finalizers (action : Action) (known : CallId → Option Settings) (after : Procedure) :
    CallId → Option Settings :=
  fun call => if after.hasPlaces call then (known call).or action.settings? else none

def runAll : List Action → (CallId → Option Settings) → Procedure →
    Except Fault ((CallId → Option Settings) × Procedure)
  | [], known, p => .ok (known, p)
  | action :: rest, known, p => do
    let (q, _) ← action.run p
    runAll rest (action.finalizers known q) q

end Action

-- A lawful list, and no settings for one that is not finalized.
structure Call.Dated (finalizer : Option Settings) (data : Call) : Prop where
  law : data.Lawful finalizer
  fresh : data.args.stage = .unfinalized → finalizer = none

def Kept (known : CallId → Option Settings) (p : Procedure) : Prop :=
  ∃ rank level, p.Ranked rank level
    ∧ ∀ (call : CallId) (data : Call), p.calls[call]? = some data → data.Dated (known call)

namespace Call

theorem Dated.lawfulIn {known : Option Settings} (dated : data.Dated known)
    (settings : Settings) : data.LawfulIn known settings := by
  refine ⟨?_, dated.fresh⟩
  by_cases fresh : data.args.stage = .unfinalized
  · exact (dated.law.blank fresh).lawful _
  · obtain ⟨_, _, finalizer, isKnown, _⟩ := dated.law.placed fresh
    have law := dated.law
    rw [isKnown] at law ⊢
    exact law

theorem Lawful.dated {finalizer : Option Settings} (law : data.Lawful finalizer) :
    data.Dated (if data.args.stage.isFinalized then finalizer else none) := by
  split
  · rename_i finalized
    exact ⟨law, fun fresh => absurd fresh (Stage.isFinalized_iff.mp finalized)⟩
  · rename_i isOpen
    have fresh : data.args.stage = .unfinalized := not_not.mp fun placed =>
      isOpen (Stage.isFinalized_iff.mpr placed)
    exact ⟨(law.blank fresh).lawful none, fun _ => rfl⟩

end Call

-- The order a kept procedure is in, as lowering under some settings goes through it.
theorem Kept.orderly {known : CallId → Option Settings} (kept : Kept known p) (settings : Settings) :
    ∃ (regime : Regime) (rank : NodeId → ℚ), (regime.law = fun call => Call.LawfulIn (known call) settings)
      ∧ regime.Orderly rank p := by
  obtain ⟨rank, level, ranked, dated⟩ := kept
  exact ⟨⟨level, fun call => Call.LawfulIn (known call) settings⟩, rank, rfl, ranked,
    fun call data here => (dated call data here).lawfulIn settings⟩

namespace Action

variable {known : CallId → Option Settings} {p : Procedure} {allowed : Stop → Prop}

theorem kept_of_stands (action : Action)
    (laws : ∀ call data, regime.law call data → data.Lawful ((known call).or action.settings?))
    (stands : regime.Stands p) : Kept (action.finalizers known p) p := by
  obtain ⟨rank, orderly⟩ := stands
  refine ⟨rank, regime.level, orderly.ranked, fun call data here => ?_⟩
  have dated := (laws call data (orderly.lawful call data here)).dated
  rwa [finalizers, Procedure.hasPlaces, here, Option.any_some]

theorem outcome_kept {σ : Type} {proc : σ → Procedure} {result : EStateM.Result Stop σ Unit}
    (laws : ∀ call data, regime.law call data → data.Lawful ((known call).or action.settings?))
    (ends : EndsIn allowed (fun s => regime.Stands (proc s)) result) :
    (∀ q refusal, outcome proc result = .ok (q, refusal) → Kept (action.finalizers known q) q)
      ∧ ∀ fault, outcome proc result = .error fault → fault.isStage = false ∨ allowed (.fault fault) := by
  rcases result with ⟨⟨⟩, s⟩ | ⟨⟨fault⟩ | ⟨refusal⟩, s⟩
  · refine ⟨?_, fun _ failed => by cases failed⟩
    rintro _ _ ⟨⟩
    exact action.kept_of_stands laws ends
  · refine ⟨fun _ _ ran => (by cases ran), ?_⟩
    rintro _ ⟨⟩
    exact ends.1
  · refine ⟨?_, fun _ failed => by cases failed⟩
    rintro _ _ ⟨⟩
    exact action.kept_of_stands laws (ends.2 refusal rfl)

theorem lowerTo_keeps {settings : Settings} (depth : Nat) (raises : settings.RaisesOnly allowed)
    (kept : Kept known p) :
    (∀ q refusal, (lowerTo settings depth).run p = .ok (q, refusal) →
      Kept ((lowerTo settings depth).finalizers known q) q)
      ∧ ∀ fault, (lowerTo settings depth).run p = .error fault → fault.isStage = false ∨ allowed (.fault fault) := by
  obtain ⟨regime, rank, same, orderly⟩ := kept.orderly settings
  have bounded : Lowering.Bounded regime allowed (Lowering.lowerTree settings Transform.identity depth) :=
    Lowering.lowerTree_ends same depth raises
  have ends : EndsIn allowed (fun s => regime.Stands s.proc)
      (p.statements.forM (Lowering.lowerTree settings Transform.identity depth) { proc := p }) := by
    refine Ends.forM (fun s : LoweringState => regime.Stands s.proc) ?_ ⟨rank, orderly⟩
    rintro id _ s ⟨now, orderly⟩
    exact (bounded id now s orderly).weaken fun _ _ reached => reached.stands
  have laws : ∀ call data, regime.law call data → data.Lawful ((known call).or (some settings)) :=
    fun call data lawful => by
      rw [same] at lawful
      exact lawful.law
  exact outcome_kept laws ends

theorem run_keeps (action : Action) (raises : action.RaisesOnly allowed) (kept : Kept known p) :
    (∀ q refusal, action.run p = .ok (q, refusal) → Kept (action.finalizers known q) q)
      ∧ ∀ fault, action.run p = .error fault → fault.isStage = false ∨ allowed (.fault fault) := by
  obtain ⟨rank, level, ranked, dated⟩ := id kept
  cases action with
  | finalize settings call =>
    let regime : Regime := ⟨level, fun call => Call.LawfulIn (known call) settings⟩
    have orderly : regime.Orderly rank p := ⟨ranked, fun call data here => (dated call data here).lawfulIn _⟩
    have ends : EndsIn allowed regime.Stands (AbiInfo.finalize settings call p) := by
      refine knownCall_ends fun data here => ?_
      refine (Lowering.finalize_ends rfl orderly here (raises settings rfl)).weaken ?_
      rintro _ q ⟨_, spared, _⟩
      exact spared.1.stands
    have laws : ∀ call data, regime.law call data → data.Lawful ((known call).or (some settings)) :=
      fun _ _ lawful => lawful.law
    exact outcome_kept laws ends
  | reset call =>
    let regime : Regime := ⟨level, fun call => Call.Lawful (known call)⟩
    have orderly : regime.Orderly rank p := ⟨ranked, fun call data here => (dated call data here).law⟩
    have ends : EndsIn allowed regime.Stands (AbiInfo.reset call p) := by
      refine knownCall_ends fun data here => ?_
      have start : (regime.site rank p call).Holds (Call.Lawful (known call)) p :=
        orderly.enter here (dated call data here).law
      refine start.reset.mono (fun _ q blank => ?_) fun _ _ => orderly.left
      exact (orderly.leave (blank.weaken fun _ isBlank => isBlank.lawful _)).stands
    have laws : ∀ call data, regime.law call data → data.Lawful ((known call).or none) :=
      fun call _ law => (known call).or_none.symm ▸ law
    exact outcome_kept laws ends
  | lower settings =>
    rw [run_lower]
    exact lowerTo_keeps _ (raises settings rfl) kept
  | lowerTo settings depth => exact lowerTo_keeps depth (raises settings rfl) kept

theorem runAll_keeps (raises : ∀ action ∈ actions, action.RaisesOnly allowed) (kept : Kept known p) :
    (∀ finalizers q, runAll actions known p = .ok (finalizers, q) → Kept finalizers q)
      ∧ ∀ fault, runAll actions known p = .error fault → fault.isStage = false ∨ allowed (.fault fault) := by
  induction actions generalizing known p with
  | nil =>
    refine ⟨?_, fun _ failed => by cases failed⟩
    rintro _ _ ⟨⟩
    exact kept
  | cons action rest ih =>
    obtain ⟨here, later⟩ := List.forall_mem_cons.mp raises
    obtain ⟨keeps, spares⟩ := action.run_keeps here kept
    unfold runAll
    cases ran : action.run p with
    | ok ended => exact ih later (keeps ended.1 ended.2 ran)
    | error fault =>
      refine ⟨fun _ _ ended => (by cases ended), ?_⟩
      rintro _ ⟨⟩
      exact spares fault ran

theorem runAll_kept (impartial : ∀ action ∈ actions, action.Impartial) (kept : Kept known p) :
    (∀ finalizers q, runAll actions known p = .ok (finalizers, q) → Kept finalizers q)
      ∧ ∀ fault, runAll actions known p = .error fault → fault.isStage = false := by
  have raises : ∀ action ∈ actions, action.RaisesOnly fun _ => False :=
    fun action member settings isOwn call shapes stop failed =>
      .inl (impartial action member settings isOwn call shapes stop failed)
  obtain ⟨keeps, spares⟩ := runAll_keeps raises kept
  exact ⟨keeps, fun fault failed => (spares fault failed).resolve_right id⟩

end Action

namespace Procedure

def Backward (proc : Procedure) : Prop :=
  ∀ (id : NodeId) (kind : NodeKind) (ids : List NodeId), proc.kindAt id = some kind →
    proc.references kind = .ok ids → ∀ other ∈ ids, other < id

def CallsNamed (proc : Procedure) : Prop := ∀ call < proc.calls.size, ∃ id, proc.callAt id = some call

-- A cookie comes before the node of its call. This is left to the caller; building does not look at it.
def CookiesFirst (proc : Procedure) : Prop :=
  ∀ id < proc.nodes.size, ∀ call ∈ proc.callAt id, ∀ data ∈ proc.calls[call]?, ∀ cookie ∈ data.cookie,
    cookie < id

instance (proc : Procedure) : Decidable proc.CookiesFirst :=
  inferInstanceAs (Decidable (∀ id < proc.nodes.size, ∀ call ∈ proc.callAt id,
    ∀ data ∈ proc.calls[call]?, ∀ cookie ∈ data.cookie, cookie < id))

end Procedure

theorem addNode_backward {kind : NodeKind} {ty : ValueType} {id : NodeId}
    (back : p.Backward) (done : addNode kind ty p = .ok id q) : q.Backward := by
  have kinds := addNode_kinds done
  have calls := (addNode_adds done).calls
  obtain ⟨impact, computed, _, _⟩ := addNode_ok done
  obtain ⟨refs, below, _, listed, total, _⟩ := p.impactOf_ok_iff.mp computed
  intro other otherKind ids here refers
  rw [p.references_congr fun _ _ => by rw [calls]] at refers
  rw [kinds other] at here
  split at here
  · subst other
    cases here
    cases listed.symm.trans refers
    intro ref member
    obtain ⟨node, atNode, _⟩ := p.impactOfAll_within total member
    exact lt_size atNode
  · exact back other otherKind ids here refers

theorem BuildStep.backward (step : BuildStep p q) (built : p.AsBuilt)
    (back : p.Backward) (named : p.CallsNamed) : q.Backward ∧ q.CallsNamed := by
  cases step with
  | declare ty exposed => exact ⟨back, named⟩
  | statement id => exact ⟨back, named⟩
  | node kind ty id q isPlain added =>
    have grown := addNode_adds added
    refine ⟨addNode_backward back added, fun call bound => ?_⟩
    obtain ⟨other, isCall⟩ := named call (grown.calls ▸ bound)
    exact ⟨other, (grown.callAt (p.kindAt_lt (p.callAt_some_iff.mp isCall))).trans isCall⟩
  | call spec id q added =>
    have size : (p.calls.push spec.toCall).size = p.calls.size + 1 := Array.size_push _
    have old : ∀ call < p.calls.size, (p.calls.push spec.toCall)[call]? = p.calls[call]? := by
      intro call bound
      rw [Array.getElem?_push, if_neg (Nat.ne_of_lt bound)]
    -- The older nodes name older calls, so the new call is nothing to them.
    have backM : (p.addCall spec.toCall).2.Backward := by
      intro other kind ids here refers
      refine back other kind ids here ?_
      rw [← refers]
      refine (p.references_congr fun call isCall => old call ?_).symm
      exact built.namedCalls other call ((p.callAt_eq here).trans isCall)
    have grown := addNode_adds added
    refine ⟨addNode_backward backM added, fun call bound => ?_⟩
    have bound : call < p.calls.size + 1 := by
      rw [grown.calls] at bound
      exact Nat.lt_of_lt_of_eq bound size
    rcases Nat.lt_succ_iff_lt_or_eq.mp bound with less | rfl
    · obtain ⟨other, isCall⟩ := named call less
      exact ⟨other, (grown.callAt (p.kindAt_lt (p.callAt_some_iff.mp isCall))).trans isCall⟩
    · obtain ⟨atEnd, isKind⟩ := addNode_kindAt added
      exact ⟨id, q.callAt_some_iff.mpr isKind⟩

theorem Built.backward (built : Built { name } proc) : proc.Backward ∧ proc.CallsNamed := by
  induction built with
  | refl => exact ⟨fun _ _ _ here => by simp [Procedure.kindAt] at here, fun _ bound => by simp at bound⟩
  | tail before step ih => exact step.backward (Built.asBuilt before) ih.1 ih.2

theorem CallSpec.toCall_blank (spec : CallSpec) : spec.toCall.Blank where
  unfinalized := rfl
  unplaced := by
    intro arg mem
    obtain ⟨_, _, _, rfl⟩ := spec.toCall_args mem
    rfl
  stackSize := rfl
  hasRegArgs := rfl
  hasStackArgs := rfl
  lateOrder := rfl

theorem Built.kept (built : Built { name } proc) (cookies : proc.CookiesFirst) : Kept (fun _ => none) proc := by
  obtain ⟨back, named⟩ := built.backward
  have asBuilt := built.asBuilt
  have places : ∀ call, ∃ place : NodeId, ∀ id, proc.callAt id = some call → id = place := by
    intro call
    by_cases has : ∃ id, proc.callAt id = some call
    · obtain ⟨place, isCall⟩ := has
      exact ⟨place, fun id other => asBuilt.ownCalls id place call other isCall⟩
    · exact ⟨0, fun id isCall => absurd ⟨id, isCall⟩ has⟩
  choose place isPlace using places
  refine ⟨fun id => (id : ℚ), fun call => (place call : ℚ), ⟨?_, ?_, ?_⟩, ?_⟩
  · intro id kind here child member
    have refers : proc.references kind = .ok kind.children := by
      cases kind with
      | call call => simp [NodeKind.children] at member
      | _ => rfl
    have less := back id kind _ here refers child member
    exact ⟨Nat.lt_trans less (proc.kindAt_lt here), Nat.cast_lt.mpr less⟩
  · intro id call here
    have isCall := proc.callAt_some_iff.mpr here
    rw [isPlace call id isCall]
    exact ⟨asBuilt.namedCalls id call isCall, le_refl _⟩
  · intro call data here other member
    obtain ⟨id, isCall⟩ := named call (lt_size here)
    have atId := proc.callAt_some_iff.mp isCall
    have bound := proc.kindAt_lt atId
    have less : other < id := by
      rcases List.mem_append.mp member with mem | cookie
      · refine back id _ data.references atId ?_ other mem
        rw [Procedure.references, proc.call_ok_iff.mpr here]
        rfl
      · exact cookies id bound call isCall data here other (Option.mem_toList.mp cookie)
    rw [← isPlace call id isCall]
    exact ⟨Nat.lt_trans less bound, Nat.cast_lt.mpr less⟩
  · intro call data here
    obtain ⟨spec, rfl⟩ := asBuilt.calls call data here
    exact ⟨spec.toCall_blank.lawful none, fun _ => rfl⟩

-- The library's own classifiers are impartial, and so are the scripted ones.
theorem Action.impartial_of_target (known : ∀ settings, action.settings? = some settings →
      (∃ triple, settings.target = .ofTriple triple) ∨ ∃ script, settings.target = .ofScript script) :
    action.Impartial := by
  intro settings isSettings call shapes
  rcases known settings isSettings with ⟨triple, isTarget⟩ | ⟨script, isTarget⟩
  · rw [isTarget]
    exact Target.ofTriple_avoids triple call shapes
  · rw [isTarget]
    exact Target.ofScript_avoids script call shapes

theorem lists_fit_their_stages {name : String} {body : List Instruction} {made : List Made}
    {start : Procedure} (builds : Procedure.build name body = .ok (made, start))
    (cookies : start.CookiesFirst) (actions : List Action)
    (impartial : ∀ action ∈ actions, action.Impartial) :
    (∀ finalizers p, Action.runAll actions (fun _ => none) start = .ok (finalizers, p) →
      ∀ (call : CallId) (data : Call), p.calls[call]? = some data → data.Lawful (finalizers call))
      ∧ ∀ fault, Action.runAll actions (fun _ => none) start = .error fault →
        fault ≠ .wrongStage ∧ fault ≠ .resetAfterCompletion := by
  obtain ⟨keeps, spares⟩ := Action.runAll_kept impartial ((Built.body builds).kept cookies)
  refine ⟨fun finalizers p ran call data here => ?_, fun fault failed => ?_⟩
  · obtain ⟨_, _, _, dated⟩ := keeps finalizers p ran
    exact (dated call data here).law
  · have noStage := spares fault failed
    constructor <;> rintro rfl <;> cases noStage

-- A call through an address, with a cookie and a call among its arguments.
def callWithCookie : List Instruction :=
  [.intConst 7 .i64, .call { target := .method "inner", returnType := .i64 }, .intConst 64 .ptr,
    .intConst 128 .ptr,
    .call { target := .indirect 3, cookie := some 2, args := [(0, .i64), (1, .i64)] }, .statement 4]

-- The call is finalized and reset under one target and finalized under another. Then everything is
-- lowered under the first, and a last reset is refused.
def finalizedTwice : List Action :=
  [.finalize { target := .ofTriple ⟨.x64, .linux⟩ } 1, .reset 1,
    .finalize { target := .ofTriple ⟨.x64, .windows⟩ } 1, .lower { target := .ofTriple ⟨.x64, .linux⟩ },
    .reset 1]

theorem windows_places_outlast_lowering :
    ∃ made start finalizers p data settings, Procedure.build "caller" callWithCookie = .ok (made, start)
      ∧ Action.runAll finalizedTwice (fun _ => none) start = .ok (finalizers, p)
      ∧ p.calls[1]? = some data ∧ data.args.stage = .materialized ∧ data.Lawful (finalizers 1)
      ∧ finalizers 1 = some settings ∧ settings.target.triple = ⟨.x64, .windows⟩ := by
  obtain ⟨⟨made, start⟩, builds, checked⟩ := except_ok_of_any (Procedure.build "caller" callWithCookie)
    (fun built => decide built.2.CookiesFirst
      && (Action.runAll finalizedTwice (fun _ => none) built.2).toOption.any fun ended =>
        (ended.2.calls[1]?.any fun data => data.args.stage == .materialized)
          && (ended.1 1).any fun settings => settings.target.triple == ⟨.x64, .windows⟩)
    (by decide +kernel)
  simp only [Bool.and_eq_true, decide_eq_true_eq] at checked
  obtain ⟨cookies, runs⟩ := checked
  obtain ⟨⟨finalizers, p⟩, ran, ended⟩ := except_ok_of_any _ _ runs
  simp only [Bool.and_eq_true, Option.any_eq_true, beq_iff_eq] at ended
  obtain ⟨⟨data, here, stage⟩, settings, isSettings, isWindows⟩ := ended
  have impartial : ∀ action ∈ finalizedTwice, action.Impartial := by
    intro action member
    refine Action.impartial_of_target fun settings isSettings => .inl ?_
    simp only [finalizedTwice, List.mem_cons, List.not_mem_nil, or_false] at member
    rcases member with rfl | rfl | rfl | rfl | rfl <;> cases isSettings
    · exact ⟨⟨.x64, .linux⟩, rfl⟩
    · exact ⟨⟨.x64, .windows⟩, rfl⟩
    · exact ⟨⟨.x64, .linux⟩, rfl⟩
  have law := (lists_fit_their_stages builds cookies finalizedTwice impartial).1 finalizers p ran 1 data here
  exact ⟨made, start, finalizers, p, data, settings, builds, ran, here, stage, law, isSettings, isWindows⟩

end CallLowering
