import CallLowering.Proofs.Accuracy
import CallLowering.Proofs.TwinShaping
import CallLowering.Proofs.Verifying
import Mathlib.Data.List.Perm.Basic

/-! Analysing twins. A walk meets the same nodes on both sides, in another order where late orders differ. -/

namespace CallLowering

open List

variable {root : NodeId} {data : Call} {list other : ArgList} {others summaries : List ArgSummary}
  {args : List Argument} {nodes : List NodeId}
  {α β : Type} {profiles : List Profile} {γ : Type} {R : α → β → Prop} {f : α → γ} {g : β → γ} {items : List α}

theorem mapM_reordered {ε : Type} {f : α → Except ε β} {g : α → Except ε γ} {R : β → γ → Prop}
    {items' : List α} {results : List β} (perm : items'.Perm items) (done : items.mapM f = .ok results)
    (each : ∀ item b, f item = .ok b → ∃ c, g item = .ok c ∧ R b c) :
    ∃ middle results', middle.Perm results ∧ items'.mapM g = .ok results' ∧ List.Forall₂ R middle results' := by
  obtain ⟨middle, answered, same⟩ := perm_comp_forall₂ perm (mapM_except_ok_iff.mp done)
  suffices both : ∃ results', List.Forall₂ (fun item c => g item = .ok c) items' results'
      ∧ List.Forall₂ R middle results' by
    obtain ⟨results', answers, related⟩ := both
    exact ⟨middle, results', same, mapM_except_ok_iff.mpr answers, related⟩
  clear perm same done
  induction answered with
  | nil => exact ⟨[], .nil, .nil⟩
  | cons here _ ih =>
    obtain ⟨results', answers, related⟩ := ih
    obtain ⟨c, there, both⟩ := each _ _ here
    exact ⟨c :: results', .cons there answers, .cons both related⟩

theorem Call.Twins.evaluated {other : Call} (twins : data.Twins other)
    (done : data.evaluated = .ok nodes) : ∃ nodes', other.evaluated = .ok nodes' ∧ nodes'.Perm nodes := by
  have sameEarly := twins.list.filterMap Argument.early fun _ => rfl
  have sameLate := twins.list.filterMap Argument.late fun _ => rfl
  have sameTarget : other.target = data.target := by rw [twins.rest]
  have sameStage : other.args.isMaterialized = data.args.isMaterialized := by
    rw [ArgList.isMaterialized, twins.list.stage]
    rfl
  simp only [Call.evaluated, sameEarly, sameTarget, sameStage] at done ⊢
  by_cases settled : data.args.isMaterialized = true
  · simp only [if_pos settled, except_bind_ok_iff, except_pure_ok_iff] at done ⊢
    obtain ⟨lateArgs, found, rfl⟩ := done
    have each : ∀ index arg, data.args.arg index = .ok arg →
        ∃ arg', other.args.arg index = .ok arg' ∧ arg'.late = arg.late := by
      intro index arg here
      obtain ⟨arg', there, masked⟩ := twins.list.arg ((ArgList.arg_ok_iff _).mp here)
      exact ⟨arg', (ArgList.arg_ok_iff _).mpr there, Argument.masked_read masked Argument.late fun _ => rfl⟩
    obtain ⟨middle, lateArgs', same, found', related⟩ := mapM_reordered twins.list.order found each
    have sameNodes : lateArgs'.filterMap Argument.late = middle.filterMap Argument.late := by
      clear same found'
      induction related with
      | nil => rfl
      | cons here _ ih => simp only [filterMap_cons, here, ih]
    refine ⟨_, ⟨lateArgs', found', rfl⟩, ?_⟩
    rw [sameNodes]
    exact ((same.filterMap _).append_left _).append_right _
  · simp only [if_neg settled] at done ⊢
    cases done
    exact ⟨_, rfl, by rw [sameLate]⟩

namespace Twins

variable {frame : Frame} {rename : LocalId → LocalId} {p q : Procedure} {seen : List NodeId}

variable (twins : Twins frame rename p q)

include twins

theorem evaluated {kind other : NodeKind} (mirrors : kind.Mirrors rename other)
    (done : p.evaluated kind = .ok nodes) : ∃ nodes', q.evaluated other = .ok nodes' ∧ nodes'.Perm nodes := by
  cases mirrors with
  | same _ plain =>
    cases kind with
    | call id =>
      obtain ⟨data, here, evaluates⟩ := except_bind_ok_iff.mp done
      obtain ⟨data', there, both⟩ := twins.call id data (p.call_ok_iff.mp here)
      obtain ⟨nodes', evaluates', perm⟩ := both.evaluated evaluates
      exact ⟨nodes', except_bind_ok_iff.mpr ⟨data', q.call_ok_iff.mpr there, evaluates'⟩, perm⟩
    | _ => exact ⟨nodes, done, .refl _⟩
  | _ => exact ⟨nodes, done, .refl _⟩

theorem walkWithin {depth : Nat} {id : NodeId} (walked : p.walkWithin depth id = .ok seen) :
    ∃ seen', q.walkWithin depth id = .ok seen' ∧ seen'.Perm seen := by
  induction depth generalizing id seen with
  | zero => cases walked
  | succ depth ih =>
    simp only [Procedure.walkWithin, except_bind_ok_iff, except_pure_ok_iff] at walked ⊢
    obtain ⟨node, here, inputs, evaluates, below, under, rfl⟩ := walked
    obtain ⟨kind, there, mirrors⟩ := twins.node id node (p.node_ok_iff.mp here)
    obtain ⟨inputs', evaluates', perm⟩ := twins.evaluated mirrors evaluates
    obtain ⟨middle, below', same, under', related⟩ := mapM_reordered perm under fun input part => ih
    refine ⟨_, ⟨_, q.node_ok_iff.mpr there, inputs', evaluates', below', under', rfl⟩, ?_⟩
    refine List.Perm.append_right [id] (List.Perm.trans ?_ same.flatten)
    clear same under under'
    induction related with
    | nil => exact .refl _
    | cons here _ ih => exact here.append ih

theorem walk (walked : p.walk root = .ok seen) : ∃ seen', q.walk root = .ok seen' ∧ seen'.Perm seen := by
  unfold Procedure.walk at walked ⊢
  rw [twins.size]
  exact twins.walkWithin walked

theorem under_iff (walked : p.walk root = .ok seen) {accept accept' : NodeKind → Prop}
    (same : ∀ kind other, kind.Mirrors rename other → (accept' other ↔ accept kind)) :
    q.Under root accept' ↔ p.Under root accept := by
  obtain ⟨seen', walked', perm⟩ := twins.walk walked
  simp only [Procedure.Under, Procedure.visited, walked, walked', except_bind_ok_iff, Except.ok.injEq,
    exists_eq_left', pure, Except.pure, mem_filterMap, perm.mem_iff]
  constructor
  · rintro ⟨other, ⟨id, met, there⟩, accepted⟩
    have mem : id < p.nodes.size := twins.size ▸ (lt_size there)
    have here : p.nodes[id]? = some p.nodes[id] := Array.getElem?_eq_getElem mem
    obtain ⟨kind, known, mirrors⟩ := twins.node id _ here
    cases there.symm.trans known
    exact ⟨_, ⟨id, met, here⟩, (same _ _ mirrors).mp accepted⟩
  · rintro ⟨node, ⟨id, met, here⟩, accepted⟩
    obtain ⟨kind, there, mirrors⟩ := twins.node id node here
    exact ⟨_, ⟨id, met, there⟩, (same _ _ mirrors).mpr accepted⟩

end Twins

namespace ArgSummary

-- The same summary with other names for the locals.
structure Mirrors (rename : LocalId → LocalId) (known : LocalId → Prop) (summary other : ArgSummary) :
    Prop where
  rest : other = { summary with stored := other.stored, read := other.read }
  stored : ∀ var, var ∈ other.stored ↔ ∃ own ∈ summary.stored, rename own = var
  read : ∀ var, var ∈ other.read ↔ ∃ own ∈ summary.read, rename own = var
  storedKnown : ∀ var ∈ summary.stored, known var
  readKnown : ∀ var ∈ summary.read, known var

namespace Mirrors

variable {rename : LocalId → LocalId} {known : LocalId → Prop} {summary other later later' : ArgSummary}

theorem same (mirrors : summary.Mirrors rename known other) (f : ArgSummary → α)
    (blind : ∀ summary stored read, f { summary with stored, read } = f summary) : f other = f summary := by
  rw [mirrors.rest]
  exact blind _ _ _

theorem noStores (mirrors : summary.Mirrors rename known other) : other.stored.isEmpty = summary.stored.isEmpty := by
  rw [Bool.eq_iff_iff, List.isEmpty_iff, List.isEmpty_iff, List.eq_nil_iff_forall_not_mem,
    List.eq_nil_iff_forall_not_mem]
  constructor
  · exact fun none var mem => none _ ((mirrors.stored _).mpr ⟨var, mem, rfl⟩)
  · intro none var mem
    obtain ⟨own, isStored, _⟩ := (mirrors.stored var).mp mem
    exact none own isStored

theorem storesWhatIsRead (first : summary.Mirrors rename known other) (second : later.Mirrors rename known later')
    (injective : ∀ a b, known a → known b → rename a = rename b → a = b) :
    later'.storesWhatIsRead other = later.storesWhatIsRead summary := by
  rw [Bool.eq_iff_iff]
  simp only [ArgSummary.storesWhatIsRead, any_eq_true, contains_iff_mem]
  constructor
  · intro hit
    obtain ⟨var, isStored, isRead⟩ := hit
    obtain ⟨a, storedA, rfl⟩ := (second.stored var).mp isStored
    obtain ⟨b, readB, sameName⟩ := (first.read _).mp isRead
    have sameLocal := injective b a (first.readKnown b readB) (second.storedKnown a storedA) sameName
    exact ⟨a, storedA, sameLocal ▸ readB⟩
  · intro hit
    obtain ⟨var, isStored, isRead⟩ := hit
    exact ⟨rename var, (second.stored _).mpr ⟨var, isStored, rfl⟩, (first.read _).mpr ⟨var, isRead, rfl⟩⟩

end Mirrors

end ArgSummary

theorem map_forall₂ {others : List β} (related : List.Forall₂ R items others) (same : ∀ a b, R a b → g b = f a) :
    others.map g = items.map f := by
  induction related with
  | nil => rfl
  | cons here _ ih => rw [map_cons, map_cons, same _ _ here, ih]

theorem forall₂_of_map {others : List β} (same : others.map g = items.map f) :
    List.Forall₂ (fun a b => g b = f a) items others := by
  have equal : List.Forall₂ (fun c d => d = c) (items.map f) (others.map g) := by
    rw [same]
    exact List.forall₂_same.mpr fun _ _ => rfl
  simpa only [List.forall₂_map_left_iff, List.forall₂_map_right_iff] using equal

theorem ArgList.Twins.zipped (twins : list.Twins other) :
    List.Forall₂ (fun (entry entry' : Argument × Nat) =>
      (entry'.1.masked, entry'.2) = (entry.1.masked, entry.2)) list.args.zipIdx other.args.zipIdx := by
  refine forall₂_of_map ?_
  have masked : ∀ args : List Argument, args.zipIdx.map (fun entry => (entry.1.masked, entry.2))
      = (args.map Argument.masked).zipIdx := by
    intro args
    rw [zipIdx_map]
    rfl
  rw [masked, masked, twins.args]

theorem mapM_forall₂ {ε δ : Type} {f : α → Except ε γ} {g : β → Except ε δ} {S : α → β → Prop}
    {R : γ → δ → Prop} {others : List β} (related : List.Forall₂ S items others)
    (each : ∀ a ∈ items, ∀ b, S a b → ∃ c d, f a = .ok c ∧ g b = .ok d ∧ R c d) :
    ∃ results results', items.mapM f = .ok results ∧ others.mapM g = .ok results'
      ∧ List.Forall₂ R results results' := by
  induction related with
  | nil => exact ⟨[], [], rfl, rfl, .nil⟩
  | cons here _ ih =>
    obtain ⟨first, later⟩ := forall_mem_cons.mp each
    obtain ⟨results, results', found, found', rest⟩ := ih later
    obtain ⟨c, d, answer, answer', both⟩ := first _ here
    refine ⟨c :: results, d :: results', ?_, ?_, .cons both rest⟩
    · simp only [mapM_cons, answer, found, bind, Except.bind, pure, Except.pure]
    · simp only [mapM_cons, answer', found', bind, Except.bind, pure, Except.pure]

theorem any_forall₂ {f : α → Bool} {g : β → Bool} {others : List β} (related : List.Forall₂ R items others)
    (same : ∀ a b, R a b → g b = f a) : others.any g = items.any f := by
  induction related with
  | nil => rfl
  | cons here _ ih => rw [any_cons, any_cons, same _ _ here, ih]

namespace Twins

variable {frame : Frame} {rename : LocalId → LocalId} {p q : Procedure}

-- A tree that can be walked and consists of live nodes.
def Walks (frame : Frame) (p : Procedure) (root : NodeId) : Prop :=
  ∃ visited, p.walk root = .ok visited ∧ ∀ id ∈ visited, frame.Live id

theorem named (twins : Twins frame rename p q) (walks : Walks frame p root) (f : NodeKind → Option LocalId)
    (law : ∀ kind other, kind.Mirrors rename other → f other = (f kind).map rename)
    (accessed : ∀ kind var, f kind = some var → kind.accesses? = some var) {vars others : List LocalId}
    (here : ∀ var, var ∈ vars ↔ p.Under root fun kind => f kind = some var)
    (there : ∀ var, var ∈ others ↔ q.Under root fun kind => f kind = some var) :
    (∀ var, var ∈ others ↔ ∃ own ∈ vars, rename own = var)
      ∧ ∀ var ∈ vars, frame.Own var ∧ var < p.locals.size := by
  obtain ⟨seen, walked, live⟩ := walks
  constructor
  · intro var
    have renamed : q.Under root (fun kind => f kind = some var)
        ↔ p.Under root fun kind => ∃ own, f kind = some own ∧ rename own = var :=
      twins.under_iff walked fun kind other mirrors => by
        rw [law kind other mirrors, Option.map_eq_some_iff]
    rw [there, renamed]
    simp only [here, Procedure.Under]
    constructor
    · rintro ⟨nodes, met, node, mem, own, names, rfl⟩
      exact ⟨own, ⟨nodes, met, node, mem, names⟩, rfl⟩
    · rintro ⟨own, ⟨nodes, met, node, mem, names⟩, rfl⟩
      exact ⟨nodes, met, node, mem, own, names, rfl⟩
  · intro var mem
    obtain ⟨nodes, met, node, isNode, names⟩ := (here var).mp mem
    simp only [Procedure.visited, walked, except_bind_ok_iff, Except.ok.injEq, exists_eq_left', pure,
      Except.pure] at met
    subst met
    obtain ⟨id, isMet, atId⟩ := mem_filterMap.mp isNode
    exact twins.live_own (live id isMet) atId (accessed _ _ names)

theorem Walks.visited (twins : Twins frame rename p q) (walks : Walks frame p root) :
    ∃ nodes nodes', p.visited root = .ok nodes ∧ q.visited root = .ok nodes' := by
  obtain ⟨seen, walked, _⟩ := walks
  obtain ⟨seen', walked', _⟩ := twins.walk walked
  exact ⟨_, _, except_bind_ok_iff.mpr ⟨seen, walked, rfl⟩,
    except_bind_ok_iff.mpr ⟨seen', walked', rfl⟩⟩

theorem Walks.node (walks : Walks frame p root) : ∃ node, p.nodes[root]? = some node := by
  obtain ⟨seen, walked, _⟩ := walks
  obtain ⟨node, here, _⟩ := except_bind_ok_iff.mp walked
  exact ⟨node, p.node_ok_iff.mp here⟩

abbrev Known (frame : Frame) (p : Procedure) (var : LocalId) : Prop := frame.Own var ∧ var < p.locals.size

variable (twins : Twins frame rename p q)

include twins

theorem storedLocals (walks : Walks frame p root) :
    ∃ stored stored', p.storedLocals root = .ok stored ∧ q.storedLocals root = .ok stored'
      ∧ (∀ var, var ∈ stored' ↔ ∃ own ∈ stored, rename own = var) ∧ ∀ var ∈ stored, Known frame p var := by
  obtain ⟨nodes, nodes', met, met'⟩ := walks.visited twins
  obtain ⟨stored, found⟩ : ∃ stored, p.storedLocals root = .ok stored :=
    ⟨_, except_bind_ok_iff.mpr ⟨nodes, met, rfl⟩⟩
  obtain ⟨stored', found'⟩ : ∃ stored', q.storedLocals root = .ok stored' :=
    ⟨_, except_bind_ok_iff.mpr ⟨nodes', met', rfl⟩⟩
  have stores : ∀ (proc : Procedure) (vars : List LocalId), proc.storedLocals root = .ok vars →
      ∀ var, var ∈ vars ↔ proc.Under root fun kind => kind.storesLocal? = some var := by
    intro proc vars known var
    rw [Verifier.mem_storedLocals_iff var known]
    have same : (fun kind : NodeKind => ∃ value, kind = .storeLocal var value)
        = fun kind => kind.storesLocal? = some var := by
      funext kind
      cases kind <;> simp [NodeKind.storesLocal?]
    rw [same]
  refine ⟨stored, stored', found, found', twins.named walks NodeKind.storesLocal?
    (fun _ _ mirrors => mirrors.storesLocal)
    (fun kind var names => ?_) (stores p stored found) (stores q stored' found')⟩
  cases kind <;> cases names
  rfl

theorem localsRead (walks : Walks frame p root) :
    ∃ read read', p.localsRead root = .ok read ∧ q.localsRead root = .ok read'
      ∧ (∀ var, var ∈ read' ↔ ∃ own ∈ read, rename own = var) ∧ ∀ var ∈ read, Known frame p var := by
  obtain ⟨nodes, nodes', met, met'⟩ := walks.visited twins
  have reads : ∀ (proc : Procedure) (nodes : List Node), proc.visited root = .ok nodes →
      ∀ var, var ∈ nodes.filterMap (fun node => node.kind.readsLocal?)
        ↔ proc.Under root fun kind => kind.readsLocal? = some var := by
    intro proc nodes met var
    simp only [mem_filterMap, Procedure.Under, met, Except.ok.injEq, exists_eq_left']
  refine ⟨_, _, except_bind_ok_iff.mpr ⟨nodes, met, rfl⟩,
    except_bind_ok_iff.mpr ⟨nodes', met', rfl⟩,
    twins.named walks NodeKind.readsLocal? (fun _ _ mirrors => mirrors.readsLocal)
    (fun kind var names => ?_) (reads p nodes met) (reads q nodes' met')⟩
  exact Option.or_eq_some_iff.mpr (.inl names)

theorem ofArgument {arg arg' : Argument} (same : arg'.masked = arg.masked)
    (walks : ∀ value, arg.early = some value → Walks frame p value) :
    ∃ summary summary', ArgSummary.ofArgument p arg = .ok summary
      ∧ ArgSummary.ofArgument q arg' = .ok summary'
      ∧ summary.Mirrors rename (Known frame p) summary'
      ∧ ∀ value, summary.value = some value → Walks frame p value := by
  unfold ArgSummary.ofArgument
  rw [Argument.masked_read same Argument.early fun _ => rfl,
    Argument.masked_read same Argument.placement fun _ => rfl,
    Argument.masked_read same Argument.ty fun _ => rfl]
  cases hasEarly : arg.early with
  | none => exact ⟨_, _, rfl, rfl, ⟨rfl, by simp [ArgSummary.ofPlacement], by simp [ArgSummary.ofPlacement],
      by simp [ArgSummary.ofPlacement], by simp [ArgSummary.ofPlacement]⟩, nofun⟩
  | some value =>
    obtain ⟨node, here⟩ := (walks value hasEarly).node
    obtain ⟨kind, there, mirrors⟩ := twins.node value node here
    obtain ⟨stored, stored', found, found', renamed, known⟩ := twins.storedLocals (walks value hasEarly)
    simp only [p.node_ok_iff.mpr here, q.node_ok_iff.mpr there, found, found', bind,
      Except.bind, Node.effects, Node.exceptions, mirrors.isLocalRead, mirrors.call]
    by_cases assigns : node.impact.effects.assigns = true
    · simp only [if_pos assigns]
      exact ⟨_, _, rfl, rfl, ⟨rfl, renamed, by simp [ArgSummary.ofPlacement], known,
        by simp [ArgSummary.ofPlacement]⟩, fun other same => walks other (hasEarly.trans same)⟩
    · simp only [if_neg assigns]
      exact ⟨_, _, rfl, rfl, ⟨rfl, by simp, by simp [ArgSummary.ofPlacement], by simp,
        by simp [ArgSummary.ofPlacement]⟩, fun other same => walks other (hasEarly.trans same)⟩

theorem addReads (related : List.Forall₂ (ArgSummary.Mirrors rename (Known frame p)) summaries others)
    (walks : ∀ summary ∈ summaries, ∀ value, summary.value = some value → Walks frame p value) :
    ∃ results results', ArgSummary.addReads p summaries = .ok results
      ∧ ArgSummary.addReads q others = .ok results'
      ∧ List.Forall₂ (ArgSummary.Mirrors rename (Known frame p)) results results' := by
  induction related with
  | nil => exact ⟨[], [], rfl, rfl, .nil⟩
  | @cons summary other later later' here behind ih =>
    obtain ⟨walksHere, walksLater⟩ := forall_mem_cons.mp walks
    obtain ⟨results, results', done, done', rest⟩ := ih walksLater
    have sameValue : other.value = summary.value := here.same ArgSummary.value fun _ _ _ => rfl
    have sameStores : later'.any (fun other => !other.stored.isEmpty)
        = later.any fun other => !other.stored.isEmpty :=
      any_forall₂ behind fun _ _ mirrors => congrArg not mirrors.noStores
    simp only [ArgSummary.addReads, done, done', sameValue, sameStores, bind, Except.bind]
    cases hasValue : summary.value with
    | none => exact ⟨_, _, rfl, rfl, .cons here rest⟩
    | some value =>
      obtain ⟨read, read', found, found', renamed, known⟩ := twins.localsRead (walksHere value hasValue)
      simp only [found, found']
      by_cases stores : later.any (fun other => !other.stored.isEmpty) = true
      · simp only [if_pos stores]
        refine ⟨_, _, rfl, rfl, .cons ⟨?_, here.stored, renamed, here.storedKnown, known⟩ rest⟩
        rw [here.rest]
      · simp only [if_neg stores]
        exact ⟨_, _, rfl, rfl, .cons here rest⟩

theorem ofArguments {args' : List Argument} (same : args'.map Argument.masked = args.map Argument.masked)
    (walks : ∀ arg ∈ args, ∀ value, arg.early = some value → Walks frame p value) :
    ∃ summaries summaries', ArgSummary.ofArguments p args = .ok summaries
      ∧ ArgSummary.ofArguments q args' = .ok summaries'
      ∧ List.Forall₂ (ArgSummary.Mirrors rename (Known frame p)) summaries summaries' := by
  obtain ⟨summaries, summaries', found, found', related⟩ := mapM_forall₂ (forall₂_of_map same)
    fun arg mem arg' masked => twins.ofArgument masked (walks arg mem)
  simp only [ArgSummary.ofArguments, found, found', bind, Except.bind]
  refine twins.addReads (related.imp fun _ _ both => both.1) fun summary mem => ?_
  obtain ⟨_, both⟩ := forall₂_partner related mem
  exact both.2.2

end Twins

namespace Interference

structure Profile.Mirrors (rename : LocalId → LocalId) (known : LocalId → Prop) (profile other : Profile) :
    Prop where
  arg : profile.arg.Mirrors rename known other.arg
  likeCall : other.likeCall = profile.likeCall
  differs : other.differs = profile.differs

def Profile.masked (profile : Profile) : Profile :=
  { profile with arg := { profile.arg with stored := [], read := [] } }

section Mirrored

variable {rename : LocalId → LocalId} {known : LocalId → Prop}

theorem Profile.Mirrors.masked {profile other : Profile} (mirrors : profile.Mirrors rename known other) :
    other.masked = profile.masked := by
  unfold Profile.masked
  rw [mirrors.likeCall, mirrors.differs, mirrors.arg.rest]

theorem profilesFrom_mirrors (rules : Rules) {args : List ArgSummary}
    (related : List.Forall₂ (ArgSummary.Mirrors rename known) args others) (stackBefore : Bool)
    (last : Option Exceptions) :
    List.Forall₂ (Profile.Mirrors rename known) (profilesFrom rules stackBefore last args)
      (profilesFrom rules stackBefore last others) := by
  induction related generalizing stackBefore last with
  | nil => exact .nil
  | @cons arg other later later' here behind ih =>
    have sameStack : later'.any ArgSummary.hasStack = later.any ArgSummary.hasStack :=
      any_forall₂ behind fun _ _ mirrors => mirrors.same ArgSummary.hasStack fun _ _ _ => rfl
    have sameEffects : other.effects = arg.effects := here.same ArgSummary.effects fun _ _ _ => rfl
    have sameExceptions : other.exceptions = arg.exceptions :=
      here.same ArgSummary.exceptions fun _ _ _ => rfl
    have sameHere : other.hasStack = arg.hasStack := here.same ArgSummary.hasStack fun _ _ _ => rfl
    simp only [profilesFrom, isChecked, sameStack, sameEffects, sameExceptions, sameHere]
    exact .cons ⟨here, rfl, rfl⟩ (ih _ _)

theorem pins_mirrors (injective : ∀ a b, known a → known b → rename a = rename b → a = b)
    {later later' earlier earlier' : Profile} (second : later.Mirrors rename known later')
    (first : earlier.Mirrors rename known earlier') : pins later' earlier' = pins later earlier := by
  unfold pins
  rw [first.arg.storesWhatIsRead second.arg injective, second.likeCall, second.differs,
    second.arg.same ArgSummary.effects fun _ _ _ => rfl, first.arg.same ArgSummary.effects fun _ _ _ => rfl,
    first.arg.same ArgSummary.value fun _ _ _ => rfl]

theorem requests_mirrors (injective : ∀ a b, known a → known b → rename a = rename b → a = b) (rules : Rules)
    {others : List Profile} (related : List.Forall₂ (Profile.Mirrors rename known) profiles others) :
    requests rules others = requests rules profiles := by
  induction related with
  | nil => rfl
  | @cons profile other later later' here behind ih =>
    have samePins : later'.any (fun last => pins last other) = later.any fun last => pins last profile :=
      any_forall₂ behind fun _ _ mirrors => pins_mirrors injective mirrors here
    have sameSelf : pinsItself rules other = pinsItself rules profile := by
      change pinsItself rules other.masked = pinsItself rules profile.masked
      rw [here.masked]
    simp only [requests, samePins, sameSelf, ih]

theorem pinEffects_masked (profiles : List Profile) (count : Nat) (pinned : List Bool) :
    pinEffects (profiles.map Profile.masked) count pinned = pinEffects profiles count pinned := by
  induction count generalizing pinned with
  | zero => rfl
  | succ index ih =>
    simp only [pinEffects, ih, isOpen, getElem?_map, Option.any_map]
    rfl

theorem pinAll_masked (profiles : List Profile) : pinAll (profiles.map Profile.masked) = pinAll profiles := by
  funext pinned requested
  simp only [pinAll, pin, isOpen, pinEffects_masked, getElem?_map, Option.any_map]
  rfl

theorem placesFrom_masked (rules : Rules) (callBefore : Bool) (profiles : List Profile) :
    placesFrom rules callBefore (profiles.map Profile.masked) = placesFrom rules callBefore profiles := by
  induction profiles generalizing callBefore with
  | nil => rfl
  | cons profile later ih =>
    simp only [map_cons, placesFrom, ih, any_map]
    rfl

theorem dispatchRequests_masked (thisIndex : Nat) (profiles : List Profile) :
    dispatchRequests thisIndex (profiles.map Profile.masked) = dispatchRequests thisIndex profiles := by
  simp only [dispatchRequests, zipIdx_map, map_map]
  rfl

theorem blockRequests_masked (rule : FaultRule) (proc : Procedure) (profiles : List Profile) (pinned : List Bool) :
    blockRequests rule proc (profiles.map Profile.masked) pinned = blockRequests rule proc profiles pinned := by
  simp only [blockRequests, zip_map_left, mapM_map]
  rfl

end Mirrored

end Interference

namespace Twins

open Interference

variable {frame : Frame} {rename : LocalId → LocalId} {p q : Procedure}

theorem faultBlocks (twins : Twins frame rename p q) {value : NodeId} (walks : Walks frame p value)
    (rule : FaultRule) : Interference.faultBlocks rule q value = Interference.faultBlocks rule p value := by
  cases rule with
  | raises =>
    obtain ⟨node, here⟩ := walks.node
    obtain ⟨kind, there, _⟩ := twins.node value node here
    simp only [Interference.faultBlocks, p.node_ok_iff.mpr here, q.node_ok_iff.mpr there]
    rfl
  | allocatesStack =>
    obtain ⟨nodes, nodes', met, met'⟩ := walks.visited twins
    obtain ⟨seen, walked, _⟩ := walks
    obtain ⟨answer, found⟩ : ∃ answer, p.contains value NodeKind.isStackAlloc = .ok answer :=
      ⟨_, except_bind_ok_iff.mpr ⟨nodes, met, rfl⟩⟩
    obtain ⟨answer', found'⟩ : ∃ answer', q.contains value NodeKind.isStackAlloc = .ok answer' :=
      ⟨_, except_bind_ok_iff.mpr ⟨nodes', met', rfl⟩⟩
    have same : answer' = answer := by
      rw [Bool.eq_iff_iff, Verifier.contains_iff found',
        Verifier.contains_iff found]
      exact twins.under_iff walked fun kind other mirrors => by rw [mirrors.isStackAlloc]
    simp only [Interference.faultBlocks, twins.allocatesStack, found, found', same]

theorem blockRequests (twins : Twins frame rename p q) {rule : FaultRule}
    (walks : ∀ profile ∈ profiles, ∀ value, profile.arg.value = some value → Walks frame p value)
    (pinned : List Bool) :
    Interference.blockRequests rule q profiles pinned = Interference.blockRequests rule p profiles pinned := by
  unfold Interference.blockRequests
  have mem : ∀ entry ∈ profiles.zip pinned, entry.1 ∈ profiles := fun entry met => (of_mem_zip met).1
  generalize profiles.zip pinned = entries at mem
  induction entries with
  | nil => rfl
  | cons entry rest ih =>
    obtain ⟨here, later⟩ := forall_mem_cons.mp mem
    rw [mapM_cons, mapM_cons, ih later]
    cases hasValue : entry.1.arg.value with
    | none => simp only [hasValue]
    | some value => simp only [hasValue, twins.faultBlocks (walks entry.1 here value hasValue)]

theorem summaries_walk (found : ArgSummary.ofArguments p args = .ok summaries)
    (walks : ∀ arg ∈ args, ∀ value, arg.early = some value → Walks frame p value) :
    ∀ summary ∈ summaries, ∀ value, summary.value = some value → Walks frame p value := by
  intro summary mem value hasValue
  obtain ⟨index, atIndex⟩ := mem_iff_getElem?.mp mem
  have bound : index < args.length := by
    rw [← ArgSummary.ofArguments_length found]
    exact lt_length atIndex
  obtain ⟨same, atSame, describes⟩ := ArgSummary.ofArguments_describes found
    (List.getElem?_eq_getElem bound)
  cases atIndex.symm.trans atSame
  exact walks _ (getElem_mem bound) value (describes.value ▸ hasValue)

theorem analyse (twins : Twins frame rename p q) (settings : Settings) (id : CallId) {data' : Call}
    (both : data.Twins data')
    (walks : ∀ arg ∈ data.args.args, ∀ value, arg.early = some value → Walks frame p value) :
    Interference.analyse settings id q data' = Interference.analyse settings id p data := by
  obtain ⟨summaries, summaries', found, found', related⟩ := twins.ofArguments both.list.args walks
  have sameRules : rules settings data' = rules settings data := by
    unfold rules
    rw [both.list.size]
  have sameGuard : isGuarded settings data' = isGuarded settings data := by
    unfold isGuarded Call.dispatchesOnThis
    rw [both.rest]
  have mirrored := profilesFrom_mirrors (rules settings data) related false none
  have sameRequests := requests_mirrors (fun a b knownA knownB =>
    twins.renames.injective knownA.1 knownA.2 knownB.1 knownB.2) (rules settings data) mirrored
  have walksProfiles : ∀ profile ∈ profiles (rules settings data) summaries, ∀ value,
      profile.arg.value = some value → Walks frame p value := fun profile mem =>
    summaries_walk found walks profile.arg
      (profiles_args (rules settings data) summaries ▸ mem_map_of_mem mem)
  have masked := map_forall₂ mirrored fun _ _ mirrors => mirrors.masked
  change requests _ (profiles (rules settings data) summaries')
    = requests _ (profiles (rules settings data) summaries) at sameRequests
  change (profiles (rules settings data) summaries').map _ = (profiles (rules settings data) summaries).map _
    at masked
  have bound : ∀ (known : List ArgSummary) (next : List ArgSummary → Except Stop (List Mark)),
      (liftM (Except.ok known : Except Fault _) >>= next) = next known := fun _ _ => rfl
  simp only [Interference.analyse, found, found', bound, sameRules, sameGuard, both.list.hasStackArgs,
    both.list.thisIndex, sameRequests]
  generalize profiles (rules settings data) summaries = before at *
  generalize profiles (rules settings data) summaries' = after at *
  have samePins : pinAll after = pinAll before := by
    rw [← pinAll_masked, masked, pinAll_masked]
  have sameBlocks : ∀ pinned, Interference.blockRequests settings.target.faultRule q after pinned
      = Interference.blockRequests settings.target.faultRule p before pinned := by
    intro pinned
    rw [← blockRequests_masked, masked, blockRequests_masked, twins.blockRequests walksProfiles]
  have samePlaces : places (rules settings data) after = places (rules settings data) before := by
    rw [places, ← placesFrom_masked, masked, placesFrom_masked, places]
  have sameDispatch : ∀ index, dispatchRequests index after = dispatchRequests index before := by
    intro index
    rw [← dispatchRequests_masked, masked, dispatchRequests_masked]
  have sameNone : unpinned after = unpinned before := by
    have none : ∀ items : List Profile, unpinned items = unpinned (items.map Profile.masked) := by
      intro items
      rw [unpinned, unpinned, map_map]
      rfl
    rw [none, masked, ← none]
  simp only [samePins, sameBlocks, samePlaces, sameDispatch, sameNone]

end Twins

theorem ArgList.Twins.markComplete (twins : list.Twins other) :
    (∃ after after', list.markComplete = .ok after ∧ other.markComplete = .ok after' ∧ after.Twins after')
      ∨ ∃ fault fault', list.markComplete = .error fault ∧ other.markComplete = .error fault' := by
  unfold ArgList.markComplete
  rw [twins.stage]
  by_cases isFinal : list.stage = .finalized
  · rw [if_pos isFinal, if_pos isFinal]
    exact .inl ⟨_, _, rfl, rfl, { twins with stage := rfl }⟩
  · rw [if_neg isFinal, if_neg isFinal]
    exact .inr ⟨_, _, rfl, rfl⟩

theorem Interference.marked_masked (args : List Argument) (marks : List Mark) :
    (List.zipWith applyMark args marks).map Argument.masked
      = List.zipWith applyMark (args.map Argument.masked) marks := by
  rw [map_zipWith, zipWith_map_left]
  rfl

open Twins in
theorem Both.complete {frame : Frame} {rename : LocalId → LocalId} {p q : Procedure}
    (twins : Twins frame rename p q) (settings : Settings) {id : CallId} (here : p.calls[id]? = some data)
    (walks : ∀ arg ∈ data.args.args, ∀ value, arg.early = some value → Walks frame p value) :
    Same frame rename p q (Interference.complete settings id) := by
  refine bind (call twins id).lift ?_
  intro rename₁ p₁ q₁ now now' asked twins₁ _ both
  obtain ⟨atCall, rfl⟩ := Edit.call_ok (lift_edit_ok_iff.mp asked)
  cases here.symm.trans atCall
  rw [both.list.stage]
  by_cases wrong : data.args.stage ≠ .finalized
  · rw [if_pos wrong, if_pos wrong]
    trivial
  · rw [if_neg wrong, if_neg wrong]
    have state : ∀ proc : Procedure, (get : Attempt Procedure) proc = .ok proc proc := fun _ => rfl
    refine Alike.after (state p₁) (state q₁) ?_
    rw [twins₁.analyse settings id both walks]
    refine next (granted twins₁) fun marks _ twins₂ _ => ?_
    refine (modifyArgs twins₂ fun now now' _ both => ?_).lift
    refine (both.list.withArgs ?_).markComplete
    rw [Interference.marked_masked, both.list.args, Interference.marked_masked]

end CallLowering
