import CallLowering.Proofs.Idempotence

/-!
Two ways to lower, side by side. They walk over the trees alike and differ in what they do to a call once
everything it holds is lowered.
-/

namespace CallLowering

open List

variable {data : Call} {id : CallId} {seen : List NodeId} {arg : Argument} {index : Nat} {proc : Procedure}

section Results

variable {ε ε' σ σ' α α' β β' : Type}

-- Both runs ended well or both failed, with what has to hold of them then.
def Alike (well : α → σ → β → σ' → Prop) (ill : ε → σ → ε' → σ' → Prop) :
    EStateM.Result ε σ α → EStateM.Result ε' σ' β → Prop
  | .ok a s, .ok b t => well a s b t
  | .error e s, .error f t => ill e s f t
  | _, _ => False

namespace Alike

variable {well : β → σ → β' → σ' → Prop} {ill : ε → σ → ε' → σ' → Prop} {s : σ} {s' : σ'}
  {r' : EStateM.Result ε' σ' β'} {r : EStateM.Result ε σ β}

theorem mono {strong : β → σ → β' → σ' → Prop} (alike : Alike strong ill r r')
    (weaker : ∀ b t b' t', r = .ok b t → r' = .ok b' t' → strong b t b' t' → well b t b' t') :
    Alike well ill r r' := by
  cases r <;> cases r'
  · exact weaker _ _ _ _ rfl rfl alike
  · exact alike
  · exact alike
  · exact alike

theorem ok_iff (alike : Alike well ill r r') : (∃ b t, r = .ok b t) ↔ ∃ b t, r' = .ok b t := by
  cases r <;> cases r'
  · exact iff_of_true ⟨_, _, rfl⟩ ⟨_, _, rfl⟩
  · exact False.elim alike
  · exact False.elim alike
  · simp

theorem self {ill : ε → σ → ε → σ → Prop} (refl : ∀ e t, ill e t e t) {r : EStateM.Result ε σ α} :
    Alike (fun a t a' t' => a = a' ∧ t = t') ill r r := by
  cases r with
  | ok a t => exact ⟨rfl, rfl⟩
  | error e t => exact refl e t

theorem ofIff (iff : (∃ b t, r = .ok b t) ↔ ∃ b t, r' = .ok b t)
    (ended : ∀ b t b' t', r = .ok b t → r' = .ok b' t' → well b t b' t') :
    Alike well (fun _ _ _ _ => True) r r' := by
  cases r with
  | ok b t =>
    obtain ⟨b', t', rfl⟩ := iff.mp ⟨b, t, rfl⟩
    exact ended b t b' t' rfl rfl
  | error e t =>
    cases r' with
    | ok b' t' =>
      obtain ⟨_, _, failed⟩ := iff.mpr ⟨b', t', rfl⟩
      cases failed
    | error e' t' => trivial

section Shared

variable {x : EStateM ε σ α} {x' : EStateM ε' σ' α'} {f : α → EStateM ε σ β} {f' : α' → EStateM ε' σ' β'}

theorem bind {middle : α → σ → α' → σ' → Prop} (first : Alike middle ill (x s) (x' s'))
    (next : ∀ a m a' m', x s = .ok a m → x' s' = .ok a' m' → middle a m a' m' →
      Alike well ill (f a m) (f' a' m')) : Alike well ill ((x >>= f) s) ((x' >>= f') s') := by
  change Alike well ill (EStateM.bind x f s) (EStateM.bind x' f' s')
  unfold EStateM.bind
  cases ran : x s <;> cases ran' : x' s' <;> rw [ran, ran'] at first
  · exact next _ _ _ _ ran ran' first
  · exact False.elim first
  · exact False.elim first
  · exact first

theorem after {a : α} {a' : α'} {m : σ} {m' : σ'} (ran : x s = .ok a m) (ran' : x' s' = .ok a' m')
    (next : Alike well ill (f a m) (f' a' m')) : Alike well ill ((x >>= f) s) ((x' >>= f') s') := by
  have both : Alike (fun b n b' n' => b = a ∧ n = m ∧ b' = a' ∧ n' = m') ill (x s) (x' s') := by
    rw [ran, ran']
    exact ⟨rfl, rfl, rfl, rfl⟩
  refine bind both ?_
  rintro _ _ _ _ _ _ ⟨rfl, rfl, rfl, rfl⟩
  exact next

end Shared

theorem forM_range {f : Nat → EStateM ε σ Unit} {f' : Nat → EStateM ε' σ' Unit}
    (inv : Nat → σ → σ' → Prop) {count : Nat} (start : inv 0 s s')
    (round : ∀ index m m', index < count → (List.range index).forM f s = .ok () m → inv index m m' →
      Alike (fun _ t _ t' => inv (index + 1) t t') ill (f index m) (f' index m')) :
    Alike (fun _ t _ t' => inv count t t') ill ((List.range count).forM f s) ((List.range count).forM f' s') := by
  induction count with
  | zero => exact start
  | succ count ih =>
    rw [range_succ, forM_eq_forM, forM_eq_forM, forM_append, forM_append]
    have front := ih fun index m m' bound => round index m m' (Nat.lt_succ_of_lt bound)
    refine bind front fun _ m _ m' ran _ now => ?_
    refine bind (round count m m' (Nat.lt_succ_self count) ran now) fun _ _ _ _ _ _ last => ?_
    exact last

end Alike

end Results

theorem bind_next {ε σ α β : Type} {x : EStateM ε σ α} {f g : α → EStateM ε σ β} {s : σ}
    (same : ∀ a m, x s = .ok a m → f a m = g a m) : (x >>= f) s = (x >>= g) s := by
  change EStateM.bind x f s = EStateM.bind x g s
  unfold EStateM.bind
  cases ran : x s with
  | ok a m => exact same a m ran
  | error e m => rfl

namespace Step

theorem inScope_alike {well : Unit → LoweringState → Unit → LoweringState → Prop}
    {ill : Stop → LoweringState → Stop → LoweringState → Prop} {step step' : Step Unit}
    {s s' : LoweringState}
    (closes : ∀ e t e' t', ill e t e' t' →
      ill e t.closed e' t'.closed)
    (alike : Alike (fun a t a' t' =>
        well a t.closed a' t'.closed) ill
      (step s.opened) (step' s'.opened)) :
    Alike well ill (inScope step s) (inScope step' s') := by
  unfold inScope
  cases ran : step s.opened <;>
    cases ran' : step' s'.opened <;> rw [ran, ran'] at alike
  · exact alike
  · exact alike
  · exact alike
  · exact closes _ _ _ _ alike

end Step

namespace Lowering

-- What has to be shown of two ways to lower. The states are related at an index that changes with
-- the scope, and the relation may rest on the trees being made of live nodes.
structure Abreast (settings settings' : Settings) (finish : CallId → Step Unit) where
  Index : Type
  related : Index → LoweringState → LoweringState → Prop
  ill : Stop → LoweringState → Stop → LoweringState → Prop
  live : Index → NodeId → Prop
  inner : Index → LoweringState → Index
  stops : ∀ i s s' stop, related i s s' → ill stop s stop s'
  node : ∀ i s s' (id : NodeId) (data : Node), related i s s' → s.proc.nodes[id]? = some data →
    ∃ data' : Node, s'.proc.nodes[id]? = some data' ∧ data'.kind.children = data.kind.children
      ∧ data'.kind.call? = data.kind.call?
  call : ∀ i s s' (id : CallId) (data : Call), related i s s' → s.proc.calls[id]? = some data →
    ∃ data' : Call, s'.proc.calls[id]? = some data' ∧ data'.args.stage = data.args.stage
      ∧ data'.target = data.target
      ∧ data'.args.args.map Argument.early = data.args.args.map Argument.early
  visits : ∀ i s s' id, related i s s' → related i { s with visits := s.visits.push id }
    { s' with visits := s'.visits.push id }
  opens : ∀ i s s', related i s s' → related (inner i s) { s with pool := s.pool.openScope }
      { s' with pool := s'.pool.openScope }
    ∧ ∀ id, live i id ∨ s.proc.nodes.size ≤ id → live (inner i s) id
  closes : ∀ i s s' t t' held, related i s s' → related (inner i s) t t' →
    t.pool.scopes = held :: s.pool.scopes →
    related i { t with pool := t.pool.closeScope } { t' with pool := t'.pool.closeScope }
  closesIll : ∀ e t e' t', ill e t e' t' →
    ill e { t with pool := t.pool.closeScope } e' { t' with pool := t'.pool.closeScope }
  refresh : ∀ i s s' id, related i s s' → Alike (fun _ t _ t' => related i t t') ill
    ((liftM (Edit.refreshNode id) : Step Unit) s) ((liftM (Edit.refreshNode id) : Step Unit) s')
  finalize : ∀ i s s' id data visited, Holds s.proc id data visited → data.Fresh →
    (∀ node ∈ visited, live i node) → related i s s' →
    Alike (fun _ t _ t' => related i t t') ill
      ((liftM (AbiInfo.finalize settings id) : Step Unit) s)
      ((liftM (AbiInfo.finalize settings' id) : Step Unit) s')
  finish : ∀ i s s' id data visited, data.Loose → Holds s.proc id data visited → Done s.proc visited →
    s.pool.Sound s.proc → (∀ node ∈ visited, live i node) → related i s s' →
    Alike (fun _ t _ t' => related i t t') ill (finishCall settings id s) (finish id s')

namespace Abreast

variable {settings settings' : Settings} {finish : CallId → Step Unit}

abbrev Follows (pair : Abreast settings settings' finish) (i : pair.Index) :=
  Alike (fun (_ : Unit) t (_ : Unit) t' => pair.related i t t') pair.ill

-- Both ways lower trees of at most that many nodes whose calls are as built, or both fail.
def Within (pair : Abreast settings settings' finish) (limit : Nat) (lower lower' : NodeId → Step Unit) : Prop :=
  ∀ (i : pair.Index) (id : NodeId) (s s' : LoweringState) (visited : List NodeId), visited.length ≤ limit →
    Forest s.proc [id] visited → Fresh s.proc visited → s.pool.Sound s.proc →
    (∀ node ∈ visited, pair.live i node) → pair.related i s s' →
    pair.Follows i (lower id s) (lower' id s')

def Together (pair : Abreast settings settings' finish) (lower lower' : NodeId → Step Unit) : Prop :=
  ∀ limit, pair.Within limit lower lower'

variable (pair : Abreast settings settings' finish) {lower lower' : NodeId → Step Unit}
  {i : pair.Index} {s s' : LoweringState}

theorem each {limit : Nat} (together : pair.Within limit lower lower') (lowers : Lowers lower)
    {roots : List NodeId} (seen : List NodeId) (few : seen.length ≤ limit) (forest : Forest s.proc roots seen)
    (fresh : Fresh s.proc seen) (sound : s.Sound) (live : ∀ node ∈ seen, pair.live i node)
    (related : pair.related i s s') : pair.Follows i (roots.forM lower s) (roots.forM lower' s') := by
  induction roots generalizing s s' seen with
  | nil => exact related
  | cons root rest ih =>
    obtain ⟨a, b, rfl, atRoot, others, apart, callsApart⟩ := forest.split [root] rest
    have freshRoot := fresh.subset fun id mem => mem_append_left b mem
    have freshRest := fresh.subset fun id mem => mem_append_right a mem
    have liveRoot := fun node (mem : node ∈ a) => live node (mem_append_left b mem)
    have liveRest := fun node (mem : node ∈ b) => live node (mem_append_right a mem)
    rw [length_append] at few
    simp only [forM_eq_forM, forM_cons]
    refine Alike.bind (together i root s s' a (by omega) atRoot freshRoot sound liveRoot related) ?_
    intro _ m _ m' ran _ now
    obtain ⟨a', copies, left⟩ := lowers root s m a atRoot freshRoot sound ran
    have outside : ∀ id ∈ b, id ∉ a := fun id inB inA => apart inA inB
    have callsOutside : ∀ call ∈ s.proc.callsIn b, call ∉ s.proc.callsIn a := fun call inB inA =>
      callsApart inA inB
    exact ih b (by omega) (others.frame left.grown outside callsOutside)
      (freshRest.frame left.grown others.valid callsOutside) left.sound liveRest now

section Visits

variable (together : pair.Together lower lower') (sound : s.Sound) (related : pair.related i s s')

include together sound related

theorem option {root : Option NodeId} {part : List NodeId} (forest : Forest s.proc root.toList part)
    (fresh : Fresh s.proc part) (live : ∀ node ∈ part, pair.live i node) {node : NodeId}
    (isRoot : root = some node) : pair.Follows i (lower node s) (lower' node s') := by
  subst isRoot
  exact together _ i node s s' part (Nat.le_refl _) forest fresh sound live related

theorem target (loose : data.Loose) (holds : Holds s.proc id data seen) (fresh : Fresh s.proc seen)
    (live : ∀ node ∈ seen, pair.live i node) :
    pair.Follows i (lowerTarget lower id s) (lowerTarget lower' id s') := by
  have forest := holds.forest
  rw [loose.owned] at forest
  obtain ⟨trees, behind, rfl, _, atTarget, _, _⟩ := forest.split _ _
  have mem : ∀ node ∈ behind, node ∈ trees ++ behind := fun node met => mem_append_right _ met
  obtain ⟨data', here', _, sameTarget, _⟩ := pair.call i s s' id data related holds.here
  refine Alike.after (Step.asks (Edit.call_answers holds.here))
    (Step.asks (Edit.call_answers here')) ?_
  rw [sameTarget]
  cases isTarget : data.target.node? with
  | none => exact related
  | some node =>
    exact pair.option together sound related atTarget
      (fresh.subset mem) (fun node met => live node (mem node met)) isTarget

theorem early (lowers : Lowers lower) {tree : List NodeId} (here : s.proc.calls[id]? = some data)
    (atIndex : data.args.args[index]? = some arg) (forest : Forest s.proc arg.early.toList tree)
    (outside : id ∉ s.proc.callsIn tree) (fresh : Fresh s.proc tree) (live : ∀ node ∈ tree, pair.live i node) :
    pair.Follows i (lowerEarly Transform.identity lower id index s)
      (lowerEarly Transform.identity lower' id index s') := by
  have sameEarly : ∀ {u u' : LoweringState}, pair.related i u u' → u.proc.calls[id]? = some data →
      ∃ data' arg', u'.proc.calls[id]? = some data' ∧ data'.args.args[index]? = some arg'
        ∧ arg'.early = arg.early := by
    intro u u' related here
    obtain ⟨data', here', _, _, earlies⟩ := pair.call i u u' id data related here
    have atBoth := congrArg (fun list : List (Option NodeId) => list[index]?) earlies
    simp only [getElem?_map, atIndex, Option.map_some, Option.map_eq_some_iff] at atBoth
    obtain ⟨arg', atArg', same⟩ := atBoth
    exact ⟨data', arg', here', atArg', same⟩
  obtain ⟨data', arg', here', atArg', same⟩ := sameEarly related here
  refine Alike.after (Step.asks (Edit.arg_answers here atIndex))
    (Step.asks (Edit.arg_answers here' atArg')) ?_
  rw [same]
  cases hasEarly : arg.early with
  | none => exact related
  | some node =>
    refine Alike.bind (pair.option together sound related forest fresh live hasEarly) ?_
    intro _ m _ m' ran _ now
    have lowered : Ran lower (some node) s m := ran
    have kept : m.proc.calls[id]? = some data :=
      (lowered.callKept lowers (hasEarly ▸ forest) fresh sound outside).trans here
    obtain ⟨data'', arg'', here'', atArg'', same''⟩ := sameEarly now kept
    -- both lists have this node there already
    have putBack := modifyArg_idle kept
      (fun arg => { arg with early := some node }) atIndex (by rw [← hasEarly])
    have putBack' := modifyArg_idle
      here'' (fun arg => { arg with early := some node }) atArg'' (by rw [← hasEarly, ← same''])
    refine Alike.after (transformed_identity node m) (transformed_identity node m') ?_
    rw [Step.asks (s := { m with visits := m.visits.push node }) putBack,
      Step.asks (s := { m' with visits := m'.visits.push node }) putBack']
    exact pair.visits i m m' node now

theorem earlies (lowers : Lowers lower) {trees : List NodeId}
    (here : s.proc.calls[id]? = some data) (forest : Forest s.proc (data.args.args.filterMap Argument.early) trees)
    (outside : id ∉ s.proc.callsIn trees) (fresh : Fresh s.proc trees) (live : ∀ node ∈ trees, pair.live i node) :
    pair.Follows i ((List.range data.args.size).forM (lowerEarly Transform.identity lower id) s)
      ((List.range data.args.size).forM (lowerEarly Transform.identity lower' id) s') := by
  refine Alike.forM_range (fun _ => pair.related i) related ?_
  intro index u u' bound ran now
  obtain ⟨front, front', copies, fronted⟩ := lowerEarlies_front lowers here trees forest outside fresh sound
    index (Nat.le_of_lt bound) ran
  have atIndex : data.args.args[index]? = some data.args.args[index] := getElem?_eq_getElem bound
  obtain ⟨tree, mem, next⟩ := fronted.upcoming here forest outside fresh atIndex
  exact pair.early together fronted.accounted.sound now lowers next.here atIndex next.forest
    next.outside next.fresh (fun node met => live node (mem node met))

theorem firstVisit (lowers : Lowers lower) (holds : Holds s.proc id data seen) (asBuilt : data.Fresh)
    (fresh : Fresh s.proc seen) (live : ∀ node, node ∈ seen ∨ s.proc.nodes.size ≤ node → pair.live i node) :
    pair.Follows i
      (lowerCall settings Transform.identity lower id s) (lowerCallWith settings' finish lower' id s') := by
  rw [lowerCall_eq_with]
  obtain ⟨data', here', sameStage, _, _⟩ := pair.call i s s' id data related holds.here
  refine Alike.after (Step.asks (Edit.call_answers holds.here))
    (Step.asks (Edit.call_answers here')) ?_
  have notCompleted : ¬ data.args.stage.isCompleted = true := by simp [asBuilt.stage, Stage.isCompleted]
  have notCompleted' : ¬ data'.args.stage.isCompleted = true := by rwa [sameStage]
  simp only [if_neg notCompleted, if_neg notCompleted']
  refine Alike.bind (pair.finalize i s s' id data seen holds asBuilt
    (fun node mem => live node (.inl mem)) related) fun _ u _ u' lifted _ relatedU => ?_
  obtain ⟨finalized, finalizes, rfl⟩ := lift_attempt_ok_iff.mp lifted
  obtain ⟨data₁, visited₁, placed, loose⟩ := AbiInfo.finalize_loose holds
    asBuilt finalizes
  have fresh₁ := placed.fresh holds fresh
  have sound₁ := sound.kept placed.grown
  have live₁ := fun node (mem : node ∈ visited₁) => live node (placed.carries.new node mem)
  refine Alike.bind (pair.target together (s := { s with proc := finalized }) sound₁ relatedU loose
    placed.holds fresh₁ live₁) fun _ m _ m' targets _ relatedM => ?_
  obtain ⟨trees, behind, _, _, parts, first⟩ := lowerTarget_targeted lowers loose placed.holds fresh₁
    sound₁ targets
  obtain ⟨data₂, here₂, _, _, earlies⟩ := pair.call i m m' id data₁ relatedM first.here
  have sameSize : data₂.args.size = data₁.args.size := by
    simpa [ArgList.size] using congrArg List.length earlies
  refine Alike.after (Step.asks (Edit.call_answers first.here))
    (Step.asks (Edit.call_answers here₂)) ?_
  simp only [sameSize]
  have inTrees : ∀ node ∈ trees, node ∈ visited₁ := fun node mem => parts ▸ mem_append_left _ mem
  have freshTrees := (fresh₁.subset inTrees).frame first.accounted.grown first.before.valid
    fun call inTrees inTarget => first.callsApart inTrees inTarget
  refine Alike.bind (pair.earlies together first.accounted.sound relatedM lowers first.here first.forest
    first.outside freshTrees (fun node mem => live₁ node (inTrees node mem)))
    fun _ e _ e' enters _ relatedE => ?_
  obtain ⟨visited₂, copies, accounted⟩ := inputs_accounted lowers loose placed.holds fresh₁ sound₁ targets
    first.here enters
  refine pair.finish i e e' id data₁ visited₂ loose (accounted.holds placed.holds) accounted.done
    accounted.sound (fun node mem => ?_) relatedE
  rcases accounted.carries.new node mem with old | new
  · exact live₁ node old
  · exact live node (.inr (Nat.le_trans placed.grown.size_le new))

end Visits

-- By induction on the length of the path that is left, as the walk goes. The states may differ in size,
-- but both leave enough for the tree.
theorem overTree_together (together : pair.Together lower lower') (lowers : Lowers lower)
    {length : Nat} (limit length' : Nat) (long : limit ≤ length) (long' : limit ≤ length') :
    pair.Within limit (overTree (visitCall settings Transform.identity lower) length)
      (overTree (visitCallWith settings' finish lower') length') := by
  induction length generalizing limit length' with
  | zero =>
    intro i id s s' seen few forest
    obtain ⟨below, rfl, _⟩ := forest.atRoot
    simp only [length_append, length_singleton] at few
    omega
  | succ length ih =>
    intro i id s s' seen few forest fresh sound live related
    obtain ⟨below, rfl, under, outside, callOutside⟩ := forest.atRoot
    simp only [length_append, length_singleton] at few
    obtain ⟨length', rfl⟩ : ∃ less, length' = less + 1 := ⟨length' - 1, by omega⟩
    have freshBelow := fresh.subset fun other mem => mem_append_left [id] mem
    have liveBelow := fun node (mem : node ∈ below) => live node (mem_append_left [id] mem)
    obtain ⟨node, here⟩ := forest.root_node
    obtain ⟨node', here', sameChildren, sameCall⟩ := pair.node i s s' id node related here
    have atKind := s.proc.kindAt_of here rfl
    cases isCall : node.kind.call? with
    | none =>
      rw [overTree_plain here isCall, overTree_plain here' (sameCall.trans isCall), sameChildren]
      rw [s.proc.owned_of_kind atKind isCall] at under
      have within := ih below.length length' (by omega) (by omega)
      exact Alike.bind (pair.each within (overTree_lowers settings lowers length) below (Nat.le_refl _) under
        freshBelow sound liveBelow related) fun _ m _ m' _ _ now => pair.refresh i m m' id now
    | some call =>
      have named : s.proc.callAt id = some call := (s.proc.callAt_eq atKind).trans isCall
      obtain ⟨data, atCall, asBuilt⟩ := fresh call (mem_filterMap.mpr ⟨id, by simp, named⟩)
      obtain ⟨data', atCall', sameStage, _, _⟩ := pair.call i s s' call data related atCall
      have isOpen : data.args.isMaterialized = false := by simp [ArgList.isMaterialized, asBuilt.stage]
      have isOpen' : data'.args.isMaterialized = false := by
        simp [ArgList.isMaterialized, sameStage, asBuilt.stage]
      rw [overTree_call here isCall, overTree_call here' (sameCall.trans isCall), visitCall_eq_with]
      rw [s.proc.owned_of_call (s.proc.callAt_some_iff.mp named) atCall] at under
      obtain ⟨relatedIn, liveIn⟩ := pair.opens i s s' related
      have holds : Holds s.proc call data below := ⟨atCall, under, callOutside call named⟩
      have soundIn := CopyPool.openScope_sound sound
      refine Alike.bind ?_ fun _ m _ m' _ _ now => pair.refresh i m m' id now
      rw [visitCallWith_open atCall isOpen, visitCallWith_open atCall' isOpen', ← lowerCall_eq_with]
      refine Step.inScope_alike pair.closesIll ((pair.firstVisit together (s := s.opened) soundIn
        relatedIn lowers holds asBuilt freshBelow
        (fun node met => liveIn node (met.imp_left (liveBelow node)))).mono ?_)
      intro _ t _ t' ran _ now
      obtain ⟨_, _, copies, lowered⟩ := lowerCall_lowered (s := s.opened) lowers
        holds asBuilt freshBelow soundIn ran
      exact pair.closes i s s' t t' copies related now
        (by simpa [CopyPool.Holding, CopyPool.openScope] using lowered.holding)

theorem lowerTree_together {depth : Nat} :
    pair.Together (lowerTree settings Transform.identity depth) (lowerTreeWith settings' finish depth) := by
  induction depth with
  | zero =>
    intro limit i id s s' seen _ _ _ _ _ related
    exact pair.stops i s s' _ related
  | succ depth ih =>
    intro limit i id s s' seen _ forest fresh sound live related
    have few := length_le_of_bounded forest.once forest.valid
    have few' : seen.length ≤ s'.proc.nodes.size := by
      refine length_le_of_bounded forest.once fun node met => ?_
      obtain ⟨_, here', _⟩ := pair.node i s s' node _ related (Array.getElem?_eq_getElem (forest.valid node met))
      exact lt_size here'
    exact pair.overTree_together ih (lowerTree_lowers settings depth) seen.length
      (s'.proc.nodes.size + 2) (by omega) (by omega) i id s s' seen (Nat.le_refl _) forest fresh sound live
      related

theorem statements (i : pair.Index) (forest : Forest proc proc.statements seen) (fresh : Fresh proc seen)
    (live : ∀ node ∈ seen, pair.live i node) (related : pair.related i { proc } { proc }) :
    pair.Follows i (proc.statements.forM (lowerTree settings Transform.identity (depthLimit proc)) { proc })
      (proc.statements.forM (lowerTreeWith settings' finish (depthLimit proc)) { proc }) :=
  pair.each (pair.lowerTree_together _) (lowerTree_lowers settings _) seen (Nat.le_refl _)
    forest fresh (CopyPool.empty_sound proc) live related

-- Where the other way leaves every call as the first one does, the states stay the same.
def unmoved (settings : Settings) (finish : CallId → Step Unit)
    (ill : Stop → LoweringState → Stop → LoweringState → Prop) (refl : ∀ e t, ill e t e t)
    (closesIll : ∀ e t e' t', ill e t e' t' →
      ill e { t with pool := t.pool.closeScope } e' { t' with pool := t'.pool.closeScope })
    (finishes : ∀ s id data visited, data.Loose → Holds s.proc id data visited → Done s.proc visited →
      s.pool.Sound s.proc → Alike (fun _ t _ t' => t = t') ill (finishCall settings id s) (finish id s)) :
    Abreast settings settings finish where
  Index := Unit
  related _ s s' := s = s'
  ill := ill
  live _ _ := True
  inner _ _ := ()
  stops _ s _ stop same := same ▸ refl stop s
  node _ _ _ _ data same here := ⟨data, same ▸ here, rfl, rfl⟩
  call _ _ _ _ data same here := ⟨data, same ▸ here, rfl, rfl, rfl⟩
  visits _ _ _ _ same := by rw [same]
  opens _ _ _ same := ⟨by rw [same], fun _ _ => trivial⟩
  closes _ _ _ _ _ _ _ same _ := by rw [same]
  closesIll := closesIll
  refresh _ _ _ _ same := same ▸ (Alike.self refl).mono fun _ _ _ _ _ _ same => same.2
  finalize _ _ _ _ _ _ _ _ _ same := same ▸ (Alike.self refl).mono fun _ _ _ _ _ _ same => same.2
  finish _ s _ id data visited loose holds done sound _ same :=
    same ▸ finishes s id data visited loose holds done sound

end Abreast

def ending : EStateM.Result Stop LoweringState Unit → Except Fault Outcome
  | .ok () state => .ok ⟨state.proc, state.visits, none⟩
  | .error (.refusal refusal) state => .ok ⟨state.proc, state.visits, some refusal⟩
  | .error (.fault fault) _ => .error fault

theorem lower_eq_ending (settings : Settings) (transform : Transform) (proc : Procedure) :
    proc.lower settings transform
      = ending (proc.statements.forM (lowerTree settings transform (depthLimit proc)) { proc }) := by
  have all : lowerStatements settings transform { proc }
      = proc.statements.forM (lowerTree settings transform (depthLimit proc)) { proc } :=
    rfl
  unfold Procedure.lower
  rw [all]
  cases proc.statements.forM (lowerTree settings transform (depthLimit proc)) { proc } with
  | ok _ state => rfl
  | error stop state => cases stop <;> rfl

end Lowering

end CallLowering
