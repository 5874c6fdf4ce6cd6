import CallLowering.Proofs.TwinChecks

/-! Lowering at two levels of optimization. -/

namespace CallLowering

open List

variable {proc p : Procedure} {data : Call} {held : List LocalId} {name : String} {seen : List NodeId}
  {frame : Frame} {rename : LocalId → LocalId}

theorem Holds.walks {id : CallId} (holds : Holds proc id data seen)
    (done : Done proc seen) (isOpen : data.args.isMaterialized = false)
    (live : ∀ node ∈ seen, frame.Live node) {arg : Argument} (mem : arg ∈ data.args.args)
    {root : NodeId} (isRoot : arg.early = some root ∨ arg.late = some root) : Twins.Walks frame proc root := by
  obtain ⟨part, covered, within⟩ := holds.argumentCovered done isOpen mem isRoot
  exact ⟨part, covered.walk, fun node met => live node (within.subset met)⟩

namespace Lowering

theorem analysed {settings : Settings} {id : CallId} {m : Procedure} (holds : Holds p id data seen)
    (done : Done p seen) (present : ∀ arg ∈ data.args.args, arg.early.isSome = true)
    (completes : Interference.complete settings id p = .ok () m) :
    ∃ data', Holds m id data' seen ∧ Done m seen ∧ data'.args.isMaterialized = false
      ∧ ∀ arg ∈ data'.args.args, arg.early.isSome = true := by
  obtain ⟨marks, finalized, ⟨analysis⟩, set⟩ := Interference.complete_ok holds.here completes
  have isOpen : data.args.isMaterialized = false := by simp [ArgList.isMaterialized, finalized]
  have passage := Passage.rewritten holds set isOpen rfl (analysis.marked_map _ fun _ _ => rfl)
    (analysis.marked_map _ fun _ _ => rfl) rfl rfl
  refine ⟨_, passage.holds, passage.done done, rfl, fun arg mem => ?_⟩
  have sameEarly := analysis.marked_map Argument.early fun _ _ => rfl
  obtain ⟨before, there, same⟩ := mem_map.mp (sameEarly ▸ mem_map_of_mem mem)
  rw [← same]
  exact present before there

section Finishing

variable {era : Era} {rename : LocalId → LocalId} {s s' t t' : LoweringState} {settings : Settings}
  {id : CallId} {data : Call} {seen : List NodeId}

variable (loose : data.Loose) (holds : Holds s.proc id data seen) (done : Done s.proc seen)
  (sound : s.Sound) (live : ∀ node ∈ seen, era.Live node)

include loose holds done sound live

theorem settle_pairs (shapes : Shape.shapeArgs (settings.atLevel .minimal) id s = .ok () t)
    (pairs : Pairs era rename t t') (grows : ∀ node, s.proc.nodes.size ≤ node → era.Live node) :
    Lockstep era rename t t'
      (do
        Interference.complete (settings.atLevel .minimal) id
        let order ← Schedule.schedule Cost.flat id
        Materialize.materialize (settings.atLevel .minimal) id order
        checkCall (settings.atLevel .minimal) id)
      (do
        Interference.complete (settings.atLevel .full) id
        let order ← Schedule.schedule Cost.tree id
        Materialize.materialize (settings.atLevel .full) id order
        checkSettled (settings.atLevel .full) id) fun _ _ a b => b = a := by
  obtain ⟨visited₁, args, copies, ready⟩ := Shape.shapeArgs_ready loose holds sound shapes
  have holds₁ := ready.passage.holds
  have done₁ := ready.passage.done done
  have live₁ : ∀ node ∈ visited₁, era.Live node := by
    intro node mem
    rcases ready.passage.carries.new node mem with old | new
    · exact live node old
    · exact grows node new
  have prepared := ready.prepared loose
  refine Lockstep.next (.attempt pairs (.complete pairs.twins settings holds₁.here
    fun arg mem value isEarly => holds₁.walks done₁ loose.isOpen live₁ mem (.inl isEarly)))
    fun _ complete pairs₂ _ => ?_
  obtain ⟨m, completes, rfl⟩ := lift_attempt_ok_iff.mp complete
  obtain ⟨data₂, holds₂, done₂, isOpen₂, present₂⟩ := analysed holds₁ done₁
    (fun arg mem => (prepared arg mem).present) completes
  rw [Schedule.schedule_eq, Schedule.schedule_eq]
  refine Lockstep.bind (.edit pairs₂ (.place pairs₂.twins holds₂.here fun arg mem => ?_)) ?_
  · obtain ⟨value, isEarly⟩ := Option.isSome_iff_exists.mp (present₂ arg mem)
    exact ⟨value, by rw [Argument.value, isEarly]; rfl, holds₂.walks done₂ isOpen₂ live₁ mem (.inl isEarly)⟩
  intro rename₃ v v' order order' schedule pairs₃ _ ordered
  rw [← Schedule.schedule_eq] at schedule
  obtain ⟨q, schedules, rfl⟩ := lift_attempt_ok_iff.mp schedule
  obtain ⟨now, here, orders⟩ := ordered
  rw [Materialize.materialize_atLevel, Materialize.materialize_atLevel]
  refine Lockstep.next (.attempt pairs₃ (.materialize pairs₃.twins settings here orders))
    fun _ settle pairs₄ _ => ?_
  obtain ⟨r, settles, rfl⟩ := lift_attempt_ok_iff.mp settle
  rw [← Materialize.materialize_atLevel settings .minimal] at settles
  obtain ⟨data₄, settled⟩ := settled loose holds done sound (fun no : False => no.elim) (fun no => no.elim)
    shapes completes schedules settles
  exact .attempt pairs₄ (.check pairs₄.twins rfl settled)

theorem finish_pairs (pairs : Pairs era rename s s') :
    Alike (fun _ t _ t' => ∃ rename', Pairs era rename' t t' ∧ (t.pool.scopes = [] ↔ s.pool.scopes = []))
      (fun _ _ _ _ => True) (finishCall (settings.atLevel .minimal) id s)
      (finishSettled (settings.atLevel .full) id s') := by
  refine Alike.bind (Lockstep.shapeArgs pairs settings holds live) ?_
  intro _ t _ t' shapes _ now
  obtain ⟨rename₁, pairs₁⟩ := now
  have settles := settle_pairs loose holds done sound live shapes pairs₁ fun node => pairs.twins.live_new
  refine Alike.mono settles ?_
  intro _ u _ u' ran _ ended
  obtain ⟨rename₂, pairs₂, _, _⟩ := ended
  refine ⟨rename₂, pairs₂, ?_⟩
  obtain ⟨_, _, copies, ready⟩ := Shape.shapeArgs_ready loose holds sound shapes
  have samePool : u.pool = t.pool := by
    simp only [bind_ok_iff, lift_attempt_ok_iff] at ran
    obtain ⟨_, _, ⟨_, _, rfl⟩, _, _, ⟨_, _, rfl⟩, _, _, ⟨_, _, rfl⟩, _, _, rfl⟩ := ran
    rfl
  have holding : t.pool.scopes = s.pool.scopes.modifyHead (· ++ copies) := ready.holding
  rw [samePool, holding, modifyHead_eq_nil_iff]

end Finishing

end Lowering

-- The era of the time between outermost calls: nothing made so far belongs to it.
def Era.between (nodes locals : Nat) (proc : Procedure) : Era where
  nodes := nodes
  locals := locals
  madeNodes := proc.nodes.size
  madeLocals := proc.locals.size

theorem Renames.between {vars others : Array LocalVar} (renames : Renames frame rename vars others)
    {madeNodes : Nat} : Renames { frame with madeNodes, madeLocals := vars.size } rename vars others :=
  { renames with
    apart := fun _ _ made mem => absurd mem (Nat.not_lt.mpr made)
    free := fun var isFree => by
      obtain ⟨isMade, isCopy, _⟩ := renames.free var isFree
      exact ⟨isMade, isCopy, fun _ made mem => absurd mem (Nat.not_lt.mpr made)⟩
    ordered := renames.ordered.trans renames.within
    within := Nat.le_refl _ }

theorem Twins.between {q : Procedure} (twins : Twins frame rename p q) :
    Twins { frame with madeNodes := p.nodes.size, madeLocals := p.locals.size } rename p q :=
  { twins with
    renames := twins.renames.between
    accessed := fun id node var here accesses => by
      obtain ⟨mem, old, _⟩ := twins.accessed id node var here accesses
      have bound := lt_size here
      exact ⟨mem, old, fun made => absurd bound (Nat.not_lt.mpr made)⟩
    ordered := twins.ordered.trans twins.within
    within := Nat.le_refl _ }

namespace Pairs

variable {era : Era} {rename : LocalId → LocalId} {s s' : LoweringState}

variable (pairs : Pairs era rename s s')

include pairs

theorem between : Pairs (.between era.nodes era.locals s.proc) rename s s' :=
  ⟨pairs.twins.between, pairs.scopes⟩

theorem openScope : Pairs era rename s.opened s'.opened :=
  ⟨pairs.twins, congrArg (List.cons []) pairs.scopes⟩

theorem closeInner {parent : List LocalId} {rest : List (List LocalId)}
    (scopes : s.pool.scopes = held :: parent :: rest) : Pairs era rename s.closed s'.closed := by
  have scopes' : s'.pool.scopes = held.map rename :: parent.map rename :: rest.map (List.map rename) := by
    rw [pairs.scopes, scopes]
    rfl
  have closed : s.pool.closeScope = { s.pool with scopes := (parent ++ held) :: rest } := by
    simp only [CopyPool.closeScope, scopes]
  have closed' : s'.pool.closeScope
      = { s'.pool with scopes := (parent.map rename ++ held.map rename) :: rest.map (List.map rename) } := by
    simp only [CopyPool.closeScope, scopes']
  rw [LoweringState.closed, LoweringState.closed, closed, closed']
  refine ⟨pairs.twins.withLocals (pairs.twins.renames.repool (fun var isHeld => ?_) pairs.twins.renames.free)
    (fun _ _ => rfl) (Nat.le_refl _), ?_⟩
  · apply pairs.twins.renames.held
    change var ∈ s.pool.scopes.flatten
    change var ∈ ((parent ++ held) :: rest).flatten at isHeld
    rw [scopes]
    simp only [flatten_cons, mem_append] at isHeld ⊢
    grind
  · rw [map_cons, map_append]

-- The copies of the outermost scope are free again, and so are their counterparts.
theorem closeOutermost (scopes : s.pool.scopes = [held]) :
    Pairs (.between era.nodes era.locals s.proc) rename s.closed
      s'.closed := by
  have scopes' : s'.pool.scopes = [held.map rename] := by
    rw [pairs.scopes, scopes]
    rfl
  have closed : s.pool.closeScope
      = { available := held.foldl LocalSet.insert s.pool.available, scopes := [] } := by
    simp only [CopyPool.closeScope, scopes]
  have closed' : s'.pool.closeScope
      = { available := (held.map rename).foldl LocalSet.insert s'.pool.available, scopes := [] } := by
    simp only [CopyPool.closeScope, scopes']
  have between := pairs.between.twins
  rw [LoweringState.closed, LoweringState.closed, closed, closed']
  refine ⟨between.withLocals (between.renames.repool (forall_mem_nil _) fun var isFree => ?_)
    (fun _ _ => rfl) (Nat.le_refl _), rfl⟩
  rcases (LocalSet.mem_foldl_insert _ _ _).mp isFree with wasFree | isHeld
  · exact between.renames.free var wasFree
  · obtain ⟨own, mem, rfl⟩ := mem_map.mp isHeld
    obtain ⟨isMade, ty, here⟩ := between.renames.held own (by
      change own ∈ s.pool.scopes.flatten
      simpa [scopes] using mem)
    have bound := lt_size here
    exact ⟨between.renames.made own bound isMade, ⟨ty, between.renames.kept own _ here⟩,
      fun _ made mem => absurd mem (Nat.not_lt.mpr made)⟩

end Pairs

-- Pairs in the era of the outermost call that is being lowered, if there is one.
structure Paired (nodes locals : Nat) (era? : Option Era) (s s' : LoweringState) : Prop where
  pairs : ∃ rename, Pairs (era?.getD (.between nodes locals s.proc)) rename s s'
  scopes : s.pool.scopes = [] ↔ era? = none

namespace Paired

variable {nodes locals : Nat} {era? : Option Era} {s s' : LoweringState}

section Step

variable (paired : Paired nodes locals era? s s')

include paired

theorem step {x y : Step Unit} (runs : ∀ rename, Pairs (era?.getD (.between nodes locals s.proc)) rename s s' →
      Alike (fun _ t _ t' => ∃ rename', Pairs (era?.getD (.between nodes locals s.proc)) rename' t t'
        ∧ (t.pool.scopes = [] ↔ s.pool.scopes = [])) (fun _ _ _ _ => True) (x s) (y s')) :
    Alike (fun _ t _ t' => Paired nodes locals era? t t') (fun _ _ _ _ => True) (x s) (y s') := by
  obtain ⟨⟨rename, pairs⟩, scopes⟩ := paired
  refine Alike.mono (runs rename pairs) ?_
  intro _ t _ t' _ _ ended
  obtain ⟨rename', pairs', same⟩ := ended
  refine ⟨?_, same.trans scopes⟩
  cases era? with
  | none => exact ⟨rename', pairs'.between⟩
  | some era => exact ⟨rename', pairs'⟩

theorem attempt {x y : Attempt Unit}
    (both : ∀ frame rename, frame.toEra = era?.getD (.between nodes locals s.proc) →
      Twins frame rename s.proc s'.proc → Both frame rename s.proc s'.proc x y fun _ _ a b => b = a) :
    Alike (fun _ t _ t' => Paired nodes locals era? t t') (fun _ _ _ _ => True) ((liftM x : Step Unit) s)
      ((liftM y : Step Unit) s') := by
  refine paired.step fun rename pairs => ?_
  refine Alike.mono (Lockstep.attempt pairs (both _ rename rfl pairs.twins)) ?_
  intro _ t _ t' ran _ ended
  obtain ⟨rename', pairs', _⟩ := ended
  obtain ⟨_, _, rfl⟩ := lift_attempt_ok_iff.mp ran
  exact ⟨rename', pairs', Iff.rfl⟩

theorem closeScope {t t' : LoweringState}
    (mem : Paired nodes locals (some (era?.getD (.between nodes locals s.proc))) t t')
    (scopes : t.pool.scopes = held :: s.pool.scopes) : Paired nodes locals era? t.closed t'.closed := by
  obtain ⟨⟨rename, pairs⟩, _⟩ := mem
  cases outer : s.pool.scopes with
  | nil =>
    cases paired.scopes.mp outer
    rw [outer] at scopes
    refine ⟨⟨rename, pairs.closeOutermost scopes⟩, ?_⟩
    simp only [CopyPool.closeScope, scopes]
  | cons parent rest =>
    cases era? with
    | none =>
      rw [paired.scopes.mpr rfl] at outer
      cases outer
    | some era =>
      rw [outer] at scopes
      refine ⟨⟨rename, pairs.closeInner scopes⟩, ?_⟩
      simp only [CopyPool.closeScope, scopes, reduceCtorEq]

end Step

end Paired

namespace Lowering

theorem liveAt {nodes locals : Nat} {era? : Option Era} {id : NodeId}
    (live : era?.elim (id < nodes) (Era.Live · id)) : (era?.getD (.between nodes locals proc)).Live id := by
  cases era? with
  | none => exact .inl live
  | some era => exact live

-- The least level on one side, and on the other the full one with the check of settled arguments.
def levels (settings : Settings) (nodes locals : Nat) :
    Abreast (settings.atLevel .minimal) (settings.atLevel .full) (finishSettled (settings.atLevel .full)) where
  Index := Option Era
  related := Paired nodes locals
  ill _ _ _ _ := True
  live era? id := era?.elim (id < nodes) (Era.Live · id)
  inner era? s := some (era?.getD (.between nodes locals s.proc))
  stops _ _ _ _ _ := trivial
  node era? s s' id data paired here := by
    obtain ⟨⟨rename, pairs⟩, _⟩ := paired
    obtain ⟨kind, there, mirrors⟩ := pairs.twins.node id data here
    exact ⟨_, there, mirrors.children, mirrors.call⟩
  call era? s s' id data paired here := by
    obtain ⟨⟨rename, pairs⟩, _⟩ := paired
    obtain ⟨data', there, both⟩ := pairs.twins.call id data here
    exact ⟨data', there, both.list.stage, by rw [both.rest], both.list.map Argument.early fun _ => rfl⟩
  visits _ _ _ _ paired := by
    obtain ⟨⟨rename, pairs⟩, scopes⟩ := paired
    exact ⟨⟨rename, pairs.twins, pairs.scopes⟩, scopes⟩
  opens era? s s' paired := by
    obtain ⟨⟨rename, pairs⟩, _⟩ := paired
    refine ⟨⟨⟨rename, pairs.openScope⟩, by simp [CopyPool.openScope]⟩, fun id known => ?_⟩
    rcases known with live | new
    · exact liveAt live
    · exact pairs.twins.live_new new
  closes _ _ _ _ _ _ paired mem scopes := paired.closeScope mem scopes
  closesIll _ _ _ _ _ := trivial
  refresh _ _ _ id paired := paired.attempt fun _ _ _ twins => (Both.refreshNode twins id).lift
  finalize _ _ _ id data visited holds fresh live paired := by
    refine paired.attempt fun frame rename isEra twins => Both.finalize twins
      ⟨holds, fresh.stage, fun arg mem => (fresh.raw arg mem).loose⟩ (fun node mem => ?_) settings
    rw [isEra]
    exact liveAt (live node mem)
  finish _ _ _ _ _ _ loose holds done sound live paired :=
    paired.step fun _ => finish_pairs loose holds done sound fun node mem => liveAt (live node mem)

end Lowering

theorem NodeKind.Mirrors.refl {kind : NodeKind} : kind.Mirrors id kind := by
  cases kind with
  | readLocal var => exact .readLocal var
  | readField var offset => exact .readField var offset
  | storeLocal var value => exact .storeLocal var value
  | _ => exact .same _ rfl

theorem Built.declared (built : Built { name } proc) {id : NodeId} {node : Node} {var : LocalId}
    (here : proc.nodes[id]? = some node) (accesses : node.kind.accesses? = some var) : var < proc.locals.size := by
  obtain ⟨same, atSame, computed⟩ := built.exact_ id (lt_size here)
  cases here.symm.trans atSame
  obtain ⟨_, _, own, _, _, found, _⟩ := proc.impactOf_ok_iff.mp computed
  generalize node.kind = kind at accesses found
  cases kind with
  | readLocal other | readField other _ | storeLocal other _ =>
    cases accesses
    obtain ⟨data, known, _⟩ := except_bind_ok_iff.mp found
    exact lt_size (proc.localVar_ok_iff.mp known)
  | _ => cases accesses

theorem Built.paired (built : Built { name } proc) :
    Paired proc.nodes.size proc.locals.size none { proc } { proc } where
  pairs := by
    refine ⟨id, ⟨?_, rfl⟩⟩
    refine ⟨?_, rfl, fun _ node here => ⟨node.kind, here, .refl⟩, fun id node var here accesses => ?_, rfl,
      fun _ data here => ⟨data, here, .refl data⟩, rfl, Nat.le_refl _, Nat.le_refl _⟩
    · exact ⟨fun _ _ here => here, fun _ _ => rfl, fun _ _ made => made, fun _ _ _ _ _ _ same => same,
        forall_mem_nil _, forall_mem_nil _, Nat.le_refl _, Nat.le_refl _⟩
    · have mem := built.declared here accesses
      exact ⟨mem, fun _ => mem, fun _ => .inl mem⟩
  scopes := iff_of_true rfl rfl

namespace Lowering

theorem levels_twins (settings : Settings) (built : Built { name } proc) (unshared : proc.Unshared seen) :
    Alike (fun _ t _ t' => ∃ frame rename, Twins frame rename t.proc t'.proc) (fun _ _ _ _ => True)
      (proc.statements.forM (lowerTree (settings.atLevel .minimal) Transform.identity (depthLimit proc)) { proc })
      (proc.statements.forM (lowerTree (settings.atLevel .full) Transform.identity (depthLimit proc)) { proc }) := by
  have forest := built.asBuilt.forest unshared
  have fresh := built.asBuilt.fresh seen
  have least := (levels settings proc.nodes.size proc.locals.size).statements none forest fresh forest.valid
    built.paired
  have most := (Abreast.unmoved (settings.atLevel .full) (finishSettled (settings.atLevel .full))
    (fun _ _ _ _ => True) (fun _ _ => trivial) (fun _ _ _ _ _ => trivial)
    (finishSettled_alike (settings.atLevel .full))).statements () forest fresh (fun _ _ => trivial) rfl
  refine Alike.ofIff (least.ok_iff.trans most.ok_iff.symm) ?_
  intro _ t _ t' ran ran'
  obtain ⟨_, u, settled⟩ := most.ok_iff.mp ⟨_, t', ran'⟩
  rw [ran, settled] at least
  rw [ran', settled] at most
  obtain ⟨⟨rename, pairs⟩, _⟩ := least
  have sameState : t' = u := most
  exact ⟨_, rename, sameState ▸ pairs.twins⟩

end Lowering

open Lowering in
def Procedure.LowersTo (proc : Procedure) (settings : Settings) (after : Procedure) : Prop :=
  ∃ outcome : Outcome, proc.lower settings Transform.identity = .ok outcome ∧ outcome.refusal = none
    ∧ outcome.proc = after

-- Calls that were lowered alike, but for the order in which their late arguments are evaluated.
structure Call.SameButSchedule (data other : Call) : Prop where
  stage : other.args.stage = data.args.stage
  roles : other.args.args.map Argument.role = data.args.args.map Argument.role
  placements : other.args.args.map Argument.placement = data.args.args.map Argument.placement
  stackSize : other.args.stackSize = data.args.stackSize
  pinned : (other.args.args.map fun arg => arg.flags.needsTemp) = data.args.args.map fun arg => arg.flags.needsTemp
  placed : (other.args.args.map fun arg => arg.flags.needsPlace) = data.args.args.map fun arg => arg.flags.needsPlace
  early : (other.args.args.map fun arg => arg.early.isSome) = data.args.args.map fun arg => arg.early.isSome
  late : (other.args.args.map fun arg => arg.late.isSome) = data.args.args.map fun arg => arg.late.isSome
  order : other.args.lateOrder.Perm data.args.lateOrder

theorem Call.Twins.sameButSchedule {other : Call} (twins : data.Twins other) :
    data.SameButSchedule other where
  stage := twins.list.stage
  roles := twins.list.map _ fun _ => rfl
  placements := twins.list.map _ fun _ => rfl
  stackSize := twins.list.stackSize
  pinned := twins.list.map _ fun _ => rfl
  placed := twins.list.map _ fun _ => rfl
  early := twins.list.map _ fun _ => rfl
  late := twins.list.map _ fun _ => rfl
  order := twins.list.order

namespace Lowering

theorem lowersTo_iff {after : Procedure} {settings : Settings} :
    proc.LowersTo settings after ↔ ∃ t,
      proc.statements.forM (lowerTree settings Transform.identity (depthLimit proc)) { proc } = .ok () t
        ∧ t.proc = after := by
  unfold Procedure.LowersTo
  rw [lower_eq_ending]
  cases proc.statements.forM (lowerTree settings Transform.identity (depthLimit proc)) { proc } with
  | ok _ t => simp [ending]
  | error stop t => cases stop <;> simp [ending]

theorem lowers_iff (proc : Procedure) (settings : Settings) :
    (∃ after, proc.LowersTo settings after) ↔ ∃ b t,
      proc.statements.forM (lowerTree settings Transform.identity (depthLimit proc)) { proc } = .ok b t := by
  simp only [lowersTo_iff]
  constructor
  · intro lowers
    obtain ⟨_, t, ran, _⟩ := lowers
    exact ⟨(), t, ran⟩
  · intro runs
    obtain ⟨_, t, ran⟩ := runs
    exact ⟨_, t, ran, rfl⟩

theorem level_changes_schedule_only (settings : Settings) (name : String) (body : List Instruction)
    (made : List Made) (proc : Procedure) (before : List NodeId)
    (builds : Procedure.build name body = .ok (made, proc)) (unshared : proc.Unshared before) :
    ((∃ least, proc.LowersTo (settings.atLevel .minimal) least)
        ↔ ∃ most, proc.LowersTo (settings.atLevel .full) most)
      ∧ ∀ least most, proc.LowersTo (settings.atLevel .minimal) least →
        proc.LowersTo (settings.atLevel .full) most →
        most.calls.size = least.calls.size ∧ ∀ (id : CallId) (data other : Call),
          least.calls[id]? = some data → most.calls[id]? = some other → data.SameButSchedule other := by
  have alike := levels_twins settings (Built.body builds) unshared
  refine ⟨?_, fun least most lowers lowers' => ?_⟩
  · rw [lowers_iff, lowers_iff]
    exact alike.ok_iff
  · obtain ⟨t, ran, rfl⟩ := (lowersTo_iff).mp lowers
    obtain ⟨t', ran', rfl⟩ := (lowersTo_iff).mp lowers'
    rw [ran, ran'] at alike
    obtain ⟨frame, rename, twins⟩ := alike
    refine ⟨twins.count, fun id data other here there => ?_⟩
    obtain ⟨same, atSame, both⟩ := twins.call id data here
    cases there.symm.trans atSame
    exact both.sameButSchedule

-- Two statements that pass a struct by reference. In the second a load comes behind a cheaper sum.
def structTwiceAndLoad : List Instruction :=
  [.declare (.struct 0), .declare .ptr, .readLocal 0,
    .call { target := .method "first", args := [(0, .struct 0)] }, .statement 1,
    .readLocal 0, .readLocal 1, .readLocal 1, .binary .add 3 4, .readLocal 1, .intConst 8 .ptr,
    .binary .add 6 7, .load 8 true .i32, .intConst 7 .i32,
    .call { target := .method "second", args := [(2, .struct 0), (5, .ptr), (9, .i32), (10, .i32)] },
    .statement 11]

def byReference : Settings where
  target := Target.ofTriple ⟨.x64, .windows⟩
  types := { layouts := #[{ name := "S", size := 24,
                            fields := [⟨0, .i64⟩, ⟨8, .i64⟩, ⟨16, .i64⟩] }] }

-- The full level shares the copy and takes the load first.
theorem copy_shared_and_load_first :
    ∃ made proc least most data other, Procedure.build "caller" structTwiceAndLoad = .ok (made, proc)
      ∧ proc.Unshared [0, 1, 2, 3, 4, 5, 6, 7, 8, 9, 10, 11]
      ∧ proc.LowersTo (byReference.atLevel .minimal) least ∧ proc.LowersTo (byReference.atLevel .full) most
      ∧ least.locals.size = 4 ∧ most.locals.size = 3
      ∧ least.calls[1]? = some data ∧ most.calls[1]? = some other
      ∧ data.args.lateOrder = [0, 1, 2, 3] ∧ other.args.lateOrder = [0, 2, 1, 3]
      ∧ data.SameButSchedule other := by
  obtain ⟨⟨made, proc⟩, builds, checked⟩ := except_ok_of_any (Procedure.build "caller" structTwiceAndLoad)
    (fun result => result.2.unshared? == some [0, 1, 2, 3, 4, 5, 6, 7, 8, 9, 10, 11]
      && (result.2.lower (byReference.atLevel .minimal) Transform.identity).toOption.any (fun least =>
        least.refusal.isNone && least.proc.locals.size == 4
          && least.proc.calls[1]?.any fun data => data.args.lateOrder == [0, 1, 2, 3])
      && (result.2.lower (byReference.atLevel .full) Transform.identity).toOption.any fun most =>
        most.refusal.isNone && most.proc.locals.size == 3
          && most.proc.calls[1]?.any fun data => data.args.lateOrder == [0, 2, 1, 3])
    (by decide +kernel)
  simp only [Bool.and_eq_true, beq_iff_eq] at checked
  obtain ⟨⟨span, first⟩, second⟩ := checked
  obtain ⟨least, done, ended⟩ := except_ok_of_any _ _ first
  obtain ⟨most, done', ended'⟩ := except_ok_of_any _ _ second
  simp only [Bool.and_eq_true, beq_iff_eq, Option.isNone_iff_eq_none, Option.any_eq_true] at ended ended'
  obtain ⟨⟨unrefused, locals⟩, data, here, order⟩ := ended
  obtain ⟨⟨unrefused', locals'⟩, other, there, order'⟩ := ended'
  have unshared := proc.unshared?_sound span
  have lowers : proc.LowersTo (byReference.atLevel .minimal) least.proc := ⟨least, done, unrefused, rfl⟩
  have lowers' : proc.LowersTo (byReference.atLevel .full) most.proc := ⟨most, done', unrefused', rfl⟩
  have same := (level_changes_schedule_only byReference _ _ made proc _ builds unshared).2 _ _ lowers lowers'
  exact ⟨made, proc, least.proc, most.proc, data, other, builds, unshared, lowers, lowers', locals, locals',
    here, there, order, order', same.2 1 data other here there⟩

end Lowering

end CallLowering
