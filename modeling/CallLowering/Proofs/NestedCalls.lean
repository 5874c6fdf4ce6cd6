import CallLowering.Proofs.FilledLists
import CallLowering.Proofs.OrderPreservation

/-! Calls that are evaluated under a node. Exact cached effects tell whether there is one. -/

namespace CallLowering

open Materialize

open List

variable {p q : Procedure} {data : Call} {id : CallId} {index : Nat} {settings : Settings} {order : List Nat}
  {roots : List NodeId} {s t : LoweringState} {root : NodeId} {kind : NodeKind} {node top : Node}

variable (proc : Procedure)

-- What nodes that read locals have, and lists of such nodes, and what no node loses as long as those that
-- change have it in the end.
structure Durable (free : Procedure → NodeId → Prop) : Prop where
  kept : ∀ {p q : Procedure} {nodes : NodeId → Prop} {calls : CallId → Prop} {id : NodeId}, free p id →
    Extends nodes calls p q → (∀ other, nodes other → free q other) → free q id
  reread : ∀ {p q : Procedure} {kind : NodeKind} {ty : ValueType} {id : NodeId}, kind.mentionsLocal?.isSome = true →
    Edit.addNode kind ty p = .ok id q → free q id
  list : ∀ {p q : Procedure} {uses : List FieldUse} {ty : ValueType} {id : NodeId},
    Edit.addNode (.fieldList uses) ty p = .ok id q → (∀ use ∈ uses, free p use.node) → free q id
  relist : ∀ {p q : Procedure} {uses : List FieldUse} {ty : ValueType} {id : NodeId},
    Edit.replaceNode id (.fieldList uses) ty p = .ok () q → Extends (· = id) (fun _ => False) p q →
    (∀ use ∈ uses, free p use.node ∧ use.node ≠ id ∧ ∃ temp, p.kindAt use.node = some (.readLocal temp)) → free q id

namespace Procedure

theorem inputs_of_kind {id : NodeId} (here : proc.kindAt id = some kind) (plain : kind.call? = none) :
    proc.inputs id = kind.children := by
  obtain ⟨node, atNode, rfl⟩ := proc.kindAt_some_iff.mp here
  exact proc.links_of_plain Call.inputs atNode plain

def CallsUnder (proc : Procedure) (root : NodeId) : Prop :=
  ∃ nodes, proc.visited root = .ok nodes ∧ ∃ node ∈ nodes, node.kind.call?.isSome = true

instance (proc : Procedure) (root : NodeId) : Decidable (proc.CallsUnder root) :=
  decidable_of_iff ((match proc.visited root with
    | .ok nodes => nodes.any fun node => node.kind.call?.isSome
    | .error _ => false) = true) (by
      cases walked : proc.visited root with
      | ok nodes => simp [CallsUnder, walked]
      | error fault => simp [CallsUnder, walked])

theorem callsUnder_of_walk {seen : List NodeId} (walked : proc.walk root = .ok seen) :
    proc.CallsUnder root ↔ ∃ id ∈ seen, ∃ node, proc.nodes[id]? = some node
      ∧ node.kind.call?.isSome = true := by
  have collected : proc.visited root = .ok (seen.filterMap fun other => proc.nodes[other]?) := by
    unfold Procedure.visited
    rw [walked]
    rfl
  constructor
  · rintro ⟨nodes, found, node, mem, isCall⟩
    cases collected.symm.trans found
    obtain ⟨id, met, here⟩ := mem_filterMap.mp mem
    exact ⟨id, met, node, here, isCall⟩
  · rintro ⟨id, met, node, here, isCall⟩
    exact ⟨_, collected, node, mem_filterMap.mpr ⟨id, met, here⟩, isCall⟩

theorem exact_call {id : NodeId} (here : proc.nodes[id]? = some node)
    (exact_ : proc.Exact id) (isCall : node.kind.call?.isSome = true) : node.effects.calls = true :=
  proc.exact_shows here .calls exact_ fun _ found => (proc.ownImpact_signs found).calls.trans isCall

theorem exact_calls_found {seen : List NodeId} (spans : Spans proc.inputs roots seen)
    (exact_ : ∀ id ∈ seen, proc.Exact id) (isRoot : root ∈ roots) (atRoot : proc.nodes[root]? = some top)
    (calls : top.effects.calls = true) :
    ∃ id ∈ seen, ∃ node, proc.nodes[id]? = some node ∧ node.kind.call?.isSome = true := by
  by_contra none_
  -- without a call among them, no node says that it calls
  have silent := proc.exact_hidden exact_ spans .calls fun id met node own here atOwn => by
    have plain : node.kind.call? = none := by
      by_contra isCall
      exact none_ ⟨id, met, node, here, Option.isSome_iff_ne_none.mpr isCall⟩
    refine ⟨by rw [(proc.ownImpact_signs atOwn).calls, plain]; rfl, fun ids refers child mem => ?_⟩
    exact proc.inputs_of_references here plain refers ▸ mem
  cases (silent root (spans.root_mem isRoot) top atRoot).symm.trans calls

theorem callsUnder_iff (exact_ : proc.ExactUnder root)
    (atRoot : proc.nodes[root]? = some top) : proc.CallsUnder root ↔ top.effects.calls = true := by
  obtain ⟨seen, walked, each⟩ := exact_
  have spans := proc.walk_spans walked
  rw [proc.callsUnder_of_walk walked]
  constructor
  · rintro ⟨id, met, node, here, isCall⟩
    obtain ⟨first, isRoot, above, below, atAbove, atBelow, within⟩ := proc.exact_within spans each met
    cases mem_singleton.mp isRoot
    cases atRoot.symm.trans atAbove
    cases here.symm.trans atBelow
    exact Impact.IsSign.calls.within within (proc.exact_call here (each id met) isCall)
  · exact proc.exact_calls_found spans each (by simp) atRoot

inductive CallFree (proc : Procedure) : NodeId → Prop where
  | node (id : NodeId) (kind : NodeKind) (here : proc.kindAt id = some kind) (plain : kind.call? = none)
      (children : ∀ child ∈ kind.children, CallFree proc child) : CallFree proc id

namespace CallFree

variable {p q : Procedure} {nodes : NodeId → Prop} {calls : CallId → Prop} {id : NodeId}

theorem leaf (here : p.kindAt id = some kind) (plain : kind.call? = none)
    (childless : kind.children = []) : p.CallFree id :=
  .node id kind here plain (by simp [childless])

theorem kept (free : p.CallFree id) (grown : Extends nodes calls p q)
    (changed : ∀ other, nodes other → q.CallFree other) : q.CallFree id := by
  induction free with
  | node id kind here plain _ ih =>
    by_cases mem : nodes id
    · exact changed id mem
    · exact .node id kind ((grown.kindAt_outside (p.kindAt_lt here) mem).trans here) plain ih

theorem added (free : p.CallFree id) (grown : Adds p q) : q.CallFree id :=
  free.kept grown fun _ => False.elim

theorem seen {seen : List NodeId} (spans : Spans p.inputs roots seen)
    (free : ∀ root ∈ roots, p.CallFree root) (met : id ∈ seen) : p.callAt id = none := by
  induction spans with
  | nil => simp at met
  | cons first rest below after _ _ ihUnder ihBehind =>
    cases free first (by simp) with
    | node _ kind here plain children =>
      rcases mem_append.mp met with under | behind
      · exact ihUnder (by rwa [p.inputs_of_kind here plain]) under
      · rcases mem_cons.mp behind with rfl | later
        · rw [p.callAt_eq here, plain]
        · exact ihBehind (fun root isRoot => free root (by simp [isRoot])) later

theorem not_callsUnder (free : p.CallFree id) : ¬ p.CallsUnder id := by
  rintro ⟨nodes, collected, node, mem, isCall⟩
  obtain ⟨walk, walked, found⟩ := except_bind_ok_iff.mp collected
  cases found
  obtain ⟨other, met, here⟩ := mem_filterMap.mp mem
  have silent := seen (p.walk_spans walked) (by simpa using free) met
  rw [p.callAt_eq (p.kindAt_of here rfl)] at silent
  simp [silent] at isCall

theorem durable : Durable CallFree where
  kept := kept
  reread := by
    intro p q kind ty id mentions added
    obtain ⟨_, here⟩ := Edit.addNode_kindAt added
    cases kind with
    | readLocal | readField | localAddr => exact .leaf here rfl rfl
    | _ => cases mentions
  list := by
    intro p q uses ty id added each
    refine .node id _ (Edit.addNode_kindAt added).2 rfl fun child isChild => ?_
    obtain ⟨use, mem, rfl⟩ := mem_map.mp isChild
    exact (each use mem).added (Edit.addNode_adds added)
  relist := by
    intro p q uses ty id replaced grown each
    obtain ⟨impact, old, _, atOld, rfl⟩ := Edit.replaceNode_ok replaced
    refine .node id (.fieldList uses) ((Procedure.kindAt_some_iff _).mpr
      ⟨_, Array.getElem?_setIfInBounds_self_of_lt (lt_size atOld), rfl⟩) rfl fun child isChild => ?_
    obtain ⟨use, mem, rfl⟩ := mem_map.mp isChild
    obtain ⟨_, apart, temp, isRead⟩ := each use mem
    exact .leaf ((grown.kindAt_outside (p.kindAt_lt isRead) apart).trans isRead) rfl rfl

theorem ofExact {seen : List NodeId} (spans : Spans p.inputs roots seen) (exact_ : ∀ id ∈ seen, p.Exact id) :
    ∀ id ∈ seen, ∀ node, p.nodes[id]? = some node → node.effects.calls = false → p.CallFree id := by
  refine spans.each fun id met children node here noCall => ?_
  have atKind := p.kindAt_of here rfl
  have plain : node.kind.call? = none := by
    by_contra isCall
    have calls := p.exact_call here (exact_ id met) (Option.isSome_iff_ne_none.mpr isCall)
    simp [noCall] at calls
  refine .node id node.kind atKind plain fun child isChild => ?_
  have linked : child ∈ p.inputs id := p.inputs_of_kind atKind plain ▸ isChild
  obtain ⟨below, atChild, within⟩ := p.exact_child here (exact_ id met) linked
  refine children child linked below atChild (Bool.eq_false_iff.mpr fun calls => ?_)
  have above : node.effects.calls = true := Impact.IsSign.calls.within within calls
  simp [noCall] at above

end CallFree

end Procedure

-- What the call reads back late from temps and copies has the property.
def Call.ReadsBack (free : Procedure → NodeId → Prop) (proc : Procedure) (data : Call) : Prop :=
  ∀ arg ∈ data.args.args, arg.early.isSome = true → ∀ late, arg.late = some late → free proc late

-- Later on the nodes still have it, and so has what the call reads back then.
def ReadsOn (free : Procedure → NodeId → Prop) (id : CallId) (p q : Procedure) : Prop :=
  (∀ node, free p node → free q node) ∧ ∃ data, q.calls[id]? = some data ∧ data.ReadsBack free q

section Durable

variable {free : Procedure → NodeId → Prop}

theorem Call.ReadsBack.set {after : Argument} (reads : data.ReadsBack free p) (kept : ∀ id, free p id → free q id)
    (slot : after.early.isSome = true → ∀ late, after.late = some late → free q late) :
    (data.withArgs (data.args.args.set index after)).ReadsBack free q := by
  intro arg mem hasEarly late isLate
  rcases mem_or_eq_of_mem_set mem with before | rfl
  · exact kept late (reads arg before hasEarly late isLate)
  · exact slot hasEarly late isLate

namespace Durable

variable (laws : Durable free) {retbufAsLocal : Bool}

include laws

theorem still {calls : CallId → Prop} {node : NodeId} (grown : Extends (fun _ => False) calls p q)
    (holds : free p node) : free q node := laws.kept holds grown fun _ => False.elim

open Edit

theorem localFields {var : LocalId} {base : Nat} {pieces : List Piece} {list : NodeId}
    (done : Shape.localFields var base pieces p = .ok list q) : free q list := by
  simp only [Shape.localFields, bind_ok_iff] at done
  obtain ⟨uses, m, reads, added⟩ := done
  obtain ⟨_, uses, rfl, each, _⟩ := mapM_adds (fun use : FieldUse => use) (fun _ q _ use => free q use.node)
    (fun _ _ => True) (fun piece _ u use v _ ran => by
      simp only [bind_ok_iff, ask_ok_iff, pure_ok_iff] at ran
      obtain ⟨offset, _, ⟨_, rfl⟩, read, _, here, rfl, rfl⟩ := ran
      exact ⟨addNode_adds here, _, rfl, laws.reread rfl here⟩)
    (fun _ _ _ _ _ _ _ one back => laws.still back one) (fun _ _ _ _ _ _ _ _ _ => trivial) Extends.refl reads
  rw [map_id'] at added
  refine laws.list added fun use mem => ?_
  obtain ⟨_, _, one⟩ := forall₂_partner each.flip mem
  exact one

theorem shapeArgs (here : s.proc.calls[id]? = some data)
    (loose : ∀ arg ∈ data.args.args, arg.late = none) (done : Shape.shapeArgs settings id s = .ok () t) :
    ∃ args, t.proc.calls[id]? = some (data.withArgs args) ∧ (data.withArgs args).ReadsBack free t.proc := by
  have run := Shape.shapeArgs_each (fun before after proc => before.late = none → ∀ late, after.late = some late →
    free proc late) here ?_ ?_ done
  · obtain ⟨_, args, atEnd, sameLength, each⟩ := run
    refine ⟨args, atEnd, fun arg mem _ late isLate => ?_⟩
    obtain ⟨index, bound, rfl⟩ := getElem_of_mem mem
    have bound : index < args.length := bound
    obtain ⟨after, atAfter, reads⟩ := each index _ (getElem?_eq_getElem (sameLength ▸ bound))
    obtain ⟨_, rfl⟩ := List.getElem?_eq_some_iff.mp atAfter
    exact reads (loose _ (List.getElem_mem _)) late isLate
  · intro index arg after data u v _ here atIndex ran atEnd _ loose late isLate
    cases Shape.shapeArg_by here atIndex ran with
    | unchanged _ same =>
      subst same
      cases Call.slot_inj atIndex atEnd (by rw [Call.withArgs_set atIndex, here])
      cases loose.symm.trans isLate
    | apart _ _ _ _ _ _ _ _ _ taken set same =>
      subst same
      cases Call.slot_inj atIndex atEnd (modifyArg_slot (taken.adds.calls ▸ here) atIndex set)
      cases loose.symm.trans isLate
    | copied _ copy store late' u m m' q _ _ _ taken stored passes set same =>
      subst same
      have added := ((Step.structCopy_adds taken).trans (addNode_adds stored)).trans passes.adds
      cases Call.slot_inj atIndex atEnd (modifyArg_slot (added.calls ▸ here) atIndex set)
      cases isLate
      refine laws.still (modifyArg_extends set) ?_
      cases passes with
      | address done => exact laws.reread rfl done
      | fields _ _ _ done => exact laws.localFields done
  · exact fun _ _ _ _ grown reads loose late isLate => laws.still grown (reads loose late isLate)

theorem fieldToTemps {uses : List FieldUse} {fields : List (NodeId × FieldUse)}
    (done : uses.mapM Materialize.fieldToTemp p = .ok fields q) :
    Adds p q ∧ ∀ field ∈ fields, p.nodes.size ≤ field.2.node ∧ free q field.2.node
      ∧ ∃ temp, q.kindAt field.2.node = some (.readLocal temp) := by
  obtain ⟨grown, fields, rfl, each, _⟩ := mapM_adds (fun field : NodeId × FieldUse => field)
    (fun p q _ field => p.nodes.size ≤ field.2.node ∧ free q field.2.node
      ∧ ∃ temp, q.kindAt field.2.node = some (.readLocal temp)) (fun _ _ => True)
    (fun use _ u field v _ ran => by
      refine ⟨fieldToTemp_adds ran, field, rfl, ?_⟩
      obtain ⟨temp, m, m', read, atTemp, atStore, atRead, same⟩ := fieldToTemp_ok ran
      rw [same]
      obtain ⟨new, isRead⟩ := addNode_kindAt atRead
      have before := ((addLocal_adds atTemp).trans (addNode_adds atStore)).size_le
      exact ⟨new ▸ before, laws.reread rfl atRead, temp, isRead⟩)
    (fun _ _ m' _ _ field front one back => by
      obtain ⟨new, holds, temp, isRead⟩ := one
      exact ⟨Nat.le_trans front.size_le new, laws.still back holds, temp,
        (back.kindAt_outside (m'.kindAt_lt isRead) not_false).trans isRead⟩)
    (fun _ _ _ _ _ _ _ _ _ => trivial) Extends.refl done
  refine ⟨grown, fun field mem => ?_⟩
  rw [map_id'] at mem
  obtain ⟨_, _, one⟩ := forall₂_partner each.flip mem
  exact one

theorem fieldsToTemps {value : Materialize.FieldValue} {early : NodeId}
    (here : p.nodes[value.list]? = some node) (isList : node.kind = .fieldList value.uses)
    (done : Materialize.fieldsToTemps value p = .ok early q) : free q value.list := by
  obtain ⟨fields, m, m', atFields, replaced, ran⟩ := fieldsToTemps_ok done
  obtain ⟨_, reads⟩ := laws.fieldToTemps atFields
  refine laws.still (sequence_adds ran) (laws.relist replaced
    (relist_extends here isList atFields replaced) fun use mem => ?_)
  obtain ⟨field, inFields, rfl⟩ := mem_map.mp mem
  obtain ⟨new, holds, isRead⟩ := reads field inFields
  exact ⟨holds, (Nat.lt_of_lt_of_le (lt_size here) new).ne', isRead⟩

theorem materializeArg {isLate : Bool} (here : p.calls[id]? = some data) (reads : data.ReadsBack free p)
    (done : Materialize.materializeArg settings id retbufAsLocal index p = .ok isLate q) :
    ReadsOn free id p q := by
  obtain ⟨same, arg, atSame, atIndex, settled⟩ := materializeArg_ok done
  cases here.symm.trans atSame
  cases settled with
  | ready late listed same =>
    subst same
    exact ⟨fun _ holds => holds, data, here, reads⟩
  | kept value early late unmarked stays listed same =>
    subst same
    exact ⟨fun _ holds => holds, data, here, reads⟩
  | moved value early loose unmarked deferred listed set =>
    have kept : ∀ node, free p node → free q node := fun _ => laws.still (modifyArg_extends set)
    exact ⟨kept, _, modifyArg_slot here atIndex set, reads.set kept fun hasEarly => by cases hasEarly⟩
  | pinned value early loose marked allowed listed stored =>
    cases toTemps_ok stored with
    | fields fields early m spread stored set =>
      obtain ⟨node, atList, isList, _⟩ := fieldValue_some spread
      have grown := fieldsToTemps_extends atList isList stored
      have holds := laws.fieldsToTemps atList isList stored
      have later := modifyArg_extends set
      have kept : ∀ node, free p node → free q node := fun _ before =>
        laws.still later (laws.kept before grown (by rintro _ rfl; exact holds))
      refine ⟨kept, _, modifyArg_slot ((grown.callKept id not_false).trans here) atIndex set, reads.set kept ?_⟩
      intro _ late isLate
      cases isLate
      exact laws.still later holds
    | whole node temp store read m m' m'' _ _ _ made stored back set =>
      have grown : Adds p m'' := ((addLocal_adds made).trans
        (addNode_adds stored)).trans (readTemp_adds back)
      have kept : ∀ node, free p node → free q node := fun _ before =>
        laws.still (modifyArg_extends set) (laws.still grown before)
      refine ⟨kept, _, modifyArg_slot (grown.calls ▸ here) atIndex set, reads.set kept ?_⟩
      intro _ late isLate
      cases isLate
      refine laws.still (modifyArg_extends set) ?_
      rcases readTemp_ok back with ⟨_, added⟩ | ⟨_, _, _, done⟩
      · exact laws.reread rfl added
      · exact laws.localFields done

theorem materializeArgs (late : List Nat) (data : Call) (p : Procedure)
    (here : p.calls[id]? = some data) (reads : data.ReadsBack free p)
    (done : Materialize.materializeArgs settings id retbufAsLocal order p = .ok late q) :
    ReadsOn free id p q := by
  induction order generalizing p data late with
  | nil =>
    obtain ⟨_, rfl⟩ := pure_ok_iff.mp done
    exact ⟨fun _ holds => holds, data, here, reads⟩
  | cons index rest ih =>
    simp only [Materialize.materializeArgs, bind_ok_iff, pure_ok_iff] at done
    obtain ⟨isLate, m, first, later, _, others, _, rfl⟩ := done
    obtain ⟨kept, now, atNow, reads⟩ := laws.materializeArg here reads first
    obtain ⟨keptLater, result⟩ := ih later now m atNow reads others
    exact ⟨fun node holds => keptLater node (kept node holds), result⟩

theorem materialize (once : order.Nodup) (here : p.calls[id]? = some data) (reads : data.ReadsBack free p)
    (done : Materialize.materialize settings id order p = .ok () q) : ReadsOn free id p q := by
  obtain ⟨_, late, m, ran, set⟩ := materialize_steps here done
  obtain ⟨args, run⟩ :=
    materializeArgs_slots once here ran
  obtain ⟨kept, now, atNow, reads⟩ := laws.materializeArgs late data p here reads ran
  cases run.here.symm.trans atNow
  have set := set args run.here
  have later := setCall_extends set
  refine ⟨fun node holds => laws.still later (kept node holds), _, Procedure.setCall_at run.here set, ?_⟩
  intro arg mem hasEarly late isLate
  exact laws.still later (reads arg mem hasEarly late isLate)

theorem lowered {m m' : Procedure} {cost : CostModel} (here : s.proc.calls[id]? = some data)
    (loose : ∀ arg ∈ data.args.args, arg.late = none) (shapes : Shape.shapeArgs settings id s = .ok () t)
    (completes : Interference.complete settings id t.proc = .ok () m)
    (schedules : Schedule.schedule cost id m = .ok order m')
    (settles : Materialize.materialize settings id order m' = .ok () q) : ReadsOn free id t.proc q := by
  obtain ⟨args, atShaped, reads⟩ := laws.shapeArgs here loose shapes
  obtain ⟨passed⟩ := passed atShaped completes schedules settles
  obtain ⟨data, atData, _, _, scheduled⟩ := Schedule.schedule_ok schedules
  cases (Procedure.setCall_at atShaped passed.marked).symm.trans atData
  have grown : Reworks id t.proc m' :=
    (setCall_extends passed.marked).follow (setCall_extends scheduled)
  have kept : ∀ node, free t.proc node → free m' node := fun _ => laws.still grown
  obtain ⟨keptLater, result⟩ := laws.materialize (passed.everyone.nodup_iff.mpr nodup_range)
    (Procedure.setCall_at atData scheduled) (by
      -- the marks leave every node of the list where it was
      intro arg mem hasEarly late isLate
      obtain ⟨marked, inMarked, rfl⟩ := mem_map.mp mem
      obtain ⟨index, bound, rfl⟩ := getElem_of_mem inMarked
      rw [getElem_zipWith] at hasEarly isLate
      exact kept late (reads _ (getElem_mem _) hasEarly late isLate)) settles
  exact ⟨fun node holds => keptLater node (kept node holds), result⟩

end Durable

end Durable

end CallLowering
