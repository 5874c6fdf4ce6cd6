import CallLowering.Proofs.Forest
import CallLowering.Proofs.Materializing

/-! The shapes that materializing gives to arguments. -/

namespace CallLowering

open List

variable {retbufAsLocal : Bool} {use : FieldUse} {uses : List FieldUse} {ids : List NodeId} {top : NodeId}

namespace Materialize

open Edit

variable {settings : Settings} {p q proc : Procedure} {id : CallId} {index : Nat} {data : Call}
  {arg : Argument} {tree : List NodeId} {value read : NodeId} {temp : LocalId} {ty : ValueType}

-- The node `top` runs the nodes in order; if there are none, it does nothing.
def RunsAll (p q : Procedure) : List NodeId → NodeId → Prop
  | [], top => NewNode p q top .nop .void
  | [only], top => top = only
  | first :: second :: rest, top =>
    ∃ chain, NewNode p q top (.comma first chain) .void ∧ RunsAll p q (second :: rest) chain

-- Where a field went: the temp, the node that stores to it, and the node that reads it.
structure StoredField where
  temp : LocalId
  store : NodeId
  read : NodeId
deriving DecidableEq, Repr

structure FieldInTemp (p q : Procedure) (use : FieldUse) (field : StoredField) : Prop where
  temp : NewTemp p q field.temp use.ty.actual
  store : NewNode p q field.store (.storeLocal field.temp use.node) .void
  read : NewNode p q field.read (.readLocal field.temp) use.ty.actual

structure FieldsInTemps (p q : Procedure) (uses : List FieldUse) (fields : List StoredField) : Prop where
  each : List.Forall₂ (FieldInTemp p q) uses fields
  once : (fields.map StoredField.temp).Nodup

def readBack (uses : List FieldUse) (fields : List StoredField) : List FieldUse :=
  List.zipWith (fun use field => { use with node := field.read }) uses fields

-- The value is a field list, or an effect in front of one.
inductive FieldsOf (proc : Procedure) (value : NodeId) : Option NodeId → NodeId → List FieldUse → Prop where
  | list (uses : List FieldUse) (here : proc.kindAt value = some (.fieldList uses)) :
      FieldsOf proc value none value uses
  | behind (first list : NodeId) (uses : List FieldUse)
      (top : proc.kindAt value = some (.comma first list))
      (here : proc.kindAt list = some (.fieldList uses)) : FieldsOf proc value (some first) list uses

-- The node reads a temp that holds all of an argument: whole, or in the pieces of its places.
inductive ReadsTemp (settings : Settings) (p q : Procedure) (arg : Argument) (temp : LocalId)
    (ty : ValueType) (read : NodeId) : Prop where
  | whole (together : settings.types.layoutOf arg.ty = .ok none ∨ arg.placement.isMulti = false)
      (reads : NewNode p q read (.readLocal temp) ty)
  | inPieces (layout : Layout) (pieces : List Piece) (uses : List FieldUse)
      (isStruct : settings.types.layoutOf arg.ty = .ok (some layout))
      (several : arg.placement.isMulti = true)
      (cut : Shape.pieces arg.placement layout settings.pointerSize = .ok pieces)
      (lists : NewNode p q read (.fieldList uses) .void)
      (reads : List.Forall₂ (fun piece use => use.offset = piece.offset ∧ use.ty = piece.ty
        ∧ NewNode p q use.node (.readField temp piece.offset) piece.ty) pieces uses)

-- The argument that evaluates its value to temps early and reads them late. Of the nodes under it only
-- the field list has changed.
inductive InTemps (settings : Settings) (p q : Procedure) (tree : List NodeId) (arg : Argument)
    (value : NodeId) : Argument → List LocalId → Prop where
  | fields (hoisted : Option NodeId) (list early : NodeId) (uses : List FieldUse)
      (fields : List StoredField) (spread : FieldsOf p value hoisted list uses)
      (stored : FieldsInTemps p q uses fields)
      (runs : RunsAll p q (hoisted.toList ++ fields.map StoredField.store) early)
      (reads : ∃ impact, q.nodes[list]? = some ⟨.fieldList (readBack uses fields), .void, impact⟩)
      (kept : ∀ id ∈ tree, id ≠ list → q.nodes[id]? = p.nodes[id]?) :
      InTemps settings p q tree arg value { arg with early := some early, late := some list }
        (fields.map StoredField.temp)
  | whole (temp : LocalId) (store read : NodeId) (node : Node) (here : p.nodes[value]? = some node)
      (single : ∀ hoisted list uses, ¬ FieldsOf p value hoisted list uses)
      (isTemp : NewTemp p q temp (tempType arg.ty node.ty))
      (stores : NewNode p q store (.storeLocal temp value) .void)
      (reads : ReadsTemp settings p q arg temp (tempType arg.ty node.ty) read)
      (kept : ∀ id ∈ tree, q.nodes[id]? = p.nodes[id]?) :
      InTemps settings p q tree arg value (arg.viaTemp temp store read) [temp]

inductive Course where
  | ready
  | pinned
  | deferred
  | kept
deriving DecidableEq, Repr

def course (arg : Argument) : Course :=
  if arg.late.isSome then .ready
  else if arg.flags.needsTemp then .pinned
  else if arg.placement.hasReg || arg.flags.needsPlace then .deferred
  else .kept

-- How an argument comes out of its course, and the temps that it takes. Unless it is evaluated to temps,
-- the nodes under it are the same as before.
inductive Outcome (settings : Settings) (p q : Procedure) (tree : List NodeId) (before : Argument) :
    Argument → List LocalId → Prop where
  | ready (taken : course before = .ready) (same : ∀ id ∈ tree, q.nodes[id]? = p.nodes[id]?) :
      Outcome settings p q tree before before []
  | pinned (taken : course before = .pinned) (value : NodeId) (here : before.early = some value)
      (after : Argument) (temps : List LocalId)
      (done : InTemps settings p q tree before value after temps) : Outcome settings p q tree before after temps
  | deferred (taken : course before = .deferred) (value : NodeId) (here : before.early = some value)
      (same : ∀ id ∈ tree, q.nodes[id]? = p.nodes[id]?) :
      Outcome settings p q tree before { before with early := none, late := some value } []
  | kept (taken : course before = .kept) (value : NodeId) (here : before.early = some value)
      (same : ∀ id ∈ tree, q.nodes[id]? = p.nodes[id]?) : Outcome settings p q tree before before []

section Ways

variable {m m' : Procedure} (way : Within p m m' q)

include way

theorem RunsAll.within (runs : RunsAll m m' ids top) : RunsAll p q ids top := by
  induction ids generalizing top with
  | nil => exact NewNode.within way runs
  | cons first rest ih =>
    cases rest with
    | nil => exact runs
    | cons second others =>
      obtain ⟨chain, made, later⟩ := runs
      exact ⟨chain, made.within way, ih later⟩

theorem FieldInTemp.within {field : StoredField} (stored : FieldInTemp m m' use field) :
    FieldInTemp p q use field :=
  ⟨stored.temp.within way, stored.store.within way, stored.read.within way⟩

theorem FieldsInTemps.within {fields : List StoredField}
    (stored : FieldsInTemps m m' uses fields) : FieldsInTemps p q uses fields :=
  ⟨stored.each.imp fun _ _ one => one.within way, stored.once⟩

theorem ReadsTemp.within (reads : ReadsTemp settings m m' arg temp ty read) :
    ReadsTemp settings p q arg temp ty read := by
  cases reads with
  | whole together reads => exact .whole together (reads.within way)
  | inPieces layout pieces uses isStruct several cut lists reads =>
    exact .inPieces layout pieces uses isStruct several cut (lists.within way)
      (reads.imp fun _ _ both => ⟨both.1, both.2.1, both.2.2.within way⟩)

end Ways

theorem sequence_runs (done : sequence ids p = .ok top q) : RunsAll p q ids top := by
  induction ids generalizing top q with
  | nil => exact newNode done
  | cons first rest ih =>
    cases rest with
    | nil =>
      obtain ⟨rfl, _⟩ := pure_ok_iff.mp done
      rfl
    | cons second others =>
      obtain ⟨chain, m, ran, added⟩ := bind_ok_iff.mp done
      exact ⟨chain, (newNode added).within (.last (sequence_adds ran)),
        (ih ran).within (.first (addNode_adds added) fun _ => False.elim)⟩

theorem fieldToTemp_inTemp {result : NodeId × FieldUse} (done : fieldToTemp use p = .ok result q) :
    ∃ field : StoredField, FieldInTemp p q use field
      ∧ result = (field.store, { use with node := field.read }) := by
  obtain ⟨temp, m, m', read, made, stored, reads, after⟩ := fieldToTemp_ok done
  have first := addLocal_adds made
  have second := addNode_adds stored
  have third := addNode_adds reads
  refine ⟨⟨temp, result.1, read⟩, ⟨?_, ?_, ?_⟩, Prod.ext rfl after⟩
  · exact (newTemp made).within (.first (second.trans third) fun _ => False.elim)
  · exact (newNode stored).within (.between first third fun _ => False.elim)
  · exact (newNode reads).within (.last (first.trans second))

theorem fieldToTemps_inTemps {results : List (NodeId × FieldUse)}
    (done : uses.mapM fieldToTemp p = .ok results q) :
    ∃ fields, FieldsInTemps p q uses fields ∧ results.map Prod.fst = fields.map StoredField.store
      ∧ results.map Prod.snd = readBack uses fields := by
  induction uses generalizing p results with
  | nil =>
    obtain ⟨rfl, rfl⟩ := pure_ok_iff.mp done
    exact ⟨[], ⟨.nil, .nil⟩, rfl, rfl⟩
  | cons use rest ih =>
    simp only [mapM_cons, bind_ok_iff, pure_ok_iff] at done
    obtain ⟨result, m, here, others, _, later, rfl, rfl⟩ := done
    obtain ⟨field, inTemp, rfl⟩ := fieldToTemp_inTemp here
    obtain ⟨fields, stored, stores, reads⟩ := ih later
    have front := fieldToTemp_adds here
    have back := fieldToTemps_adds later
    refine ⟨field :: fields, ⟨.cons ?_ ?_, ?_⟩, ?_, ?_⟩
    · exact inTemp.within (.first back fun _ => False.elim)
    · exact (stored.within (.last front)).each
    · -- The later temps are new when the first one is already there.
      refine nodup_cons.mpr ⟨fun again => ?_, stored.once⟩
      obtain ⟨other, mem, same⟩ := mem_map.mp again
      obtain ⟨_, _, one⟩ := forall₂_partner stored.each.flip mem
      exact Nat.not_lt_of_le one.temp.isNew (same ▸ inTemp.temp.lt)
    · rw [map_cons, map_cons, stores]
    · rw [map_cons, reads]
      rfl

theorem fieldsToTemps_inTemps {value : FieldValue} {early : NodeId} {node : Node}
    (here : p.nodes[value.list]? = some node) (isList : node.kind = .fieldList value.uses)
    (done : fieldsToTemps value p = .ok early q) :
    ∃ fields, FieldsInTemps p q value.uses fields
      ∧ RunsAll p q (value.hoisted.toList ++ fields.map StoredField.store) early
      ∧ ∃ impact, q.nodes[value.list]? = some ⟨.fieldList (readBack value.uses fields), .void, impact⟩ := by
  obtain ⟨results, m, m', spread, replaced, ran⟩ := fieldsToTemps_ok done
  obtain ⟨fields, stored, stores, reads⟩ := fieldToTemps_inTemps spread
  have bound : value.list < p.nodes.size := lt_size here
  have first := fieldToTemps_adds spread
  have second := relist_extends here isList spread replaced
  have third := sequence_adds ran
  rw [stores] at ran
  refine ⟨fields, ?_, ?_, ?_⟩
  · have later := second.trans third (fun _ mem _ => mem.elim) (fun _ mem => mem)
    exact stored.within (.first later fun _ same => same ▸ bound)
  · have front : Extends (· = value.list) (fun _ => False) p m' :=
      first.anywhere.follow second
    exact (sequence_runs ran).within (.last front)
  · obtain ⟨impact, _, _, _, rfl⟩ := replaceNode_ok replaced
    rw [← reads]
    exact ⟨impact, third.node
      (Array.getElem?_setIfInBounds_self_of_lt (Nat.lt_of_lt_of_le bound first.size_le))⟩

theorem readTemp_reads (done : readTemp settings arg temp ty p = .ok read q) :
    ReadsTemp settings p q arg temp ty read := by
  rcases readTemp_ok done with ⟨together, added⟩ | ⟨layout, pieces, cut, done⟩
  · exact .whole together (newNode added)
  · obtain ⟨_, uses, lists, reads, _⟩ := Shape.localFields_reads done
    exact .inPieces layout pieces uses cut.known cut.several cut.cut lists
      (reads.imp fun _ _ one => ⟨one.offset, one.ty, by simpa using one.reads⟩)

theorem fieldValue_fieldsOf {fields : FieldValue} (found : fieldValue? proc value = .ok (some fields)) :
    FieldsOf proc value fields.hoisted fields.list fields.uses := by
  obtain ⟨node, atList, isList, shape⟩ := fieldValue_some found
  obtain ⟨hoisted, list, uses⟩ := fields
  have here : proc.kindAt list = some (.fieldList uses) := proc.kindAt_of atList isList
  rcases shape with ⟨rfl, rfl⟩ | ⟨first, top, rfl, atTop, isComma⟩
  · exact .list uses here
  · exact .behind first list uses (proc.kindAt_of atTop isComma) here

theorem fieldsOf_fieldValue {list : NodeId} {hoisted : Option NodeId}
    (spread : FieldsOf proc value hoisted list uses) : fieldValue? proc value = .ok (some ⟨hoisted, list, uses⟩) := by
  cases spread with
  | list uses here =>
    obtain ⟨node, atNode, isList⟩ := proc.kindAt_some_iff.mp here
    rw [fieldValue?, proc.node_ok_iff.mpr atNode]
    simp only [bind, Except.bind, isList]
    rfl
  | behind first list uses top here =>
    obtain ⟨node, atNode, isComma⟩ := proc.kindAt_some_iff.mp top
    obtain ⟨second, atSecond, isList⟩ := proc.kindAt_some_iff.mp here
    rw [fieldValue?, proc.node_ok_iff.mpr atNode]
    simp only [bind, Except.bind, isComma, proc.node_ok_iff.mpr atSecond, isList]
    rfl

-- All of the nodes in `tree` exist, and with the nodes of an argument it has what they evaluate.
structure TreeOf (proc : Procedure) (arg : Argument) (tree : List NodeId) : Prop where
  valid : ∀ id ∈ tree, id < proc.nodes.size
  roots : ∀ id ∈ arg.early.toList ++ arg.late.toList, id ∈ tree
  closed : ∀ id ∈ tree, ∀ child ∈ proc.inputs id, child ∈ tree

-- As much of it as materializing relies on. This stays when the call changes, which the tree may hold.
structure Reached (proc : Procedure) (arg : Argument) (tree : List NodeId) : Prop where
  valid : ∀ id ∈ tree, id < proc.nodes.size
  value : ∀ id, arg.early = some id → id ∈ tree
  second : ∀ value first second, arg.early = some value → proc.kindAt value = some (.comma first second) →
    second ∈ tree

theorem TreeOf.reached (under : TreeOf proc arg tree) : Reached proc arg tree := by
  have value : ∀ id, arg.early = some id → id ∈ tree := fun id here =>
    under.roots id (by simp [here])
  refine ⟨under.valid, value, fun top first second here isComma => ?_⟩
  obtain ⟨node, atTop, kindEq⟩ := proc.kindAt_some_iff.mp isComma
  apply under.closed top (value top here)
  rw [Procedure.inputs, proc.links_of_plain _ atTop (by rw [kindEq]; rfl), kindEq]
  simp [NodeKind.children]

section Frame

variable {m m' : Procedure} {after : Argument} {list : NodeId} {hoisted : Option NodeId}
  {uses : List FieldUse} {temps : List LocalId}

theorem Reached.list_mem (reached : Reached p arg tree) (here : arg.early = some value)
    (spread : FieldsOf p value hoisted list uses) : list ∈ tree := by
  cases spread with
  | list => exact reached.value value here
  | behind first list uses top _ => exact reached.second value first list here top

theorem FieldsOf.frame (reached : Reached p arg tree) (here : arg.early = some value)
    (same : ∀ id ∈ tree, m.nodes[id]? = p.nodes[id]?) (spread : FieldsOf p value hoisted list uses) :
    FieldsOf m value hoisted list uses := by
  have kinds : ∀ id ∈ tree, m.kindAt id = p.kindAt id := fun id mem =>
    congrArg (Option.map Node.kind) (same id mem)
  have inTree := reached.list_mem here spread
  have atValue := kinds value (reached.value value here)
  cases spread with
  | list uses isList => exact .list uses (atValue.trans isList)
  | behind first list uses top isList =>
    exact .behind first list uses (atValue.trans top) ((kinds list inTree).trans isList)

theorem Reached.frame (reached : Reached p arg tree) (grown : p.nodes.size ≤ m.nodes.size)
    (same : ∀ id ∈ tree, m.nodes[id]? = p.nodes[id]?) : Reached m arg tree where
  valid := fun id mem => Nat.lt_of_lt_of_le (reached.valid id mem) grown
  value := reached.value
  second := fun value first second here top => by
    rw [Procedure.kindAt, same value (reached.value value here)] at top
    exact reached.second value first second here top

section Way

variable (way : Within p m m' q) (reached : Reached p arg tree)
  (sameBefore : ∀ id ∈ tree, m.nodes[id]? = p.nodes[id]?)
  (sameAfter : ∀ id ∈ tree, q.nodes[id]? = m'.nodes[id]?)

include way reached sameBefore sameAfter

theorem InTemps.carry (here : arg.early = some value) (done : InTemps settings m m' tree arg value after temps) :
    InTemps settings p q tree arg value after temps := by
  have inMiddle := reached.frame way.nodes sameBefore
  cases done with
  | fields hoisted list early uses fields spread stored runs reads kept =>
    have inTree := inMiddle.list_mem here spread
    refine .fields hoisted list early uses fields ?_ (stored.within way) (runs.within way) ?_ ?_
    · exact spread.frame inMiddle here fun id mem => (sameBefore id mem).symm
    · rw [sameAfter list inTree]
      exact reads
    · exact fun id mem other =>
        (sameAfter id mem).trans ((kept id mem other).trans (sameBefore id mem))
  | whole temp store read node atValue single isTemp stores reads kept =>
    refine .whole temp store read node ?_ ?_ (isTemp.within way) (stores.within way) (reads.within way) ?_
    · rw [← sameBefore value (reached.value value here)]
      exact atValue
    · exact fun hoisted list uses spread =>
        single hoisted list uses (spread.frame reached here sameBefore)
    · exact fun id mem => (sameAfter id mem).trans ((kept id mem).trans (sameBefore id mem))

theorem Outcome.carry (done : Outcome settings m m' tree arg after temps) :
    Outcome settings p q tree arg after temps := by
  have through : (∀ id ∈ tree, m'.nodes[id]? = m.nodes[id]?) → ∀ id ∈ tree, q.nodes[id]? = p.nodes[id]? :=
    fun kept id mem => (sameAfter id mem).trans ((kept id mem).trans (sameBefore id mem))
  cases done with
  | ready taken same => exact .ready taken (through same)
  | pinned taken value here after temps done =>
    exact .pinned taken value here after temps (done.carry way reached sameBefore sameAfter here)
  | deferred taken value here same => exact .deferred taken value here (through same)
  | kept taken value here same => exact .kept taken value here (through same)

end Way

theorem InTemps.fresh (done : InTemps settings p q tree arg value after temps) :
    temps.Nodup ∧ ∀ temp ∈ temps, p.locals.size ≤ temp ∧ temp < q.locals.size := by
  cases done with
  | fields hoisted list early uses fields _ stored =>
    refine ⟨stored.once, fun temp mem => ?_⟩
    obtain ⟨field, isField, rfl⟩ := mem_map.mp mem
    obtain ⟨_, _, one⟩ := forall₂_partner stored.each.flip isField
    exact ⟨one.temp.isNew, one.temp.lt⟩
  | whole temp store read node _ _ isTemp =>
    refine ⟨nodup_singleton temp, fun other mem => ?_⟩
    rw [mem_singleton.mp mem]
    exact ⟨isTemp.isNew, isTemp.lt⟩

theorem Outcome.fresh (done : Outcome settings p q tree arg after temps) :
    temps.Nodup ∧ ∀ temp ∈ temps, p.locals.size ≤ temp ∧ temp < q.locals.size := by
  cases done with
  | pinned _ _ _ _ _ done => exact done.fresh
  | _ => exact ⟨nodup_nil, by simp⟩

end Frame

theorem toTemps_inTemps (here : p.calls[id]? = some data) (atIndex : data.args.args[index]? = some arg)
    (reached : Reached p arg tree) (isEarly : arg.early = some value)
    (done : toTemps settings id index arg value p = .ok () q) :
    ∃ after temps, q.calls[id]? = some (data.withArgs (data.args.args.set index after))
      ∧ Extends (· ∈ tree) (· = id) p q ∧ InTemps settings p q tree arg value after temps := by
  cases toTemps_ok done with
  | fields fields early m found stored set =>
    have spread := fieldValue_fieldsOf found
    have inTree := reached.list_mem isEarly spread
    obtain ⟨node, atList, isList, _⟩ := fieldValue_some found
    have grown := fieldsToTemps_extends atList isList stored
    have atM : m.calls[id]? = some data := (grown.callKept id not_false).trans here
    have last := modifyArg_extends set
    have all : Extends (· = fields.list) (· = id) p q :=
      (grown.mono (fun _ mem => mem) (fun _ => False.elim)).trans last
        (fun _ mem _ => mem.elim) (fun _ mem => mem)
    obtain ⟨places, inTemps, runs, impact, reads⟩ := fieldsToTemps_inTemps atList isList stored
    have way : Within p p m q := .first last fun _ => False.elim
    refine ⟨_, _, modifyArg_slot atM atIndex set,
      all.mono (fun _ same => same ▸ inTree) (fun _ mem => mem),
      .fields fields.hoisted fields.list early fields.uses places spread (inTemps.within way) (runs.within way)
        ⟨impact, last.node reads not_false⟩ fun id mem other => ?_⟩
    exact all.nodeKept id (reached.valid id mem) other
  | whole node temp store read m m' m'' single atValue _ made stored reads set =>
    have first := addLocal_adds made
    have second := addNode_adds stored
    have third := readTemp_adds reads
    have last := modifyArg_extends set
    have grown := (first.trans second).trans third
    have behind : Reworks id m' q :=
      third.anywhere.follow last
    have all : Reworks id p q :=
      grown.anywhere.follow last
    refine ⟨_, _, modifyArg_slot (grown.calls ▸ here) atIndex set,
      all.mono (fun _ => False.elim) (fun _ mem => mem),
      .whole temp store read node atValue ?_ ?_ ?_ ?_ fun id mem => ?_⟩
    · intro hoisted list uses spread
      cases single.symm.trans (fieldsOf_fieldValue spread)
    · exact (newTemp made).within (.first (second.anywhere.follow behind) fun _ => False.elim)
    · exact (newNode stored).within (.between first behind fun _ => False.elim)
    · exact (readTemp_reads reads).within
        (.between (first.trans second) last fun _ => False.elim)
    · exact all.nodeKept id (reached.valid id mem) not_false

theorem materializeArg_outcome {isLate : Bool} (here : p.calls[id]? = some data)
    (atIndex : data.args.args[index]? = some arg) (reached : Reached p arg tree)
    (done : materializeArg settings id retbufAsLocal index p = .ok isLate q) :
    ∃ after temps, q.calls[id]? = some (data.withArgs (data.args.args.set index after))
      ∧ Extends (· ∈ tree) (· = id) p q ∧ Outcome settings p q tree arg after temps := by
  obtain ⟨same, other, atSame, atOther, settled⟩ := materializeArg_ok done
  cases here.symm.trans atSame
  cases atIndex.symm.trans atOther
  have unchanged := Call.withArgs_set atIndex
  cases settled with
  | ready late _ same =>
    subst same
    exact ⟨arg, [], by rw [unchanged, here], Extends.refl, .ready (if_pos late) fun _ _ => rfl⟩
  | pinned value early late marked _ _ stored =>
    obtain ⟨after, temps, atEnd, grown, inTemps⟩ := toTemps_inTemps here atIndex reached early stored
    have taken : course arg = .pinned := by simp [course, late, marked]
    exact ⟨after, temps, atEnd, grown, .pinned taken value early after temps inTemps⟩
  | moved value early late unmarked deferred _ set =>
    have grown := modifyArg_extends set
    have taken : course arg = .deferred := by simp [course, late, unmarked, deferred]
    exact ⟨_, [], modifyArg_slot here atIndex set, grown.mono (fun _ => False.elim) (fun _ mem => mem),
      .deferred taken value early fun id mem => grown.nodeKept id (reached.valid id mem) not_false⟩
  | kept value early late unmarked stays _ same =>
    subst same
    have taken : course arg = .kept := by simp [course, late, unmarked, stays]
    exact ⟨arg, [], by rw [unchanged, here], Extends.refl, .kept taken value early fun _ _ => rfl⟩

-- The rounds along an order, each on a tree of its own.
structure ShapedAlong (settings : Settings) (id : CallId) (order : List Nat) (before after : List Argument)
    (trees : Nat → List NodeId) (temps : Nat → List LocalId) (p q : Procedure) : Prop where
  grown : Extends (fun node => ∃ index ∈ order, node ∈ trees index) (· = id) p q
  outcome : ∀ index ∈ order, ∃ old new, before[index]? = some old ∧ after[index]? = some new
    ∧ Outcome settings p q (trees index) old new (temps index)
  once : (order.flatMap temps).Nodup
  fresh : ∀ temp ∈ order.flatMap temps, p.locals.size ≤ temp

def ReachedAlong (proc : Procedure) (args : List Argument) (order : List Nat) (trees : Nat → List NodeId) : Prop :=
  ∀ index ∈ order, ∃ arg, args[index]? = some arg ∧ Reached proc arg (trees index)

section Along

variable {rest : List Nat} {before after : List Argument} {old new : Argument} {trees : Nat → List NodeId}
  {m : Procedure} (notLater : index ∉ rest) (apart : ∀ other ∈ rest, (trees index).Disjoint (trees other))
  (theirs : ReachedAlong p before rest trees) (grown : Extends (· ∈ trees index) (· = id) p m)

include apart theirs grown

theorem others_kept {other : Nat} (mem : other ∈ rest) (node : NodeId) (inTree : node ∈ trees other) :
    m.nodes[node]? = p.nodes[node]? := by
  obtain ⟨_, _, reached⟩ := theirs other mem
  exact grown.nodeKept node (reached.valid node inTree) fun isMine => apart other mem isMine inTree

include notLater

theorem ReachedAlong.next : ReachedAlong m (before.set index new) rest trees := by
  intro other mem
  obtain ⟨arg, atOther, reached⟩ := theirs other mem
  have distinct : index ≠ other := fun same => notLater (same ▸ mem)
  exact ⟨arg, (getElem?_set_ne distinct).trans atOther,
    reached.frame grown.size_le (others_kept apart theirs grown mem)⟩

theorem ShapedAlong.cons {own : List LocalId} {temps : Nat → List LocalId} (mine : Reached p old (trees index))
    (atOld : before[index]? = some old) (atNew : after[index]? = some new)
    (outcome : Outcome settings p m (trees index) old new own)
    (run : ShapedAlong settings id rest (before.set index new) after trees temps m q) :
    ShapedAlong settings id (index :: rest) before after trees (Function.update temps index own) p q := by
  have distinct : ∀ other ∈ rest, other ≠ index := fun other mem same => notLater (same ▸ mem)
  have valid : ∀ node, (∃ other ∈ rest, node ∈ trees other) → node < p.nodes.size := by
    rintro node ⟨other, mem, inTree⟩
    obtain ⟨_, _, reached⟩ := theirs other mem
    exact reached.valid node inTree
  have taken : (index :: rest).flatMap (Function.update temps index own) = own ++ rest.flatMap temps := by
    rw [flatMap_cons, Function.update_self, flatMap_congr fun other mem =>
      Function.update_of_ne (distinct other mem) _ _]
  obtain ⟨onceOwn, ownFresh⟩ := outcome.fresh
  refine ⟨?_, forall_mem_cons.mpr ⟨⟨old, new, atOld, atNew, ?_⟩, fun other mem => ?_⟩, ?_, ?_⟩
  · refine (grown.mono (fun node inTree => ⟨index, mem_cons_self, inTree⟩) fun _ same => same).trans
      run.grown ?_ fun _ same => same
    rintro node ⟨other, mem, inTree⟩ _
    exact ⟨other, mem_cons_of_mem _ mem, inTree⟩
  · rw [Function.update_self]
    refine outcome.carry (.first run.grown valid) mine (fun _ _ => rfl) fun node inTree => ?_
    apply run.grown.nodeKept node (Nat.lt_of_lt_of_le (mine.valid node inTree) grown.size_le)
    rintro ⟨other, mem, isTheirs⟩
    exact apart other mem inTree isTheirs
  · obtain ⟨arg, atOther, reached⟩ := theirs other mem
    obtain ⟨same, result, atSame, atResult, shaped⟩ := run.outcome other mem
    rw [getElem?_set_ne (distinct other mem).symm, atOther] at atSame
    cases atSame
    refine ⟨arg, result, atOther, atResult, ?_⟩
    rw [Function.update_of_ne (distinct other mem)]
    exact shaped.carry (.last grown) reached (others_kept apart theirs grown mem) fun _ _ => rfl
  · rw [taken]
    refine nodup_append'.mpr ⟨onceOwn, run.once, fun temp isOwn isLater => ?_⟩
    exact Nat.not_lt_of_le (run.fresh temp isLater) (ownFresh temp isOwn).2
  · rw [taken]
    exact fun temp mem => (mem_append.mp mem).elim (fun isOwn => (ownFresh temp isOwn).1)
      fun isLater => Nat.le_trans grown.locals_le (run.fresh temp isLater)

end Along

theorem materializeArgs_shaped {order : List Nat} {late : List Nat} (trees : Nat → List NodeId)
    {args : List Argument} (once : order.Nodup) (here : p.calls[id]? = some data)
    (reached : ReachedAlong p data.args.args order trees)
    (apart : order.Pairwise fun index other => (trees index).Disjoint (trees other))
    (atEnd : q.calls[id]? = some (data.withArgs args))
    (done : materializeArgs settings id retbufAsLocal order p = .ok late q) :
    ∃ temps, ShapedAlong settings id order data.args.args args trees temps p q := by
  induction order generalizing p data late with
  | nil =>
    obtain ⟨rfl, rfl⟩ := pure_ok_iff.mp done
    exact ⟨fun _ => [], Extends.refl, by simp, .nil, by simp⟩
  | cons index rest ih =>
    obtain ⟨notLater, onceRest⟩ := nodup_cons.mp once
    obtain ⟨apartHere, apartRest⟩ := pairwise_cons.mp apart
    obtain ⟨⟨arg, atIndex, mine⟩, theirs⟩ := forall_mem_cons.mp reached
    simp only [materializeArgs, bind_ok_iff, pure_ok_iff] at done
    obtain ⟨isLate, m, first, later, _, others, rfl, rfl⟩ := done
    obtain ⟨after, own, atM, grown, outcome⟩ := materializeArg_outcome here atIndex mine first
    obtain ⟨temps, run⟩ := ih onceRest atM (.next notLater apartHere theirs grown) apartRest atEnd others
    have atAfter : args[index]? = some after := by
      obtain ⟨same, slots⟩ := materializeArgs_slots onceRest atM others
      have sameArgs : args = same :=
        congrArg (fun data : Call => data.args.args) (Option.some.inj (atEnd.symm.trans slots.here))
      rw [sameArgs, slots.untouched index notLater]
      exact List.getElem?_set_self (lt_length atIndex)
    exact ⟨_, run.cons notLater apartHere theirs grown mine atIndex atAfter outcome⟩

-- Every argument comes out of its course in the shape that belongs to it, and no temp is taken twice.
theorem materialize_shapes (settings : Settings) (id : CallId) (order : List Nat) (data : Call)
    (trees : Nat → List NodeId) (p q : Procedure) (here : p.calls[id]? = some data)
    (everyone : order.Perm (List.range data.args.size))
    (under : ∀ (index : Nat) (arg : Argument), data.args.args[index]? = some arg → TreeOf p arg (trees index))
    (apart : (List.range data.args.size).Pairwise fun index other => (trees index).Disjoint (trees other))
    (done : materialize settings id order p = .ok () q) :
    ∃ (args : List Argument) (temps : Nat → List LocalId),
      q.calls[id]? = some { data with args := { data.args with
        args
        lateOrder := order.filter (hasLate args)
        stage := .materialized } }
      ∧ (∀ other, other ≠ id → q.calls[other]? = p.calls[other]?)
      ∧ args.length = data.args.size
      ∧ (order.flatMap temps).Nodup
      ∧ ∀ (index : Nat) (before : Argument), data.args.args[index]? = some before →
        ∃ after, args[index]? = some after ∧ Outcome settings p q (trees index) before after (temps index) := by
  have once : order.Nodup := everyone.nodup_iff.mpr List.nodup_range
  have disjoint := (everyone.pairwise_iff fun {_ _} => List.disjoint_symm).mpr apart
  have reached : ReachedAlong p data.args.args order trees := by
    intro index inside
    have bound : index < data.args.args.length := List.mem_range.mp (everyone.mem_iff.mp inside)
    have atIndex := List.getElem?_eq_getElem bound
    exact ⟨_, atIndex, (under index _ atIndex).reached⟩
  obtain ⟨_, late, m, ran, set⟩ := materialize_steps here done
  obtain ⟨args, slots⟩ :=
    materializeArgs_slots once here ran
  obtain ⟨temps, run⟩ := materializeArgs_shaped trees once here reached disjoint slots.here ran
  -- The last step only writes the call.
  have last : Reworks id m q := setCall_extends (set args slots.here)
  have whole := run.grown.trans last (fun _ inside _ => inside.elim) (fun _ same => same)
  refine ⟨args, temps, ?_, fun other different => whole.callKept other different, slots.sameLength, run.once, ?_⟩
  · rw [set args slots.here, m.setCall_here _ slots.here, slots.listed]
  · intro index before atIndex
    have bound : index < data.args.args.length := (List.getElem?_eq_some_iff.mp atIndex).1
    obtain ⟨same, after, atSame, atAfter, outcome⟩ :=
      run.outcome index (everyone.mem_iff.mpr (List.mem_range.mpr bound))
    cases atIndex.symm.trans atSame
    have tree := (under index before atIndex).reached
    refine ⟨after, atAfter, outcome.carry (.first last fun _ => False.elim) tree (fun _ _ => rfl) ?_⟩
    exact fun node inside => last.nodeKept node
      (Nat.lt_of_lt_of_le (tree.valid node inside) run.grown.size_le) not_false

-- A field list behind an effect, a struct in two registers, a value in a register, one on the stack, and one
-- that is late already.
def inTwoRegs : Placement := { segments := [⟨.reg (.int 0), 0, 8⟩, ⟨.reg (.int 1), 8, 8⟩] }

def fiveArgs : List Argument :=
  [{ early := some 5, ty := .struct 0, placement := inTwoRegs, flags := { needsTemp := true } },
    { early := some 6, ty := .struct 0, placement := inTwoRegs, flags := { needsTemp := true } },
    { early := some 7, ty := .i64, placement := .inReg (.int 4) 8 }, .ofValue 8 .i64 .ordinary,
    { late := some 9, ty := .i64 }]

def fiveProcedure : Procedure where
  name := "five"
  nodes := #[⟨.readLocal 0, .i64, {}⟩, ⟨.storeLocal 1 0, .void, {}⟩, ⟨.intConst 5, .i64, {}⟩,
    ⟨.intConst 7, .i64, {}⟩, ⟨.fieldList [⟨2, 0, .i64⟩, ⟨3, 8, .i64⟩], .void, {}⟩, ⟨.comma 1 4, .void, {}⟩,
    ⟨.readLocal 2, .struct 0, {}⟩, ⟨.intConst 9, .i64, {}⟩, ⟨.intConst 11, .i64, {}⟩,
    ⟨.intConst 13, .i64, {}⟩]
  locals := #[{ ty := .i64, kind := .user }, { ty := .i64, kind := .user },
    { ty := .struct 0, kind := .user }]
  calls := #[{ target := .method "callee", returnType := .void, args := { args := fiveArgs, stage := .completed } }]

def fiveTrees (index : Nat) : List NodeId := [[0, 1, 2, 3, 4, 5], [6], [7], [8], [9]].getD index []

def withPair : Settings where
  target := .ofTriple ⟨.x64, .linux⟩
  types := { layouts := #[⟨"pair", 16, [⟨0, .i64⟩, ⟨8, .i64⟩]⟩] }

theorem five_courses_shaped :
    fiveArgs.map course = [.pinned, .pinned, .deferred, .kept, .ready]
      ∧ ∃ (q : Procedure) (args : List Argument) (temps : Nat → List LocalId),
        materialize withPair 0 [1, 0, 4, 3, 2] fiveProcedure = .ok () q
        ∧ q.calls[0]?.map (fun data : Call => data.args.lateOrder) = some [1, 0, 4, 2]
        ∧ ([1, 0, 4, 3, 2].flatMap temps).Nodup
        ∧ ∀ (index : Nat) (before : Argument), fiveArgs[index]? = some before → ∃ after, args[index]? = some after
          ∧ Outcome withPair fiveProcedure q (fiveTrees index) before after (temps index) := by
  have done := ok_of_answerOf (materialize withPair 0 [1, 0, 4, 3, 2] fiveProcedure) () (by decide +kernel)
  have under : ∀ (index : Nat) (arg : Argument), fiveArgs[index]? = some arg →
      TreeOf fiveProcedure arg (fiveTrees index) := by
    intro index arg atIndex
    rcases index with _ | _ | _ | _ | _ | _ <;> cases atIndex <;>
      exact ⟨by decide +kernel, by decide +kernel, by decide +kernel⟩
  have apart : (List.range 5).Pairwise fun index other => ∀ id ∈ fiveTrees index, id ∉ fiveTrees other := by
    decide +kernel
  obtain ⟨args, temps, _, _, _, once, shapes⟩ := materialize_shapes withPair 0 [1, 0, 4, 3, 2] _ fiveTrees
    fiveProcedure _ rfl (by decide) under (apart.imp fun other id => other id) done
  exact ⟨by decide, _, args, temps, done, by decide +kernel, once, shapes⟩

end Materialize

end CallLowering
