import CallLowering.Lowering.Materialize
import CallLowering.Proofs.Shaping

/-!
What materializing does to the slots of a list: each argument keeps its nodes, moves to the late list, or gets a
store in the early list and a read in the late one.
-/

namespace CallLowering

variable {p q : Procedure} {settings : Settings} {id : CallId} {data : Call} {index : Nat} {value early read : NodeId}
  {isLate retbufAsLocal : Bool} {field : FieldUse} {fields : List (NodeId × FieldUse)} {order : List Nat}
  {temp : LocalId} {ty : ValueType} {node : Node}

namespace Materialize

open Edit

theorem fieldToTemp_ok {after : FieldUse} {store : NodeId} (done : fieldToTemp field p = .ok (store, after) q) :
    ∃ temp m m' read, Edit.addLocal { ty := field.ty.actual, kind := .argTemp } p = .ok temp m
      ∧ addNode (.storeLocal temp field.node) .void m = .ok store m'
      ∧ addNode (.readLocal temp) field.ty.actual m' = .ok read q
      ∧ after = { field with node := read } := by
  simp only [fieldToTemp, bind_ok_iff, pure_ok_iff, Prod.mk.injEq] at done
  obtain ⟨temp, m, atTemp, store, m', atStore, read, _, atRead, ⟨rfl, rfl⟩, rfl⟩ := done
  exact ⟨temp, m, m', read, atTemp, atStore, atRead, rfl⟩

theorem fieldToTemp_adds {result : NodeId × FieldUse} (done : fieldToTemp field p = .ok result q) : Adds p q := by
  obtain ⟨temp, m, m', read, atTemp, atStore, atRead, _⟩ := fieldToTemp_ok done
  exact ((addLocal_adds atTemp).trans (addNode_adds atStore)).trans (addNode_adds atRead)

theorem sequence_adds {nodes : List NodeId} {result : NodeId} (done : sequence nodes p = .ok result q) :
    Adds p q := by
  induction nodes generalizing result q with
  | nil => exact addNode_adds done
  | cons first rest ih =>
    cases rest with
    | nil =>
      obtain ⟨rfl, rfl⟩ := pure_ok_iff.mp done
      exact Extends.refl
    | cons second others =>
      obtain ⟨chain, m, ran, added⟩ := bind_ok_iff.mp done
      exact (ih ran).trans (addNode_adds added)

variable {arg : Argument}

theorem readTemp_ok (done : readTemp settings arg temp ty p = .ok read q) :
    (settings.types.layoutOf arg.ty = .ok none ∨ arg.placement.isMulti = false)
        ∧ addNode (.readLocal temp) ty p = .ok read q
      ∨ ∃ layout pieces, Shape.Cut settings arg layout pieces
        ∧ Shape.localFields temp 0 pieces p = .ok read q := by
  simp only [readTemp, bind_ok_iff, ask_ok_iff] at done
  obtain ⟨layout, _, ⟨known, rfl⟩, done⟩ := done
  cases layout with
  | none => exact .inl ⟨.inl known, done⟩
  | some layout =>
    cases several : arg.placement.isMulti with
    | false =>
      simp only [several] at done
      exact .inl ⟨.inr rfl, done⟩
    | true =>
      simp only [several, bind_ok_iff, ask_ok_iff] at done
      obtain ⟨pieces, _, ⟨cut, rfl⟩, done⟩ := done
      exact .inr ⟨layout, pieces, ⟨several, known, cut⟩, done⟩

theorem readTemp_adds {data : Argument} (done : readTemp settings data temp ty p = .ok read q) : Adds p q := by
  rcases readTemp_ok done with ⟨_, added⟩ | ⟨_, _, _, done⟩
  · exact addNode_adds added
  · exact Shape.localFields_adds done

theorem fieldsToTemps_ok {value : FieldValue} (done : fieldsToTemps value p = .ok early q) :
    ∃ fields m m', value.uses.mapM fieldToTemp p = .ok fields m
      ∧ replaceNode value.list (.fieldList (fields.map Prod.snd)) .void m = .ok () m'
      ∧ sequence (value.hoisted.toList ++ fields.map Prod.fst) m' = .ok early q := by
  simp only [fieldsToTemps, bind_ok_iff] at done
  obtain ⟨fields, m, atFields, _, m', replaced, ran⟩ := done
  exact ⟨fields, m, m', atFields, replaced, ran⟩

theorem fieldValue_some {proc : Procedure} {fields : FieldValue}
    (found : fieldValue? proc value = .ok (some fields)) :
    ∃ node, proc.nodes[fields.list]? = some node ∧ node.kind = .fieldList fields.uses
      ∧ (fields.hoisted = none ∧ fields.list = value
        ∨ ∃ first top, fields.hoisted = some first ∧ proc.nodes[value]? = some top
          ∧ top.kind = .comma first fields.list) := by
  simp only [fieldValue?, except_bind_ok_iff] at found
  obtain ⟨top, atTop, found⟩ := found
  have atTop := proc.node_ok_iff.mp atTop
  cases kindEq : top.kind with
  | fieldList uses =>
    simp only [kindEq] at found
    cases found
    exact ⟨top, atTop, kindEq, .inl ⟨rfl, rfl⟩⟩
  | comma first second =>
    simp only [kindEq, except_bind_ok_iff] at found
    obtain ⟨node, atNode, found⟩ := found
    have atNode := proc.node_ok_iff.mp atNode
    cases secondKind : node.kind with
    | fieldList uses =>
      simp only [secondKind] at found
      cases found
      exact ⟨node, atNode, secondKind, .inr ⟨first, top, rfl, atTop, kindEq⟩⟩
    | _ =>
      simp only [secondKind] at found
      cases found
  | _ =>
    simp only [kindEq] at found
    cases found

theorem fieldToTemps_adds {uses : List FieldUse} (done : uses.mapM fieldToTemp p = .ok fields q) : Adds p q :=
  mapM_ok_related Adds (fun _ => Extends.refl) (fun _ _ _ => Adds.trans)
    (fun _ _ _ _ _ round => fieldToTemp_adds round) p fields done

theorem relist_extends {value : FieldValue} {m m' : Procedure} (here : p.nodes[value.list]? = some node)
    (isList : node.kind = .fieldList value.uses) (stored : value.uses.mapM fieldToTemp p = .ok fields m)
    (replaced : replaceNode value.list (.fieldList (fields.map Prod.snd)) .void m = .ok () m') :
    Extends (· = value.list) (fun _ => False) m m' := by
  have first := fieldToTemps_adds stored
  apply replaceNode_extends (first.node here) ?_ replaced
  refine .inr ⟨_, _, isList, rfl, ?_⟩
  rw [List.length_map, ← mapM_ok_length stored]

theorem fieldsToTemps_extends {value : FieldValue}
    (here : p.nodes[value.list]? = some node) (isList : node.kind = .fieldList value.uses)
    (done : fieldsToTemps value p = .ok early q) : Extends (· = value.list) (fun _ => False) p q := by
  obtain ⟨fields, m, m', atFields, replaced, ran⟩ := fieldsToTemps_ok done
  have first := fieldToTemps_adds atFields
  have second := relist_extends here isList atFields replaced
  have third := sequence_adds ran
  exact ((first.mono (fun _ => False.elim) (fun _ => False.elim)).follow second).trans third
    (fun _ mem _ => mem.elim) (fun _ mem => mem)

inductive TempsOf (settings : Settings) (id : CallId) (index : Nat) (data : Argument)
    (value : NodeId) (p q : Procedure) : Prop where
  | fields (fields : FieldValue) (early : NodeId) (m : Procedure)
      (spread : fieldValue? p value = .ok (some fields))
      (stored : fieldsToTemps fields p = .ok early m)
      (set : modifyArg id index (fun arg =>
        { arg with early := some early, late := some fields.list }) m = .ok () q)
  | whole (node : Node) (temp : LocalId) (store read : NodeId) (m m' m'' : Procedure)
      (single : fieldValue? p value = .ok none) (here : p.nodes[value]? = some node)
      (hasValue : tempType data.ty node.ty ≠ .void)
      (made : Edit.addLocal { ty := tempType data.ty node.ty, kind := .argTemp } p = .ok temp m)
      (stored : addNode (.storeLocal temp value) .void m = .ok store m')
      (reads : readTemp settings data temp (tempType data.ty node.ty) m' = .ok read m'')
      (set : Shape.setCopy id index temp store read m'' = .ok () q)

theorem toTemps_ok {data : Argument} (done : toTemps settings id index data value p = .ok () q) :
    TempsOf settings id index data value p q := by
  simp only [toTemps, bind_ok_iff, lift_edit_ok_iff, ask_ok_iff] at done
  obtain ⟨spread, _, ⟨atSpread, rfl⟩, done⟩ := done
  cases spread with
  | some fields =>
    simp only [bind_ok_iff, lift_edit_ok_iff] at done
    obtain ⟨early, m, stored, set⟩ := done
    exact .fields fields early m atSpread stored set
  | none =>
    simp only [bind_ok_iff, lift_edit_ok_iff] at done
    obtain ⟨node, _, found, done⟩ := done
    obtain ⟨here, rfl⟩ := node_ok found
    split at done
    · simp only [bind_ok_iff, refuse_ok_iff, false_and, exists_false] at done
    · rename_i hasValue
      simp only [bind_ok_iff, lift_edit_ok_iff] at done
      obtain ⟨temp, m, made, store, m', stored, read, m'', reads, set⟩ := done
      exact .whole node temp store read m m' m'' atSpread here hasValue made stored reads set

-- The ways to settle an argument; `isLate` tells whether it takes part in the late order.
inductive SettledAs (settings : Settings) (id : CallId) (retbufAsLocal : Bool) (index : Nat)
    (arg : Argument) (isLate : Bool) (p q : Procedure) : Prop where
  | ready (late : arg.late.isSome = true) (listed : isLate = true) (same : q = p)
  | pinned (value : NodeId) (early : arg.early = some value) (late : arg.late = none)
      (marked : arg.flags.needsTemp = true)
      (allowed : (arg.role = .returnBuffer && retbufAsLocal) = false) (listed : isLate = true)
      (done : toTemps settings id index arg value p = .ok () q)
  | moved (value : NodeId) (early : arg.early = some value) (late : arg.late = none)
      (unmarked : arg.flags.needsTemp = false)
      (deferred : (arg.placement.hasReg || arg.flags.needsPlace) = true) (listed : isLate = true)
      (done : modifyArg id index (fun arg => { arg with early := none, late := some value }) p
        = .ok () q)
  | kept (value : NodeId) (early : arg.early = some value) (late : arg.late = none)
      (unmarked : arg.flags.needsTemp = false)
      (stays : (arg.placement.hasReg || arg.flags.needsPlace) = false) (listed : isLate = false)
      (same : q = p)

theorem materializeArg_ok (done : materializeArg settings id retbufAsLocal index p = .ok isLate q) :
    ∃ data arg, p.calls[id]? = some data ∧ data.args.args[index]? = some arg
      ∧ SettledAs settings id retbufAsLocal index arg isLate p q := by
  simp only [materializeArg, bind_ok_iff, lift_edit_ok_iff] at done
  obtain ⟨arg, _, found, done⟩ := done
  obtain ⟨data, here, atIndex, rfl⟩ := arg_ok found
  refine ⟨data, arg, here, atIndex, ?_⟩
  split at done
  · rename_i late
    obtain ⟨listed, same⟩ := pure_ok_iff.mp done
    exact .ready late listed.symm same.symm
  · rename_i loose
    have loose : arg.late = none := by simpa using loose
    cases early : arg.early with
    | none =>
      simp only [early, refuse_ok_iff] at done
    | some value =>
      simp only [early] at done
      split at done
      · rename_i marked
        split at done
        · simp only [bind_ok_iff, refuse_ok_iff, false_and, exists_false] at done
        · rename_i allowed
          simp only [bind_ok_iff, pure_ok_iff] at done
          obtain ⟨_, _, stored, listed, rfl⟩ := done
          exact .pinned value early loose marked (by simpa using allowed) listed.symm stored
      · rename_i unmarked
        split at done
        · rename_i deferred
          simp only [bind_ok_iff, pure_ok_iff, lift_edit_ok_iff] at done
          obtain ⟨_, _, set, listed, rfl⟩ := done
          exact .moved value early loose (by simpa using unmarked) deferred listed.symm set
        · rename_i stays
          obtain ⟨listed, same⟩ := pure_ok_iff.mp done
          exact .kept value early loose (by simpa using unmarked) (by simpa using stays) listed.symm
            same.symm

inductive Settled (arg : Argument) : Argument → Prop where
  | ready (late : arg.late.isSome = true) : Settled arg arg
  | pinned (value early late : NodeId) (temp : Option LocalId) (flags : ArgFlags)
      (has : arg.early = some value) (loose : arg.late = none)
      (marked : arg.flags.needsTemp = true) :
      Settled arg { arg with early := some early, late := some late, temp, flags }
  | moved (value : NodeId) (has : arg.early = some value) (loose : arg.late = none)
      (unmarked : arg.flags.needsTemp = false)
      (deferred : (arg.placement.hasReg || arg.flags.needsPlace) = true) :
      Settled arg { arg with early := none, late := some value }
  | kept (value : NodeId) (has : arg.early = some value) (loose : arg.late = none)
      (unmarked : arg.flags.needsTemp = false)
      (stays : (arg.placement.hasReg || arg.flags.needsPlace) = false) : Settled arg arg

theorem toTemps_slot (here : p.calls[id]? = some data)
    (atIndex : data.args.args[index]? = some arg) (done : toTemps settings id index arg value p = .ok () q) :
    ∃ early late temp flags, q.calls[id]? = some (data.withArgs (data.args.args.set index
        { arg with early := some early, late := some late, temp, flags }))
      ∧ Extends (fun _ => True) (· = id) p q := by
  cases toTemps_ok done with
  | fields fields early m spread stored set =>
    obtain ⟨node, atList, isList, _⟩ := fieldValue_some spread
    have grown := fieldsToTemps_extends atList isList stored
    have atM : m.calls[id]? = some data := (grown.callKept id not_false).trans here
    refine ⟨early, fields.list, arg.temp, arg.flags,
      modifyArg_slot atM atIndex set, ?_⟩
    exact (grown.mono (fun _ _ => trivial) (fun _ => False.elim)).trans
      (modifyArg_extends set) (fun _ _ _ => trivial) (fun _ mem => mem)
  | whole node temp store read m m' m'' _ _ _ made stored reads set =>
    have grown : Adds p m'' := ((addLocal_adds made).trans
      (addNode_adds stored)).trans (readTemp_adds reads)
    refine ⟨store, read, some temp, { arg.flags with isTemp := true },
      modifyArg_slot (grown.calls ▸ here) atIndex set, ?_⟩
    exact (grown.mono (fun _ _ => trivial) (fun _ => False.elim)).trans
      (modifyArg_extends set) (fun _ _ _ => trivial) (fun _ mem => mem)

theorem materializeArg_slot (here : p.calls[id]? = some data) (atIndex : data.args.args[index]? = some arg)
    (done : materializeArg settings id retbufAsLocal index p = .ok isLate q) :
    ∃ after, q.calls[id]? = some (data.withArgs (data.args.args.set index after))
      ∧ Settled arg after ∧ isLate = after.late.isSome ∧ Extends (fun _ => True) (· = id) p q := by
  obtain ⟨same, other, atSame, atOther, settled⟩ := materializeArg_ok done
  cases here.symm.trans atSame
  cases atIndex.symm.trans atOther
  have unchanged := Call.withArgs_set atIndex
  cases settled with
  | ready late listed same =>
    subst same
    exact ⟨arg, by rw [unchanged, here], .ready late, listed.trans late.symm, Extends.refl⟩
  | pinned value early loose marked _ listed stored =>
    obtain ⟨store, read, temp, flags, atEnd, grown⟩ := toTemps_slot here atIndex stored
    exact ⟨_, atEnd, .pinned value store read temp flags early loose marked, listed, grown⟩
  | moved value early loose unmarked deferred listed set =>
    exact ⟨_, modifyArg_slot here atIndex set,
      .moved value early loose unmarked deferred, listed,
      (modifyArg_extends set).mono (fun _ => False.elim) (fun _ mem => mem)⟩
  | kept value early loose unmarked stays listed same =>
    subst same
    exact ⟨arg, by rw [unchanged, here], .kept value early loose unmarked stays,
      by rw [listed, loose, Option.isSome_none], Extends.refl⟩

def hasLate (args : List Argument) (index : Nat) : Bool :=
  args[index]?.any fun arg => arg.late.isSome

-- Every slot named by the order is settled, each once; the others stay as they are.
structure ListSettled (id : CallId) (order late : List Nat) (data : Call) (args : List Argument)
    (p q : Procedure) : Prop where
  grown : Extends (fun _ => True) (· = id) p q
  here : q.calls[id]? = some (data.withArgs args)
  sameLength : args.length = data.args.args.length
  untouched : ∀ index : Nat, index ∉ order → args[index]? = data.args.args[index]?
  settled : ∀ (index : Nat) (arg : Argument), index ∈ order → data.args.args[index]? = some arg →
    ∃ after, args[index]? = some after ∧ Settled arg after
  listed : late = order.filter (hasLate args)

theorem materializeArgs_slots {late : List Nat} (once : order.Nodup)
    (here : p.calls[id]? = some data) (done : materializeArgs settings id retbufAsLocal order p = .ok late q) :
    ∃ args, ListSettled id order late data args p q := by
  induction order generalizing p data late with
  | nil =>
    obtain ⟨rfl, rfl⟩ := pure_ok_iff.mp done
    exact ⟨data.args.args, Extends.refl, here, rfl, fun _ _ => rfl, by simp, rfl⟩
  | cons index rest ih =>
    obtain ⟨notLater, once⟩ := List.nodup_cons.mp once
    simp only [materializeArgs, bind_ok_iff, pure_ok_iff] at done
    obtain ⟨isLate, m, first, later, _, others, rfl, rfl⟩ := done
    obtain ⟨same, arg, atSame, atIndex, _⟩ := materializeArg_ok first
    cases here.symm.trans atSame
    obtain ⟨after, atM, settled, isLateEq, grown⟩ := materializeArg_slot here atIndex first
    obtain ⟨args, run⟩ := ih once atM others
    have bound : index < data.args.args.length := lt_length atIndex
    have atAfter : args[index]? = some after := by
      rw [run.untouched index notLater]
      exact List.getElem?_set_self bound
    refine ⟨args, {
      grown := grown.trans run.grown (fun _ _ _ => trivial) (fun _ mem => mem)
      here := run.here
      sameLength := run.sameLength.trans List.length_set
      untouched := fun other outside => ?_
      settled := fun other arg' mem atOther => ?_
      listed := ?_ }⟩
    · rw [run.untouched other fun mem => outside (List.mem_cons_of_mem _ mem)]
      exact List.getElem?_set_ne fun same => outside (by simp [same])
    · by_cases same : index = other
      · subst same
        cases atIndex.symm.trans atOther
        exact ⟨after, atAfter, settled⟩
      · have inRest : other ∈ rest := by simpa [Ne.symm same] using mem
        exact run.settled other arg' inRest ((List.getElem?_set_ne same).trans atOther)
    · have head : hasLate args index = isLate := by simp [hasLate, atAfter, isLateEq]
      rw [run.listed, List.filter_cons, head]

theorem materialize_steps (here : p.calls[id]? = some data) (done : materialize settings id order p = .ok () q) :
    data.args.stage = .completed ∧ ∃ late m,
      materializeArgs settings id data.flags.retbufAsLocal order p = .ok late m
      ∧ ∀ args, m.calls[id]? = some (data.withArgs args) → q = m.setCall id { data with args :=
        { data.args with args, lateOrder := late, stage := .materialized } } := by
  rw [materialize, call_first here] at done
  split at done
  · simp only [bind_ok_iff, refuse_ok_iff, false_and, exists_false] at done
  · rename_i completed
    have completed : data.args.stage = .completed := by simpa using completed
    simp only [bind_ok_iff, lift_edit_ok_iff] at done
    obtain ⟨late, m, ran, marked⟩ := done
    refine ⟨completed, late, m, ran, fun args atEnd => ?_⟩
    obtain ⟨now, list, atNow, stepped, set⟩ := modifyArgs_ok marked
    cases atEnd.symm.trans atNow
    simp only [ArgList.markMaterialized, Call.withArgs, completed, if_true] at stepped
    cases stepped
    exact set

theorem materialize_ok (once : order.Nodup) (here : p.calls[id]? = some data)
    (done : materialize settings id order p = .ok () q) :
    ∃ late args m, data.args.stage = .completed ∧ ListSettled id order late data args p m
      ∧ q = m.setCall id { data with args :=
        { data.args with args, lateOrder := late, stage := .materialized } } := by
  obtain ⟨completed, late, m, ran, set⟩ := materialize_steps here done
  obtain ⟨args, run⟩ :=
    materializeArgs_slots once here ran
  exact ⟨late, args, m, completed, run, set args run.here⟩

end Materialize

end CallLowering
