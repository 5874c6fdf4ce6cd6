import CallLowering.Proofs.Materializing
import CallLowering.Proofs.ShapedTrees

/-! Materializing rewrites the tree of one argument at a time. -/

namespace CallLowering

open List

variable {p q m m' : Procedure} {tree base late early front tail : List NodeId} {id : CallId} {settings : Settings}
  {value read : NodeId} {data : Argument} {fields : Materialize.FieldValue} {temp : LocalId} {index : Nat}
  {ty : ValueType}
  {arg : Argument} {isLate : Bool}

namespace Materialize

open Edit

theorem sequence_grafts {nodes : List NodeId} {result : NodeId} (forest : Forest p (front ++ nodes) base)
    (done : sequence nodes p = .ok result q) :
    ∃ made, Grafts p q base (front ++ [result]) made (fun _ => False) := by
  induction nodes generalizing front result q with
  | nil =>
    have start : Grafts p p base (front ++ NodeKind.nop.children) [] (fun _ => False) := .start forest
    exact ⟨_, start.nodeAfter done rfl (by simp [NodeKind.mentionsLocal?])⟩
  | cons first rest ih =>
    cases rest with
    | nil =>
      obtain ⟨rfl, rfl⟩ := pure_ok_iff.mp done
      exact ⟨[], .start forest⟩
    | cons second others =>
      obtain ⟨chain, m, ran, added⟩ := bind_ok_iff.mp done
      have further : Forest p (front ++ [first] ++ second :: others) base := by rwa [append_assoc]
      obtain ⟨made, grafts⟩ := ih further ran
      rw [append_assoc] at grafts
      have topped : Grafts p m base (front ++ (NodeKind.comma first chain).children) made (fun _ => False) := grafts
      exact ⟨_, topped.nodeAfter added rfl (by simp [NodeKind.mentionsLocal?])⟩

theorem readTemp_grafts (done : readTemp settings data temp ty p = .ok read q) :
    ∃ made, Grafts p q [] [read] made (· = temp) := by
  rcases readTemp_ok done with ⟨_, added⟩ | ⟨_, _, _, done⟩
  · exact ⟨_, Grafts.leaf added rfl rfl fun _ mentioned => (Option.some.inj mentioned).symm⟩
  · exact Shape.localFields_grafts done

structure FieldsStored (p q : Procedure) (base : List NodeId) (fields : List (NodeId × FieldUse))
    (early late : List NodeId) : Prop where
  grown : Adds p q
  atStores : Forest q (fields.map Prod.fst) early
  atReads : Forest q (fields.map fun field => field.2.node) late
  quiet : q.Quiet late
  once : (early ++ late).Nodup
  carries : Carries p q base (early ++ late) []
  done : Done p base → Done q (early ++ late)

theorem FieldsStored.inFront {fields : List (NodeId × FieldUse)} (run : FieldsStored p q base fields early late)
    (var : LocalId) (held : var ∈ q.storedIn base) : var ∈ q.storedIn early := by
  have both := run.carries.stored var held
  rw [q.storedIn_append, q.quiet_storedIn run.quiet, append_nil] at both
  exact both

theorem fieldToTemp_stored {field : FieldUse} {result : NodeId × FieldUse}
    (atTree : Forest p [field.node] tree) (done : fieldToTemp field p = .ok result q) :
    FieldsStored p q tree [result] (tree ++ [result.1]) [result.2.node] := by
  obtain ⟨temp, m, m', read, made, stored, reads, after⟩ := fieldToTemp_ok done
  have sameRead : result.2.node = read := by rw [after]
  have grafts : Grafts m' q [] [read] [read] (· = temp) :=
    Grafts.leaf reads rfl rfl fun _ mentioned => (Option.some.inj mentioned).symm
  obtain ⟨grown, _, atStore, once, carries, finished⟩ := spilled_carries atTree made stored grafts
  rw [sameRead]
  refine ⟨grown, atStore, ?_, grafts.quiet, once, carries, finished⟩
  rw [map_singleton, sameRead]
  exact grafts.forest

theorem FieldsStored.cons {roots early' late' : List NodeId} {head : NodeId × FieldUse}
    {fields : List (NodeId × FieldUse)} {root : NodeId} (forest : Forest p ([root] ++ roots) (tree ++ base))
    (atTree : Forest p [root] tree) (first : FieldsStored p m tree [head] early late)
    (rest : FieldsStored m q base fields early' late') :
    FieldsStored p q (tree ++ base) (head :: fields) (early ++ early') (late ++ late') := by
  obtain ⟨tree', base', parts, atTree', atBase, apart, callsApart⟩ := forest.split [root] roots
  cases Spans.unique atTree'.spans atTree.spans
  cases append_cancel_left parts
  have validFirst : ∀ id ∈ early ++ late, id < m.nodes.size := fun id met =>
    (mem_append.mp met).elim (first.atStores.valid id) (first.atReads.valid id)
  have firstApart : (early ++ late).Disjoint base := first.carries.disjoint apart atBase.valid
  have restApart : (early' ++ late').Disjoint (early ++ late) :=
    rest.carries.disjoint (fun id inBase inFirst => firstApart inFirst inBase) validFirst
  have callsFirst : ∀ call, call ∈ q.callsIn (early ++ late) → call ∈ p.callsIn tree := by
    intro call named
    rw [rest.grown.callsIn validFirst] at named
    exact (first.carries.mem_callsIn first.grown atTree.valid call).mp named
  have callsRest : ∀ call, call ∈ q.callsIn (early' ++ late') → call ∈ p.callsIn base := by
    intro call named
    have before := (rest.carries.mem_callsIn rest.grown
      (fun id met => Nat.lt_of_lt_of_le (atBase.valid id met) first.grown.size_le) call).mp named
    rwa [first.grown.callsIn atBase.valid] at before
  refine {
    grown := first.grown.trans rest.grown
    atStores := (first.atStores.added rest.grown).append rest.atStores ?_ ?_
    atReads := (first.atReads.added rest.grown).append rest.atReads ?_ ?_
    quiet := ?_
    once := ?_
    carries := ?_
    done := ?_ }
  · exact fun id here there => restApart (mem_append_left _ there) (mem_append_left _ here)
  · intro call here there
    refine callsApart (callsFirst call ?_) (callsRest call ?_)
    · exact q.callsIn_append early late ▸ mem_append_left _ here
    · exact q.callsIn_append early' late' ▸ mem_append_left _ there
  · exact fun id here there => restApart (mem_append_right _ there) (mem_append_right _ here)
  · rw [q.quiet_callsIn rest.quiet]
    exact fun _ _ mem => nomatch mem
  · exact fun id met => (mem_append.mp met).elim
      (first.quiet.kept rest.grown first.atReads.valid id) (rest.quiet id)
  · refine nodup_iff_count_le_one.mpr fun id => ?_
    have onceFirst := nodup_iff_count_le_one.mp first.once id
    have onceRest := nodup_iff_count_le_one.mp rest.once id
    by_cases inFirst : id ∈ early ++ late
    · have outside : id ∉ early' ++ late' := fun inRest => restApart inRest inFirst
      have none := count_eq_zero.mpr outside
      simp only [count_append] at onceFirst none ⊢
      omega
    · have none := count_eq_zero.mpr inFirst
      simp only [count_append] at onceRest none ⊢
      omega
  · have one := first.carries.spread [] base [] (.inr first.inFront)
    have two := rest.carries.spread early late [] (.inr rest.inFront)
    simp only [nil_append, append_nil, append_assoc] at one two ⊢
    refine one.trans two first.grown rest.grown forest.valid fun id met => ?_
    simp only [mem_append] at met
    rcases met with mem | mem | mem
    · exact first.atStores.valid id mem
    · exact Nat.lt_of_lt_of_le (atBase.valid id mem) first.grown.size_le
    · exact first.atReads.valid id mem
  · intro before
    have doneFirst := first.done (before.subset fun id met => mem_append_left _ met)
    have doneBase := (before.subset fun id met => mem_append_right _ met).added atBase first.grown
    have stores := (doneFirst.subset fun id met => mem_append_left _ met).added first.atStores
      rest.grown
    have reads := (doneFirst.subset fun id met => mem_append_right _ met).added first.atReads
      rest.grown
    refine (stores.append (reads.append (rest.done doneBase))).subset fun id met => ?_
    simp only [mem_append] at met ⊢
    grind

variable {retbufAsLocal : Bool} {uses : List FieldUse}

theorem fieldToTemps_stored {fields : List (NodeId × FieldUse)} (forest : Forest p (uses.map FieldUse.node) base)
    (done : uses.mapM fieldToTemp p = .ok fields q) : ∃ early late, FieldsStored p q base fields early late := by
  induction uses generalizing p base fields with
  | nil =>
    obtain ⟨rfl, rfl⟩ := pure_ok_iff.mp done
    cases forest.spans
    exact ⟨[], [], Extends.refl, Forest.nil p, Forest.nil p, (fun _ met => nomatch met), .nil,
      Carries.refl p [], fun done => done⟩
  | cons use rest ih =>
    simp only [mapM_cons, bind_ok_iff, pure_ok_iff] at done
    obtain ⟨head, m, atHead, others, _, atRest, rfl, rfl⟩ := done
    obtain ⟨tree, behind, rfl, atTree, atBehind, _⟩ := forest.split [use.node] _
    have first := fieldToTemp_stored atTree atHead
    obtain ⟨early, late, further⟩ := ih (atBehind.added first.grown) atRest
    exact ⟨_, _, first.cons forest atTree further⟩

-- The tree of a value that yields a field list: what runs first, the fields, the list, and the comma
-- that may join the two.
structure FieldTree (p : Procedure) (fields : FieldValue) (tree front base tail : List NodeId) :
    Prop where
  parts : tree = front ++ base ++ [fields.list] ++ tail
  atFront : Forest p fields.hoisted.toList front
  atBase : Forest p (fields.uses.map FieldUse.node) base
  quiet : p.Quiet tail

theorem fieldValue_tree (atTree : Forest p [value] tree) (found : fieldValue? p value = .ok (some fields)) :
    ∃ front base tail, FieldTree p fields tree front base tail := by
  obtain ⟨node, atList, isList, shape⟩ := fieldValue_some found
  have listKind := p.kindAt_of atList isList
  rcases shape with ⟨noneFirst, same⟩ | ⟨first, top, someFirst, atTop, isComma⟩
  · rw [← same] at atTree
    obtain ⟨base, rfl, atBase, _⟩ := atTree.plain listKind rfl
    refine ⟨[], base, [], by simp, ?_, atBase, fun _ met => nomatch met⟩
    rw [noneFirst]
    exact Forest.nil p
  · have topKind := p.kindAt_of atTop isComma
    obtain ⟨below, rfl, under, _⟩ := atTree.plain topKind rfl
    obtain ⟨front, behind, rfl, atFront, atBehind, _⟩ := under.split [first] [fields.list]
    obtain ⟨base, rfl, atBase, _⟩ := atBehind.plain listKind rfl
    refine ⟨front, base, [value], by simp, ?_, atBase, ?_⟩
    · rw [someFirst]
      exact atFront
    · intro id met
      rw [mem_singleton.mp met]
      exact p.actsAt_eq topKind

structure Relisted (p q : Procedure) (list : NodeId) (late : List NodeId) : Prop where
  grown : Extends (· = list) (fun _ => False) p q
  sameLocals : q.locals = p.locals
  forest : Forest q [list] (late ++ [list])
  quiet : q.Quiet (late ++ [list])
  done : Done p late → Done q (late ++ [list])

theorem replaceNode_relisted {list : NodeId} {fields : List FieldUse} {node : Node}
    (here : p.nodes[list]? = some node) (isList : node.kind = .fieldList uses)
    (sameLength : uses.length = fields.length) (atFields : Forest p (fields.map FieldUse.node) late)
    (quiet : p.Quiet late) (outside : list ∉ late) (done : replaceNode list (.fieldList fields) .void p = .ok () q) :
    Relisted p q list late := by
  have grown := replaceNode_extends here (.inr ⟨_, _, isList, rfl, sameLength⟩) done
  obtain ⟨impact, _, computed, _, rfl⟩ := replaceNode_ok done
  generalize result : (p.setNode list { kind := .fieldList fields, ty := .void, impact }).noteKind
    (.fieldList fields) = q at grown
  have bound : list < p.nodes.size := lt_size here
  have atList : q.nodes[list]? = some { kind := .fieldList fields, ty := .void, impact } := by
    rw [← result]
    exact Array.getElem?_setIfInBounds_self_of_lt bound
  have kindNow : q.kindAt list = some (.fieldList fields) := q.kindAt_of atList rfl
  have noCalls : ∀ call ∈ p.callsIn late, ¬ False := fun _ _ => not_false
  have apart : ∀ id ∈ late, ¬ id = list := fun id met same => outside (same ▸ met)
  have under : Forest q (NodeKind.fieldList fields).children late := atFields.frame grown apart noCalls
  refine ⟨grown, by rw [← result]; rfl, Forest.withTop kindNow rfl under outside, ?_, ?_⟩
  · intro id met
    rcases mem_append.mp met with mem | last
    · exact quiet.kept grown atFields.valid id mem
    · rw [mem_singleton.mp last]
      exact q.actsAt_eq kindNow
  · intro before
    refine (before.frame atFields grown apart noCalls).append ⟨?_, ?_⟩
    · intro id met
      rw [mem_singleton.mp met]
      refine ⟨_, atList, Procedure.impactOf_frame grown computed (fun _ _ => not_false) ?_⟩
      intro refs found child referred same
      cases found
      exact outside (Spans.root_mem atFields.spans (same ▸ referred))
    · rw [q.callsIn_single kindNow]
      exact fun _ mem => nomatch mem

structure StoredTree (p q : Procedure) (tree : List NodeId) (early late : NodeId)
    (earlyTree lateTree : List NodeId) : Prop where
  grown : Extends (· ∈ tree) (fun _ => False) p q
  atEarly : Forest q [early] earlyTree
  atLate : Forest q [late] lateTree
  once : (earlyTree ++ lateTree).Nodup
  carries : Carries p q tree (earlyTree ++ lateTree) []
  done : Done p tree → Done q (earlyTree ++ lateTree)
  quiet : q.Quiet lateTree

theorem FieldTree.dropped (shape : FieldTree p fields tree front base tail) :
    Carries p p tree (front ++ base ++ [fields.list]) [] where
  new := fun id met => .inl (by rw [shape.parts]; exact mem_append_left _ met)
  acts := by
    have quiet : tail.filter p.actsAt = [] :=
      filter_eq_nil_iff.mpr fun id met => by simp [shape.quiet id met]
    refine ⟨[], ?_, by simp, by simp [p.tempsFrom_self]⟩
    rw [shape.parts, filter_append _ tail, quiet, append_nil, append_nil]
  reads := fun known reads => by
    rw [shape.parts] at reads
    exact ((p.reads_append known _ tail).mp reads).1

theorem FieldTree.stored {early : NodeId} {stores reads row : List NodeId} {made : List (NodeId × FieldUse)}
    (shape : FieldTree p fields tree front base tail) (validTree : ∀ id ∈ tree, id < p.nodes.size)
    (run : FieldsStored p m base made stores reads) (relisted : Relisted m m' fields.list reads)
    (grafts : Grafts m' q (front ++ stores) [early] row (fun _ => False))
    (frontApart : (stores ++ reads).Disjoint front) (outside : fields.list ∉ front ++ stores ++ reads) :
    StoredTree p q tree early fields.list (front ++ stores ++ row) (reads ++ [fields.list]) where
  grown := by
    have inTree : fields.list ∈ tree := by
      rw [shape.parts]
      simp
    have first : Extends (· ∈ tree) (fun _ => False) p m := run.grown.anywhere
    have second := relisted.grown.mono (fun _ same => same ▸ inTree) (fun _ mem => mem)
    have third : Extends (· ∈ tree) (fun _ => False) m' q := grafts.grown.anywhere
    exact (first.follow second).follow third
  atEarly := grafts.forest
  atLate := relisted.forest.added grafts.grown
  once := by
    refine nodup_append'.mpr ⟨grafts.forest.once, relisted.forest.once, ?_⟩
    intro id inEarly inLate
    rcases mem_append.mp inEarly with mem | inRow
    · rcases mem_append.mp inLate with inReads | last
      · rcases mem_append.mp mem with inFront | inStores
        · exact frontApart (mem_append_right _ inReads) inFront
        · exact (nodup_append'.mp run.once).2.2 inStores inReads
      · rw [mem_singleton.mp last] at mem
        exact outside (mem_append_left _ mem)
    · exact Nat.lt_irrefl _ (Nat.lt_of_lt_of_le (relisted.forest.valid id inLate) (grafts.new id inRow))
  carries := by
    have validParts : ∀ id ∈ front ++ base ++ [fields.list], id < p.nodes.size := fun id met =>
      validTree id (by rw [shape.parts]; exact mem_append_left _ met)
    have validRun : ∀ id ∈ front ++ (stores ++ reads) ++ [fields.list], id < m.nodes.size := by
      intro id met
      have old : id ∈ front ++ base ++ [fields.list] → id < m.nodes.size := fun mem =>
        Nat.lt_of_lt_of_le (validParts id mem) run.grown.size_le
      simp only [mem_append] at met old
      rcases met with (mem | mem | mem) | mem
      · exact old (.inl (.inl mem))
      · exact run.atStores.valid id mem
      · exact run.atReads.valid id mem
      · exact old (.inr mem)
    have first := shape.dropped.trans (run.carries.within front [fields.list])
      (Extends.refl : Adds p p) run.grown validTree validParts
    have second := first.trans (Carries.still relisted.sameLocals _) run.grown relisted.grown validTree
      validRun
    have inRow : Carries m' q (front ++ stores) (front ++ stores ++ row) [] := by
      have carries := grafts.carries [] (fun _ met => nomatch met) (fun _ _ _ => False.elim)
      rwa [append_nil] at carries
    have third := inRow.within [] (reads ++ [fields.list])
    simp only [nil_append, append_assoc] at second third ⊢
    refine second.trans third
      (run.grown.anywhere.trans relisted.grown (fun _ same _ => same) (fun _ mem => mem))
      grafts.grown validTree fun id met => ?_
    refine Nat.lt_of_lt_of_le (validRun id ?_) relisted.grown.size_le
    simpa only [append_assoc] using met
  done := fun before => by
    have inTree : ∀ id, id ∈ front ∨ id ∈ base → id ∈ tree := fun id either => by
      rw [shape.parts]
      simp only [mem_append]
      exact .inl (.inl either)
    have doneRun := run.done (before.subset fun id met => inTree id (.inr met))
    have doneFront := ((before.subset fun id met => inTree id (.inl met)).added shape.atFront
      run.grown).frame (shape.atFront.added run.grown) relisted.grown
      (fun id met same => outside (by simp [← same, met])) (fun _ _ => not_false)
    have doneStores := (doneRun.subset fun id met => mem_append_left _ met).frame run.atStores
      relisted.grown (fun id met same => outside (by simp [← same, met])) (fun _ _ => not_false)
    have doneReads := relisted.done (doneRun.subset fun id met => mem_append_right _ met)
    exact (grafts.done (doneFront.append doneStores)).append
      (doneReads.added relisted.forest grafts.grown)
  quiet := relisted.quiet.kept grafts.grown relisted.forest.valid

theorem fieldsToTemps_stored {early : NodeId} (atTree : Forest p [value] tree)
    (found : fieldValue? p value = .ok (some fields)) (done : fieldsToTemps fields p = .ok early q) :
    ∃ earlyTree lateTree, StoredTree p q tree early fields.list earlyTree lateTree := by
  obtain ⟨front, base, tail, shape⟩ := fieldValue_tree atTree found
  obtain ⟨node, atList, isList, _⟩ := fieldValue_some found
  obtain ⟨stores, m, m', atStores, replaced, ran⟩ := fieldsToTemps_ok done
  obtain ⟨early₁, late₁, run⟩ := fieldToTemps_stored shape.atBase atStores
  have once := atTree.once
  rw [shape.parts] at once
  obtain ⟨once, _, _⟩ := nodup_append'.mp once
  obtain ⟨once, _, listApart⟩ := nodup_append'.mp once
  obtain ⟨_, _, frontApart⟩ := nodup_append'.mp once
  have validList : ∀ id ∈ [fields.list], id < p.nodes.size := fun id met => by
    rw [mem_singleton.mp met]
    exact lt_size atList
  -- Neither the list nor what runs before it is among the stores and reads.
  have outside : fields.list ∉ early₁ ++ late₁ := fun mem =>
    run.carries.disjoint (fun _ inBase => listApart (mem_append_right _ inBase)) validList mem
      (mem_singleton_self _)
  have apart : (early₁ ++ late₁).Disjoint front :=
    run.carries.disjoint (fun _ inBase inFront => frontApart inFront inBase) shape.atFront.valid
  have lengths : fields.uses.length = (stores.map Prod.snd).length := by
    rw [length_map, ← mapM_ok_length atStores]
  have relisted := replaceNode_relisted
    (run.grown.node atList) isList lengths (by rw [map_map]; exact run.atReads) run.quiet
    (fun mem => outside (mem_append_right _ mem)) replaced
  have notFront : fields.list ∉ front := fun mem =>
    listApart (mem_append_left _ mem) (mem_singleton_self _)
  have notStores : fields.list ∉ early₁ := fun mem => outside (mem_append_left _ mem)
  have atFront : Forest m' fields.hoisted.toList front := (shape.atFront.added run.grown).frame
    relisted.grown (fun id met same => notFront (same ▸ met)) (fun _ _ => not_false)
  have atStores : Forest m' (stores.map Prod.fst) early₁ := run.atStores.frame relisted.grown
    (fun id met same => notStores (same ▸ met)) (fun _ _ => not_false)
  have both : Forest m' (fields.hoisted.toList ++ stores.map Prod.fst) (front ++ early₁) := by
    apply atFront.append atStores
    · exact fun id inFront inStores => apart (mem_append_left _ inStores) inFront
    · have callsOnce := atTree.callsOnce
      rw [shape.parts] at callsOnce
      simp only [p.callsIn_append, append_assoc] at callsOnce
      obtain ⟨_, _, callsApart⟩ := nodup_append'.mp callsOnce
      intro call inFront inStores
      rw [relisted.grown.callsIn (shape.atFront.added run.grown).valid,
        run.grown.callsIn shape.atFront.valid] at inFront
      rw [relisted.grown.callsIn run.atStores.valid] at inStores
      refine callsApart inFront (mem_append_left _ ?_)
      apply (run.carries.mem_callsIn run.grown shape.atBase.valid call).mp
      rw [m.callsIn_append]
      exact mem_append_left _ inStores
  obtain ⟨row, grafts⟩ := sequence_grafts (show Forest _ ([] ++ _) _ from both) ran
  refine ⟨_, _, shape.stored atTree.valid run relisted grafts apart ?_⟩
  rw [append_assoc]
  exact fun mem => (mem_append.mp mem).elim notFront outside

theorem whole_stored {store : NodeId} (atTree : Forest p [value] tree)
    (made : Edit.addLocal { ty, kind := .argTemp } p = .ok temp m)
    (stored : addNode (.storeLocal temp value) .void m = .ok store m')
    (reads : readTemp settings data temp ty m' = .ok read q) :
    q.tempsFrom p.locals.size = [temp]
      ∧ ∃ earlyTree lateTree, StoredTree p q tree store read earlyTree lateTree := by
  obtain ⟨late, grafts⟩ := readTemp_grafts reads
  obtain ⟨grown, temps, atStore, once, carries, finished⟩ := spilled_carries atTree made stored grafts
  exact ⟨temps, _, _, grown.anywhere, atStore, grafts.forest, once, carries, finished, grafts.quiet⟩

theorem fieldsToTemps_temp {value : FieldValue} {early : NodeId} (filled : value.uses ≠ [])
    (done : fieldsToTemps value p = .ok early q) : ∃ temp, temp ∈ q.tempsFrom p.locals.size := by
  obtain ⟨fields, m, m', atFields, replaced, ran⟩ := fieldsToTemps_ok done
  obtain ⟨use, rest, uses⟩ := exists_cons_of_ne_nil filled
  rw [uses] at atFields
  simp only [mapM_cons, bind_ok_iff, pure_ok_iff] at atFields
  obtain ⟨first, u, atFirst, others, _, atRest, _, rfl⟩ := atFields
  obtain ⟨temp, v, v', read, made, stored, reads, _⟩ := fieldToTemp_ok atFirst
  obtain ⟨rfl, same⟩ := addLocal_ok made
  have later : Adds v _ := ((addNode_adds stored).trans (addNode_adds reads)).trans
    (mapM_ok_related Adds (fun _ => Extends.refl) (fun _ _ _ => Adds.trans)
      (fun field _ s result t round => fieldToTemp_adds round) _ others atRest)
  obtain ⟨_, _, _, _, rfl⟩ := replaceNode_ok replaced
  have here : v.locals[p.locals.size]? = some { ty := use.ty.actual, kind := .argTemp } := by
    rw [same]
    exact Array.getElem?_push_size
  have kept := (sequence_adds ran).varKept _ _ (later.varKept _ _ here)
  exact ⟨p.locals.size, q.mem_tempsFrom (Nat.le_refl _) (by simp [Procedure.isArgTemp, kept])⟩

inductive SlotSettled (settings : Settings) (id : CallId) (arg : Argument) (p q : Procedure)
    (tree : List NodeId) : Argument → Prop where
  | ready (late : arg.late.isSome = true) (same : q = p) : SlotSettled settings id arg p q tree arg
  | fields (value early : NodeId) (fields : FieldValue) (earlyTree lateTree : List NodeId)
      (has : arg.early = some value) (loose : arg.late = none) (marked : arg.flags.needsTemp = true)
      (found : fieldValue? p value = .ok (some fields))
      (step : SlotStep id p q tree { arg with early := some early, late := some fields.list }
        earlyTree lateTree [])
      (quiet : q.Quiet lateTree)
      (temps : fields.uses ≠ [] → ∃ temp, temp ∈ q.tempsFrom p.locals.size) :
      SlotSettled settings id arg p q tree { arg with early := some early, late := some fields.list }
  | whole (value store read : NodeId) (temp : LocalId) (ty : ValueType) (m m' : Procedure)
      (earlyTree lateTree : List NodeId) (has : arg.early = some value) (loose : arg.late = none)
      (marked : arg.flags.needsTemp = true) (isTemp : q.tempsFrom p.locals.size = [temp])
      (reads : readTemp settings arg temp ty m = .ok read m')
      (set : Reworks id m' q)
      (step : SlotStep id p q tree (arg.viaTemp temp store read) earlyTree lateTree [])
      (quiet : q.Quiet lateTree) :
      SlotSettled settings id arg p q tree (arg.viaTemp temp store read)
  | moved (value : NodeId) (has : arg.early = some value) (loose : arg.late = none)
      (unmarked : arg.flags.needsTemp = false)
      (deferred : (arg.placement.hasReg || arg.flags.needsPlace) = true)
      (step : SlotStep id p q tree { arg with early := none, late := some value } [] tree []) :
      SlotSettled settings id arg p q tree { arg with early := none, late := some value }
  | kept (value : NodeId) (has : arg.early = some value) (loose : arg.late = none)
      (stays : (arg.placement.hasReg || arg.flags.needsPlace) = false) (same : q = p) :
      SlotSettled settings id arg p q tree arg

theorem StoredTree.slot {early late : NodeId} {earlyTree lateTree : List NodeId}
    (trees : StoredTree p m tree early late earlyTree lateTree) (after : Argument) (data : Call)
    (isEarly : after.early = some early) (isLate : after.late = some late)
    (validTree : ∀ node ∈ tree, node < p.nodes.size) (apart : id ∉ p.callsIn tree) (set : q = m.setCall id data) :
    SlotStep id p q tree after earlyTree lateTree [] ∧ q.Quiet lateTree := by
  have atEarly : Forest m after.early.toList earlyTree := isEarly ▸ trees.atEarly
  have atLate : Forest m after.late.toList lateTree := isLate ▸ trees.atLate
  have grown := setCall_extends set
  exact ⟨SlotStep.ofEdits trees.grown apart validTree atEarly atLate trees.once trees.carries
    trees.done set, trees.quiet.kept grown trees.atLate.valid⟩

theorem toTemps_settled {data : Call} (here : p.calls[id]? = some data)
    (atIndex : data.args.args[index]? = some arg) (has : arg.early = some value) (loose : arg.late = none)
    (marked : arg.flags.needsTemp = true) (atTree : Forest p [value] tree) (apart : id ∉ p.callsIn tree)
    (done : toTemps settings id index arg value p = .ok () q) :
    ∃ after, SlotSettled settings id arg p q tree after ∧ after.late.isSome = true
      ∧ q.calls[id]? = some (data.withArgs (data.args.args.set index after)) := by
  cases toTemps_ok done with
  | fields fields early m found stored set =>
    obtain ⟨earlyTree, lateTree, trees⟩ := fieldsToTemps_stored atTree found stored
    have atM : m.calls[id]? = some data := (trees.grown.callKept id not_false).trans here
    obtain ⟨now, other, _, _, setEq⟩ := modifyArg_ok set
    obtain ⟨step, quiet⟩ := trees.slot { arg with early := some early, late := some fields.list } _ rfl
      rfl atTree.valid apart setEq
    have temps : fields.uses ≠ [] → ∃ temp, temp ∈ q.tempsFrom p.locals.size := fun filled => by
      rw [Procedure.tempsFrom_congr m q (by rw [setEq]; rfl)]
      exact fieldsToTemps_temp filled stored
    exact ⟨_, .fields value early fields earlyTree lateTree has loose marked found step quiet temps, rfl,
      modifyArg_slot atM atIndex set⟩
  | whole node temp store read m m' m'' _ _ _ made stored reads set =>
    obtain ⟨temps, earlyTree, lateTree, trees⟩ := whole_stored atTree made stored reads
    have atM : m''.calls[id]? = some data := (trees.grown.callKept id not_false).trans here
    obtain ⟨now, other, _, _, setEq⟩ := modifyArg_ok set
    obtain ⟨step, quiet⟩ := trees.slot (arg.viaTemp temp store read) _ rfl rfl atTree.valid apart setEq
    have temps : q.tempsFrom p.locals.size = [temp] := by
      rw [Procedure.tempsFrom_congr m'' q (by rw [setEq]; rfl), temps]
    exact ⟨_, .whole value store read temp _ m' m'' earlyTree lateTree has loose marked temps reads
      (modifyArg_extends set) step quiet, rfl,
      modifyArg_slot atM atIndex set⟩

theorem materializeArg_settled {data : Call} (here : p.calls[id]? = some data)
    (atIndex : data.args.args[index]? = some arg) (atTree : Forest p arg.early.toList tree)
    (apart : id ∉ p.callsIn tree) (done : materializeArg settings id retbufAsLocal index p = .ok isLate q) :
    ∃ after, SlotSettled settings id arg p q tree after ∧ isLate = after.late.isSome
      ∧ q.calls[id]? = some (data.withArgs (data.args.args.set index after)) := by
  obtain ⟨same, other, atSame, atOther, settled⟩ := materializeArg_ok done
  cases here.symm.trans atSame
  cases atIndex.symm.trans atOther
  have unchanged := Call.withArgs_set atIndex
  cases settled with
  | ready late listed same =>
    exact ⟨arg, .ready late same, listed.trans late.symm, by rw [unchanged, same, here]⟩
  | pinned value early loose marked _ listed stored =>
    rw [early] at atTree
    obtain ⟨after, settled, isSome, now⟩ := toTemps_settled
      here atIndex early loose marked atTree apart stored
    exact ⟨after, settled, listed.trans isSome.symm, now⟩
  | moved value early loose unmarked deferred listed set =>
    rw [early] at atTree
    obtain ⟨_, _, _, _, setEq⟩ := modifyArg_ok set
    have step : SlotStep id p q tree { arg with early := none, late := some value } [] tree [] :=
      SlotStep.ofEdits Extends.refl apart atTree.valid (Forest.nil p) atTree
        (by simpa using atTree.once) (Carries.refl p tree) (fun before => before) setEq
    exact ⟨_, .moved value early loose unmarked deferred step, listed,
      modifyArg_slot here atIndex set⟩
  | kept value early loose _ stays listed same =>
    exact ⟨arg, .kept value early loose stays same, by rw [listed, loose, Option.isSome_none],
      by rw [unchanged, same, here]⟩

theorem stored_inFront {after : Argument} {copies : List LocalId}
    (step : SlotStep id p q tree after early late copies) (quiet : q.Quiet late) (var : LocalId)
    (held : var ∈ q.storedIn tree) : var ∈ q.storedIn early := by
  have both := step.carries.stored var held
  rwa [q.storedIn_append, q.quiet_storedIn quiet, append_nil] at both

structure Settling (settings : Settings) (id : CallId) (data : Call) (rounds : Rounds) : Prop where
  isOpen : data.args.isMaterialized = false
  present : ∀ arg ∈ data.args.args, arg.early.isSome = true
  round : ∀ (arg after : Argument) (u v : Procedure) (tree : List NodeId), arg ∈ data.args.args →
    rounds.waiting u arg → Forest u arg.early.toList tree → SlotSettled settings id arg u v tree after →
    rounds.reached arg v after
  -- an argument that moves and is not alone stores nothing
  storeless : ∀ (arg : Argument) (u : Procedure) (tree : List NodeId), arg ∈ data.args.args →
    rounds.waiting u arg → arg.late = none → arg.flags.needsTemp = false →
    (arg.placement.hasReg || arg.flags.needsPlace) = true → Forest u arg.early.toList tree →
    data.args.args.length = 1 ∨ u.storedIn tree = []

section Settling

variable {settings : Settings} {id : CallId} {data : Call} {rounds : Rounds} {touched : Nat → Prop}
  {p u v : Procedure} {seen seen' : List NodeId} {args : List Argument}

theorem materializeArg_progress (settling : Settling settings id data rounds)
    (progress : Progress rounds id data touched p u seen seen' args [])
    (valid : ∀ node ∈ seen, node < p.nodes.size) (new : ¬ touched index) (bound : index < data.args.args.length)
    (done : materializeArg settings id retbufAsLocal index u = .ok isLate v) :
    ∃ seen'' after, Progress rounds id data (fun other => other = index ∨ touched other) p v seen
      seen'' (args.set index after) [] ∧ isLate = after.late.isSome := by
  have atIndex := getElem?_eq_getElem bound
  generalize data.args.args[index] = arg at atIndex
  have mem := mem_of_getElem? atIndex
  have atArgs := (progress.untouched index new).trans atIndex
  obtain ⟨value, has⟩ := Option.isSome_iff_exists.mp (settling.present arg mem)
  obtain ⟨tree, atTree, apart, _⟩ :=
    progress.passage.holds.treeOf (mem_of_getElem? atArgs) has
  have atTree : Forest u arg.early.toList tree := has ▸ atTree
  obtain ⟨after, settled, isLateEq, now⟩ := materializeArg_settled progress.passage.holds.here atArgs atTree apart done
  have waiting := progress.waiting index arg new atIndex
  have reached := settling.round arg after u v tree mem waiting atTree settled
  -- The slot stays as it is, or a step on it leaves all stores in front.
  cases settled with
  | ready late same =>
    subst same
    exact ⟨_, arg, progress.skip new atIndex reached, isLateEq⟩
  | kept _ _ _ _ same =>
    subst same
    exact ⟨_, arg, progress.skip new atIndex reached, isLateEq⟩
  | fields _ _ _ _ _ _ loose _ _ step quiet _ =>
    obtain ⟨seen'', further⟩ := progress.step valid settling.isOpen new atIndex loose atTree step now
      (.inr (stored_inFront step quiet)) reached
    exact ⟨seen'', _, further, isLateEq⟩
  | whole _ _ _ _ _ _ _ _ _ _ loose _ _ _ _ step quiet =>
    obtain ⟨seen'', further⟩ := progress.step valid settling.isOpen new atIndex loose atTree step now
      (.inr (stored_inFront step quiet)) reached
    exact ⟨seen'', _, further, isLateEq⟩
  | moved _ _ loose unmarked deferred step =>
    have inFront : args.length = 1 ∨ ∀ var ∈ v.storedIn tree, var ∈ v.storedIn [] := by
      rw [progress.sameLength]
      refine (settling.storeless arg u tree mem waiting loose unmarked deferred atTree).imp_right
        fun none => ?_
      rw [step.grown.storedIn atTree.valid, none]
      exact fun _ held => nomatch held
    obtain ⟨seen'', further⟩ :=
      progress.step valid settling.isOpen new atIndex loose atTree step now inFront reached
    exact ⟨seen'', _, further, isLateEq⟩

theorem materializeArgs_progress (settling : Settling settings id data rounds) {order : List Nat}
    (late : List Nat) (once : order.Nodup) (progress : Progress rounds id data touched p u seen seen' args [])
    (valid : ∀ node ∈ seen, node < p.nodes.size) (new : ∀ index ∈ order, ¬ touched index)
    (bounded : ∀ index ∈ order, index < data.args.args.length)
    (done : materializeArgs settings id retbufAsLocal order u = .ok late v) :
    ∃ seen'' args', Progress rounds id data (fun other => other ∈ order ∨ touched other) p v seen
      seen'' args' [] ∧ late = order.filter (hasLate args')
      ∧ ∀ index : Nat, index ∉ order → args'[index]? = args[index]? := by
  induction order generalizing touched u args seen' late with
  | nil =>
    obtain ⟨rfl, rfl⟩ := pure_ok_iff.mp done
    exact ⟨seen', args, progress.touching fun _ => by simp, rfl, fun _ _ => rfl⟩
  | cons index rest ih =>
    obtain ⟨notLater, once⟩ := nodup_cons.mp once
    simp only [materializeArgs, bind_ok_iff, pure_ok_iff] at done
    obtain ⟨isLate, m, first, later, _, others, rfl, rfl⟩ := done
    obtain ⟨visited₁, after, further, isLateEq⟩ := materializeArg_progress settling progress valid
      (new index (by simp)) (bounded index (by simp)) first
    have newRest : ∀ other ∈ rest, ¬ (other = index ∨ touched other) := by
      rintro other inRest (rfl | before)
      · exact notLater inRest
      · exact new other (by simp [inRest]) before
    obtain ⟨visited₂, args', ended, listed, kept⟩ := ih later once further newRest
      (fun other inRest => bounded other (by simp [inRest])) others
    have bound : index < args.length := progress.sameLength ▸ bounded index (by simp)
    have head : hasLate args' index = isLate := by
      simp [hasLate, kept index notLater, bound, isLateEq]
    refine ⟨visited₂, args', ended.touching fun other => ?_, ?_, fun other outside => ?_⟩
    · simp only [mem_cons]
      grind
    · rw [listed, filter_cons, head]
    · rw [kept other fun inRest => outside (by simp [inRest])]
      exact getElem?_set_ne fun same => outside (by simp [same])

end Settling

end Materialize

end CallLowering
