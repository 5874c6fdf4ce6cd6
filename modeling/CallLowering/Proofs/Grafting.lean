import CallLowering.Proofs.Holding
import CallLowering.Proofs.Shaping

/-!
Trees that grow by new nodes which only compute: constants, reads, addresses, loads and lists of
them. Such a tree may stand on one that was there before.
-/

namespace CallLowering

open List

variable {p q : Procedure} {id base : NodeId} {kind : NodeKind} {nonFaulting : Bool} {tree seen : List NodeId}
  {ty : ValueType} {field : FieldUse} {piece : Piece} {pieces : List Piece} {var : LocalId}

-- Under `roots` lie the nodes of `base` and new ones on top. The new ones act on nothing, mention
-- only what is allowed, and no local was made for them.
structure Grafts (p q : Procedure) (base roots made : List NodeId) (allowed : LocalId → Prop) :
    Prop where
  grown : Adds p q
  sameLocals : q.locals = p.locals
  forest : Forest q roots (base ++ made)
  new : ∀ id ∈ made, p.nodes.size ≤ id
  quiet : q.Quiet made
  mentions : ∀ id ∈ made, ∀ var, q.mentionAt id = some var → allowed var
  done : Done p base → Done q (base ++ made)

namespace Grafts

variable {p q r : Procedure} {base roots roots' made made' : List NodeId} {allowed : LocalId → Prop}

theorem start (forest : Forest p roots base) : Grafts p p base roots [] allowed where
  grown := Extends.refl
  sameLocals := rfl
  forest := by rwa [append_nil]
  new := by simp
  quiet := fun _ met => nomatch met
  mentions := by simp
  done := fun done => by rwa [append_nil]

theorem validMade (grafts : Grafts p q base roots made allowed) : ∀ id ∈ made, id < q.nodes.size := fun id met =>
  grafts.forest.valid id (mem_append_right _ met)

section Node

variable (done : Edit.addNode kind ty q = .ok id r) (isQuiet : kind.acts = false)
  (silent : ∀ var, kind.mentionsLocal? = some var → allowed var)

include done isQuiet silent

theorem nodeAfter {front : List NodeId} (grafts : Grafts p q base (front ++ kind.children) made allowed) :
    Grafts p r base (front ++ [id]) (made ++ [id]) allowed := by
  have added := Edit.addNode_adds done
  obtain ⟨new, here⟩ := Edit.addNode_kindAt done
  have isPlain : kind.call? = none := by
    rw [← r.callAt_eq here]
    exact r.callAt_of_quiet id ((r.actsAt_eq here).trans isQuiet)
  refine {
    grown := grafts.grown.trans added
    sameLocals := ?_
    forest := ?_
    new := fun other met => ?_
    quiet := fun other met => ?_
    mentions := fun other met var mentioned => ?_
    done := fun before => ?_ }
  · obtain ⟨_, _, _, rfl⟩ := Edit.addNode_ok done
    exact grafts.sameLocals
  · obtain ⟨before, below, parts, atFront, atBelow, apart, callsApart⟩ :=
      grafts.forest.split front kind.children
    rw [← append_assoc, parts, append_assoc]
    apply (atFront.added added).append (Edit.addNode_forest done isPlain atBelow)
    · intro other mem met
      rcases mem_append.mp met with inBelow | last
      · exact apart mem inBelow
      · rw [mem_singleton.mp last, new] at mem
        exact Nat.lt_irrefl _ (atFront.valid _ mem)
    · rw [r.callsIn_append, r.callsIn_single here, isPlain, Option.toList_none, append_nil,
        added.callsIn atFront.valid, added.callsIn atBelow.valid]
      exact callsApart
  · rcases mem_append.mp met with mem | last
    · exact grafts.new other mem
    · rw [mem_singleton.mp last, new]
      exact grafts.grown.size_le
  · rcases mem_append.mp met with mem | last
    · exact (added.actsAt (grafts.validMade other mem)).trans (grafts.quiet other mem)
    · rw [mem_singleton.mp last, r.actsAt_eq here, isQuiet]
  · rcases mem_append.mp met with mem | last
    · rw [added.mentionAt (grafts.validMade other mem)] at mentioned
      exact grafts.mentions other mem var mentioned
    · rw [mem_singleton.mp last, r.mentionAt_eq here] at mentioned
      exact silent var mentioned
  · rw [← append_assoc]
    exact Edit.addNode_done done isPlain grafts.forest (grafts.done before)

theorem node (grafts : Grafts p q base kind.children made allowed) :
    Grafts p r base [id] (made ++ [id]) allowed := by
  have after : Grafts p q base ([] ++ kind.children) made allowed := grafts
  exact after.nodeAfter done isQuiet silent

end Node

theorem weaken (grafts : Grafts p q base roots made allowed) (more : LocalId → Prop)
    (weaker : ∀ var, allowed var → more var) : Grafts p q base roots made more :=
  { grafts with mentions := fun id met var mentioned => weaker var (grafts.mentions id met var mentioned) }

theorem onto (grafts : Grafts p q base roots made allowed)
    (others : Grafts q r (base ++ made) roots' made' allowed) :
    Grafts p r base roots' (made ++ made') allowed where
  grown := grafts.grown.trans others.grown
  sameLocals := others.sameLocals.trans grafts.sameLocals
  forest := by
    rw [← append_assoc]
    exact others.forest
  new := fun id met => (mem_append.mp met).elim (grafts.new id) fun after =>
    Nat.le_trans grafts.grown.size_le (others.new id after)
  quiet := fun id met => (mem_append.mp met).elim
    (fun before => (others.grown.actsAt (grafts.validMade id before)).trans (grafts.quiet id before))
    (others.quiet id)
  mentions := fun id met var mentioned => by
    rcases mem_append.mp met with before | after
    · rw [others.grown.mentionAt (grafts.validMade id before)] at mentioned
      exact grafts.mentions id before var mentioned
    · exact others.mentions id after var mentioned
  done := fun before => by
    rw [← append_assoc]
    exact others.done (grafts.done before)

-- What stands alone may stand beside other trees.
theorem behind (forest : Forest p roots base) (grafts : Grafts p q [] roots' made allowed) :
    Grafts p q base (roots ++ roots') made allowed :=
  { grafts with
    forest := by
      apply (forest.added grafts.grown).append grafts.forest
      · intro id before after
        exact Nat.lt_irrefl _ (Nat.lt_of_lt_of_le (forest.valid id before) (grafts.new id after))
      · rw [nil_append, q.quiet_callsIn grafts.quiet]
        simp
    done := fun before => (before.added forest grafts.grown).append (grafts.done (Done.nil p)) }

theorem beside (grafts : Grafts p q base roots made allowed) (others : Grafts q r [] roots' made' allowed) :
    Grafts p r base (roots ++ roots') (made ++ made') allowed :=
  grafts.onto (others.behind grafts.forest)

theorem unused (before : Adds p q) (sameLocals : q.locals = p.locals)
    (grafts : Grafts q r [] roots made allowed) : Grafts p r [] roots made allowed :=
  { grafts with
    grown := before.trans grafts.grown
    sameLocals := grafts.sameLocals.trans sameLocals
    new := fun id met => Nat.le_trans before.size_le (grafts.new id met)
    done := fun _ => grafts.done (Done.nil q) }

theorem leaf (done : Edit.addNode kind ty p = .ok id q) (childless : kind.children = [])
    (isQuiet : kind.acts = false) (silent : ∀ var, kind.mentionsLocal? = some var → allowed var) :
    Grafts p q [] [id] [id] allowed := by
  have begun : Grafts p p [] kind.children [] allowed := childless ▸ start (Forest.nil p)
  exact begun.node done isQuiet silent

variable (grafts : Grafts p q base roots made allowed)

include grafts

theorem noTemps : q.tempsFrom p.locals.size = [] := by
  rw [← grafts.sameLocals]
  exact q.tempsFrom_self

theorem acting : made.filter q.actsAt = [] := by
  apply filter_eq_nil_iff.mpr
  intro id met
  simp [grafts.quiet id met]

theorem reads_known {known : LocalId → Prop} (weaker : ∀ var, allowed var → known var) : q.Reads known made :=
  q.reads_of_known known made fun id met var mentioned => weaker var (grafts.mentions id met var mentioned)

theorem carries (dropped : List NodeId)
    (quiet : q.Quiet dropped)
    (isKnown : ∀ known, q.Reads known (base ++ dropped) →
      ∀ var, allowed var → known var ∨ var ∈ q.storedIn base) :
    Carries p q (base ++ dropped) (base ++ made) [] where
  new := fun id met => (mem_append.mp met).imp (mem_append_left _) (grafts.new id)
  acts := by
    have droppedQuiet : dropped.filter q.actsAt = [] := by
      apply filter_eq_nil_iff.mpr
      intro id met
      simp [quiet id met]
    refine ⟨[], ?_, by simp, ?_⟩
    · simp [filter_append, grafts.acting, droppedQuiet]
    · rw [grafts.noTemps]
      simp
  reads := fun known reads => (q.reads_append known base made).mpr
    ⟨((q.reads_append known base dropped).mp reads).1, grafts.reads_known (isKnown known reads)⟩

end Grafts

def Procedure.MentionedIn (proc : Procedure) (visited : List NodeId) (var : LocalId) : Prop :=
  ∃ id ∈ visited, proc.mentionAt id = some var

theorem Procedure.MentionedIn.before {roots : List NodeId} (mentioned : q.MentionedIn seen var)
    (grown : Adds p q) (forest : Forest p roots seen) : p.MentionedIn seen var := by
  obtain ⟨id, mem, atId⟩ := mentioned
  exact ⟨id, mem, (grown.mentionAt (forest.valid id mem)).symm.trans atId⟩

namespace Edit

theorem Cloned.grafts {depth : Nat} {copy : Option NodeId} (cloned : Cloned depth id p copy q) {top : NodeId}
    (isCopy : copy = some top) (forest : Forest p [id] seen) :
    ∃ made, Grafts p q [] [top] made (p.MentionedIn seen) := by
  induction cloned generalizing top seen with
  | raising | noLeft | noRight | other => cases isCopy
  | @arithmetic _ id lhs rhs left right _ op node p m _ _ here isBinary quiet _ _ made ihLeft ihRight =>
    cases isCopy
    have atKind : p.kindAt id = some (.binary op lhs rhs) := p.kindAt_of here isBinary
    obtain ⟨below, rfl, under, _⟩ := forest.plain atKind rfl
    obtain ⟨a, b, rfl, forestA, forestB, _⟩ := under.split [lhs] [rhs]
    obtain ⟨madeA, graftsA⟩ := ihLeft rfl forestA
    obtain ⟨madeB, graftsB⟩ := ihRight rfl (forestB.added graftsA.grown)
    have allowedA := graftsA.weaken (p.MentionedIn (a ++ b ++ [id])) fun var mentioned => by
      obtain ⟨other, mem, atOther⟩ := mentioned
      exact ⟨other, by simp [mem], atOther⟩
    have allowedB := graftsB.weaken (p.MentionedIn (a ++ b ++ [id])) fun var mentioned => by
      obtain ⟨other, mem, atOther⟩ := mentioned.before graftsA.grown forestB
      exact ⟨other, by simp [mem], atOther⟩
    exact ⟨_, (allowedA.beside allowedB).node made (by simpa [NodeKind.acts] using quiet)
      (by simp [NodeKind.mentionsLocal?])⟩
  | @leaf _ id _ node p _ here isLeaf made =>
    cases isCopy
    have atKind := p.kindAt_of here rfl
    obtain ⟨childless, silent⟩ : node.kind.children = [] ∧ node.kind.acts = false := by
      cases kindEq : node.kind with
      | intConst | floatConst | readLocal | readField | localAddr => exact ⟨rfl, rfl⟩
      | _ => simp [kindEq, isSimpleLeaf] at isLeaf
    refine ⟨_, Grafts.leaf made childless silent fun var mentioned => ?_⟩
    refine ⟨id, Spans.root_mem forest.spans (by simp), ?_⟩
    rw [p.mentionAt_eq atKind, mentioned]

theorem cloneSimple_grafts {copy : NodeId} (forest : Forest p [id] seen)
    (done : cloneSimple id p = .ok (some copy) q) : ∃ made, Grafts p q [] [copy] made (p.MentionedIn seen) :=
  (cloneSimple_cloned done).grafts rfl forest

end Edit

namespace Shape

open Edit

theorem localFields_grafts {base : Nat} {list : NodeId}
    (done : localFields var base pieces p = .ok list q) : ∃ made, Grafts p q [] [list] made (· = var) := by
  simp only [localFields, bind_ok_iff] at done
  obtain ⟨uses, m, reads, added⟩ := done
  have each : ∃ made, Grafts p m [] (uses.map FieldUse.node) made (· = var) := by
    clear added
    induction pieces generalizing p uses with
    | nil =>
      obtain ⟨rfl, rfl⟩ := pure_ok_iff.mp reads
      exact ⟨[], Grafts.start (Forest.nil p)⟩
    | cons piece rest ih =>
      simp only [mapM_cons, bind_ok_iff, ask_ok_iff, pure_ok_iff] at reads
      obtain ⟨_, _, ⟨offset, _, ⟨_, rfl⟩, read, _, added, rfl, rfl⟩, others, _, reads, rfl, rfl⟩ := reads
      obtain ⟨made, grafts⟩ := ih _ reads
      have first : Grafts p _ [] [read] [read] (· = var) :=
        Grafts.leaf added rfl rfl fun _ mentioned => (Option.some.inj mentioned).symm
      exact ⟨_, first.beside grafts⟩
  obtain ⟨made, grafts⟩ := each
  exact ⟨_, grafts.node added rfl (by simp [NodeKind.mentionsLocal?])⟩

theorem fieldAddr_grafts {start addr : NodeId} {offset : Nat} {r : Procedure} {base made : List NodeId}
    {allowed : LocalId → Prop} (grafts : Grafts p q base [start] made allowed)
    (done : fieldAddr start offset q = .ok addr r) : ∃ more, Grafts p r base [addr] more allowed := by
  unfold fieldAddr at done
  split at done
  · obtain ⟨rfl, rfl⟩ := pure_ok_iff.mp done
    exact ⟨made, grafts⟩
  · simp only [bind_ok_iff] at done
    obtain ⟨amount, m, counted, added⟩ := done
    have constant : Grafts q m [] [amount] [amount] allowed :=
      Grafts.leaf counted rfl rfl (by simp [NodeKind.mentionsLocal?])
    exact ⟨_, (grafts.beside constant).node added rfl (by simp [NodeKind.mentionsLocal?])⟩

theorem loadPiece_first {id : CallId} (allowed : LocalId → Prop)
    (forest : Forest p [base] tree) (done : loadPiece id base nonFaulting 0 piece p = .ok field q) :
    ∃ made, Grafts p q tree [field.node] made allowed := by
  obtain ⟨start, m, addr, m', from_, atAddr, added, _⟩ := loadPiece_ok done
  rcases from_ with ⟨_, rfl, rfl⟩ | ⟨later, _⟩
  · obtain ⟨made, grafts⟩ := fieldAddr_grafts (Grafts.start forest) atAddr
    exact ⟨_, grafts.node added rfl (by simp [NodeKind.mentionsLocal?])⟩
  · exact absurd rfl later

theorem loadPiece_later {id : CallId} {index : Nat} (later : index ≠ 0)
    (forest : Forest p [base] tree) (done : loadPiece id base nonFaulting index piece p = .ok field q) :
    ∃ made, Grafts p q [] [field.node] made (p.MentionedIn tree) := by
  obtain ⟨start, m, addr, m', from_, atAddr, added, _⟩ := loadPiece_ok done
  rcases from_ with ⟨first, _⟩ | ⟨_, cloned⟩
  · exact absurd first later
  · obtain ⟨copied, grafts⟩ := cloneSimple_grafts forest cloned
    obtain ⟨made, grafts⟩ := fieldAddr_grafts grafts atAddr
    exact ⟨_, grafts.node added rfl (by simp [NodeKind.mentionsLocal?])⟩

variable {uses : List FieldUse}

theorem loadPieces_later {id : CallId}
    {items : List (Piece × Nat)}
    (later : ∀ item ∈ items, item.2 ≠ 0) (forest : Forest p [base] tree)
    (done : (items.mapM (fun (piece, index) => loadPiece id base nonFaulting index piece) :
      Attempt (List FieldUse)) p = .ok uses q) :
    ∃ made, Grafts p q [] (uses.map FieldUse.node) made (p.MentionedIn tree) := by
  induction items generalizing p uses with
  | nil =>
    obtain ⟨rfl, rfl⟩ := pure_ok_iff.mp done
    exact ⟨[], Grafts.start (Forest.nil p)⟩
  | cons item rest ih =>
    simp only [mapM_cons, bind_ok_iff, pure_ok_iff] at done
    obtain ⟨field, m, first, others, _, done, rfl, rfl⟩ := done
    obtain ⟨made, grafts⟩ := loadPiece_later (later item (by simp)) forest first
    obtain ⟨made', grafts'⟩ := ih (fun other mem => later other (by simp [mem]))
      (forest.added grafts.grown) done
    have allowed := grafts'.weaken (p.MentionedIn tree) fun _ mentioned =>
      mentioned.before grafts.grown forest
    exact ⟨_, grafts.beside allowed⟩

theorem loadPieces_grafts {id : CallId} (forest : Forest p [base] tree)
    (done : (pieces.zipIdx.mapM (fun (piece, index) => loadPiece id base nonFaulting index piece) :
      Attempt (List FieldUse)) p = .ok uses q) :
    uses = [] ∧ q = p ∨ ∃ made, Grafts p q tree (uses.map FieldUse.node) made (p.MentionedIn tree) := by
  cases pieces with
  | nil =>
    obtain ⟨rfl, rfl⟩ := pure_ok_iff.mp done
    exact .inl ⟨rfl, rfl⟩
  | cons piece rest =>
    simp only [zipIdx_cons, mapM_cons, bind_ok_iff, pure_ok_iff] at done
    obtain ⟨field, m, first, others, _, done, rfl, rfl⟩ := done
    obtain ⟨made, grafts⟩ := loadPiece_first (p.MentionedIn tree) forest first
    have later : ∀ item ∈ rest.zipIdx (0 + 1), item.2 ≠ 0 := by
      intro item mem
      have := le_snd_of_mem_zipIdx mem
      omega
    obtain ⟨made', grafts'⟩ := loadPieces_later later (forest.added grafts.grown) done
    have allowed := grafts'.weaken (p.MentionedIn tree) fun _ mentioned =>
      mentioned.before grafts.grown forest
    exact .inr ⟨_, grafts.beside allowed⟩

end Shape

end CallLowering
