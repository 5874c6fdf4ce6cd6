import CallLowering.Proofs.FinalizedPlaces
import CallLowering.Proofs.MaterializedTrees

/-! Field lists that have fields. -/

namespace CallLowering

open List

variable {var : LocalId} {p q : Procedure} {calls : CallId → Prop} {base : Nat} {id list root : NodeId}
  {nodes : NodeId → Prop} {kind : NodeKind} {settings : Settings} {ty : ValueType} {arg : Argument}

theorem Extends.wasEmpty (grown : Extends nodes calls p q) (bound : id < p.nodes.size)
    (empty : q.kindAt id = some (.fieldList [])) : p.kindAt id = some (.fieldList []) := by
  obtain ⟨old, new, atOld, atNew, kept⟩ := grown.kindAt bound
  cases atNew.symm.trans empty
  rcases kept with rfl | ⟨before, after, rfl, same, lengths⟩
  · exact atOld
  · cases same
    rw [atOld, eq_nil_of_length_eq_zero lengths]

theorem Extends.staysEmpty (grown : Extends nodes calls p q)
    (empty : p.kindAt id = some (.fieldList [])) : q.kindAt id = some (.fieldList []) := by
  obtain ⟨old, new, atOld, atNew, kept⟩ := grown.kindAt (p.kindAt_lt empty)
  cases atOld.symm.trans empty
  rcases kept with rfl | ⟨before, after, same, rfl, lengths⟩
  · exact atNew
  · cases same
    rw [atNew, eq_nil_of_length_eq_zero lengths.symm]

-- A value that is no empty list, and has none behind a comma.
structure Procedure.Listed (proc : Procedure) (value : NodeId) : Prop where
  bound : value < proc.nodes.size
  filled : proc.kindAt value ≠ some (.fieldList [])
  behind : ∀ first second, proc.kindAt value = some (.comma first second) →
    second < proc.nodes.size ∧ proc.kindAt second ≠ some (.fieldList [])

namespace Procedure.Listed

variable {nodes : NodeId → Prop} {calls : CallId → Prop} {p q : Procedure} {value : NodeId}

theorem kept (listed : p.Listed value) (grown : Extends nodes calls p q) : q.Listed value where
  bound := Nat.lt_of_lt_of_le listed.bound grown.size_le
  filled := fun empty => listed.filled (grown.wasEmpty listed.bound empty)
  behind := fun first second isComma => by
    obtain ⟨old, new, atOld, atNew, kept⟩ := grown.kindAt listed.bound
    cases atNew.symm.trans isComma
    rcases kept with rfl | ⟨_, _, _, same, _⟩
    · obtain ⟨bound, filled⟩ := listed.behind first second atOld
      exact ⟨Nat.lt_of_lt_of_le bound grown.size_le, fun empty => filled (grown.wasEmpty bound empty)⟩
    · cases same

theorem ofForest {tree : List NodeId} (forest : Forest p [value] tree)
    (filled : ∀ id ∈ tree, p.kindAt id ≠ some (.fieldList [])) : p.Listed value := by
  have mem : value ∈ tree := Spans.root_mem forest.spans (by simp)
  refine ⟨forest.valid value mem, filled value mem, fun first second isComma => ?_⟩
  obtain ⟨below, rfl, under, _⟩ := forest.plain isComma rfl
  have child : second ∈ below := Spans.root_mem under.spans (by simp [NodeKind.children])
  exact ⟨under.valid second child, filled second (mem_append_left _ child)⟩

theorem ofUses {uses : List FieldUse} (here : p.kindAt value = some (.fieldList uses))
    (filled : uses ≠ []) : p.Listed value where
  bound := p.kindAt_lt here
  filled := fun empty => by
    cases here.symm.trans empty
    exact filled rfl
  behind := fun first second isComma => by cases here.symm.trans isComma

theorem ofMention (mentions : p.mentionAt value = some var) : p.Listed value := by
  obtain ⟨kind, here, isVar⟩ := Option.bind_eq_some_iff.mp mentions
  refine ⟨p.kindAt_lt here, fun empty => ?_, fun first second isComma => ?_⟩
  · cases here.symm.trans empty
    cases isVar
  · cases here.symm.trans isComma
    cases isVar

theorem uses (listed : p.Listed value) {fields : Materialize.FieldValue}
    (found : Materialize.fieldValue? p value = .ok (some fields)) : fields.uses ≠ [] := by
  obtain ⟨node, atList, isList, ⟨_, same⟩ | ⟨first, top, _, atTop, isComma⟩⟩ :=
    Materialize.fieldValue_some found
  · intro empty
    rw [same] at atList
    exact listed.filled (p.kindAt_some_iff.mpr ⟨node, atList, empty ▸ isList⟩)
  · intro empty
    obtain ⟨_, filled⟩ := listed.behind first fields.list (p.kindAt_of atTop isComma)
    exact filled (p.kindAt_some_iff.mpr ⟨node, atList, empty ▸ isList⟩)

end Procedure.Listed

-- A tree that mentions the local at its root, or in every field of its root.
def Procedure.Recalls (proc : Procedure) (root : NodeId) (var : LocalId) : Prop :=
  proc.mentionAt root = some var
    ∨ ∃ uses, proc.kindAt root = some (.fieldList uses) ∧ ∀ use ∈ uses, proc.mentionAt use.node = some var

theorem Procedure.Recalls.mentioned {proc : Procedure} {part : List NodeId}
    (recalls : proc.Recalls root var) (forest : Forest proc [root] part) :
    proc.kindAt root = some (.fieldList []) ∨ proc.MentionedIn part var := by
  rcases recalls with atRoot | ⟨uses, isList, mentions⟩
  · exact .inr ⟨root, Spans.root_mem forest.spans (by simp), atRoot⟩
  · obtain ⟨below, rfl, under, _⟩ := forest.plain isList rfl
    cases uses with
    | nil => exact .inl isList
    | cons use rest =>
      have child : use.node ∈ below := Spans.root_mem under.spans mem_cons_self
      exact .inr ⟨use.node, mem_append_left _ child, mentions use mem_cons_self⟩

theorem Procedure.Recalls.kept (recalls : p.Recalls root var)
    (grown : Extends (fun _ => False) calls p q) : q.Recalls root var := by
  have same : ∀ id kind, p.kindAt id = some kind → q.kindAt id = some kind := fun id kind here =>
    (grown.kindAt_outside (p.kindAt_lt here) not_false).trans here
  have mention : ∀ id, p.mentionAt id = some var → q.mentionAt id = some var := by
    intro id mentions
    obtain ⟨kind, here, isVar⟩ := Option.bind_eq_some_iff.mp mentions
    exact (q.mentionAt_eq (same id kind here)).trans isVar
  rcases recalls with atRoot | ⟨uses, isList, mentions⟩
  · exact .inl (mention root atRoot)
  · exact .inr ⟨uses, same root _ isList, fun use mem => mention use.node (mentions use mem)⟩

theorem Materialize.NewNode.kindAt (made : NewNode p q id kind ty) : q.kindAt id = some kind := by
  obtain ⟨impact, here⟩ := made.here
  exact q.kindAt_of here rfl

namespace Shape

open Edit

theorem localFields_uses {pieces : List Piece} (done : localFields var base pieces p = .ok list q) :
    ∃ uses, q.kindAt list = some (.fieldList uses) ∧ uses.length = pieces.length
      ∧ ∀ use ∈ uses, q.mentionAt use.node = some var := by
  obtain ⟨_, uses, lists, reads, _⟩ := localFields_reads done
  refine ⟨uses, lists.kindAt, reads.length_eq.symm, fun use mem => ?_⟩
  obtain ⟨piece, _, one⟩ := forall₂_partner reads.flip mem
  exact q.mentionAt_eq one.reads.kindAt

variable {pieces : List Piece} {p q : Procedure}

theorem localFields_listed (filled : pieces ≠ [])
    (done : localFields var base pieces p = .ok list q) : q.Listed list := by
  obtain ⟨uses, here, sameLength, _⟩ := localFields_uses done
  apply Procedure.Listed.ofUses here
  rintro rfl
  exact filled (eq_nil_of_length_eq_zero sameLength.symm)

theorem localFields_recalls (done : localFields var base pieces p = .ok list q) : q.Recalls list var := by
  obtain ⟨uses, here, _, mentions⟩ := localFields_uses done
  exact .inr ⟨uses, here, mentions⟩

theorem loadFields_listed {id : CallId} {addr result : NodeId} {nonFaulting : Bool} (filled : pieces ≠ [])
    (done : loadFields id addr nonFaulting pieces p = .ok result q) : q.Listed result := by
  obtain ⟨hoisted, base, m, uses, m', list, _, loaded, last⟩ := loadFields_ok done
  have used : uses ≠ [] := by
    rintro rfl
    have sameLength := mapM_ok_length loaded
    rw [length_zipIdx] at sameLength
    exact filled (eq_nil_of_length_eq_zero sameLength.symm)
  rcases last with ⟨_, rfl, made⟩ | ⟨store, m'', _, made, joined⟩
  · obtain ⟨_, here⟩ := addNode_kindAt made
    exact .ofUses here used
  · obtain ⟨_, here⟩ := addNode_kindAt made
    obtain ⟨_, top⟩ := addNode_kindAt joined
    have listed := (Procedure.Listed.ofUses here used).kept (addNode_adds joined)
    refine ⟨q.kindAt_lt top, fun empty => ?_, fun first second isComma => ?_⟩
    · cases top.symm.trans empty
    · cases top.symm.trans isComma
      exact ⟨listed.bound, listed.filled⟩

theorem Cut.filled {layout : Layout} (cut : Cut settings arg layout pieces)
    (fits : arg.Fits settings) : pieces ≠ [] := fits.divided layout pieces cut.known cut.several cut.cut

theorem TakenApart.listed {id : CallId}
    (taken : TakenApart id pieces p list q kind) (filled : pieces ≠ []) : q.Listed list := by
  cases taken with
  | reads _ _ _ _ done => exact localFields_listed filled done
  | loads _ _ done => exact loadFields_listed filled done

theorem PassesCopy.recalls {copy : LocalId} {late : NodeId}
    (passes : PassesCopy settings arg copy p late q) : q.Recalls late copy ∧ (arg.Fits settings → q.Listed late) := by
  cases passes with
  | address done =>
    have mentions := q.mentionAt_eq (addNode_kindAt done).2
    exact ⟨.inl mentions, fun _ => .ofMention mentions⟩
  | fields _ _ cut done =>
    exact ⟨localFields_recalls done, fun fits => localFields_listed (cut.filled fits) done⟩

end Shape

theorem Materialize.readTemp_recalls {temp : LocalId} {read : NodeId}
    (done : readTemp settings arg temp ty p = .ok read q) :
    q.Recalls read temp ∧ (arg.Fits settings → q.Listed read) := by
  rcases readTemp_ok done with ⟨_, added⟩ | ⟨layout, pieces, cut, done⟩
  · have mentions := q.mentionAt_eq (Edit.addNode_kindAt added).2
    exact ⟨.inl mentions, fun _ => .ofMention mentions⟩
  · exact ⟨Shape.localFields_recalls done, fun fits => Shape.localFields_listed (cut.filled fits) done⟩

end CallLowering
