import CallLowering.Proofs.Span

/-!
Forests: roots under which every node is met once and every call is named once. What an edit leaves
alone keeps its trees, and a new node makes one tree of several.
-/

namespace CallLowering

open Option

open List

variable {id : NodeId} {kind : NodeKind} {seen roots below roots' : List NodeId} {proc p q : Procedure}
  {ty : ValueType} {calls : CallId → Prop} {nodes : NodeId → Prop}

-- Evaluating the node twice, or not at all, would make a difference.
def NodeKind.acts : NodeKind → Bool
  | .storeLocal _ _ | .storeInd _ _ | .boundsCheck _ _ | .stackAlloc _ | .call _ => true
  | .binary op _ _ => !op.exceptions.isEmpty
  | _ => false

theorem NodeKind.plain_of_quiet (kind : NodeKind) (quiet : kind.acts = false) : kind.call? = none := by
  cases kind with
  | call id => cases quiet
  | _ => rfl

namespace Procedure

def kindAt (proc : Procedure) (id : NodeId) : Option NodeKind := proc.nodes[id]?.map Node.kind

def callAt (proc : Procedure) (id : NodeId) : Option CallId := (proc.kindAt id).bind NodeKind.call?

def storeAt (proc : Procedure) (id : NodeId) : Option LocalId :=
  (proc.kindAt id).bind NodeKind.storesLocal?

def mentionAt (proc : Procedure) (id : NodeId) : Option LocalId :=
  (proc.kindAt id).bind NodeKind.mentionsLocal?

def actsAt (proc : Procedure) (id : NodeId) : Bool := (proc.kindAt id).any NodeKind.acts

def callsIn (proc : Procedure) (visited : List NodeId) : List CallId :=
  visited.filterMap proc.callAt

def storedIn (proc : Procedure) (visited : List NodeId) : List LocalId :=
  visited.filterMap proc.storeAt

section Kinds

variable (proc : Procedure) {call : CallId}

theorem kindAt_some_iff : proc.kindAt id = some kind ↔ ∃ node, proc.nodes[id]? = some node ∧ node.kind = kind :=
  map_eq_some_iff

theorem kindAt_of {node : Node} (here : proc.nodes[id]? = some node) (isKind : node.kind = kind) :
    proc.kindAt id = some kind :=
  proc.kindAt_some_iff.mpr ⟨node, here, isKind⟩

theorem kindAt_lt (here : proc.kindAt id = some kind) : id < proc.nodes.size := by
  obtain ⟨node, atNode, _⟩ := proc.kindAt_some_iff.mp here
  exact lt_size atNode

theorem kindAt_of_lt (bound : id < proc.nodes.size) : ∃ kind, proc.kindAt id = some kind :=
  ⟨_, proc.kindAt_some_iff.mpr ⟨_, Array.getElem?_eq_getElem bound, rfl⟩⟩

theorem callAt_eq (here : proc.kindAt id = some kind) : proc.callAt id = kind.call? := by
  rw [callAt, here, bind_some]

theorem storeAt_eq (here : proc.kindAt id = some kind) : proc.storeAt id = kind.storesLocal? := by
  rw [storeAt, here, bind_some]

theorem mentionAt_eq (here : proc.kindAt id = some kind) : proc.mentionAt id = kind.mentionsLocal? := by
  rw [mentionAt, here, bind_some]

theorem actsAt_eq (here : proc.kindAt id = some kind) : proc.actsAt id = kind.acts := by
  rw [actsAt, here, any_some]

theorem callAt_some_iff : proc.callAt id = some call ↔ proc.kindAt id = some (.call call) := by
  constructor
  · intro named
    obtain ⟨kind, here, isCall⟩ := bind_eq_some_iff.mp named
    rw [here, (kind.call?_eq_some_iff call).mp isCall]
  · intro here
    rw [proc.callAt_eq here]
    rfl

theorem owned_of_kind (here : proc.kindAt id = some kind) (plain : kind.call? = none) :
    proc.owned id = kind.children := by
  obtain ⟨node, atNode, rfl⟩ := proc.kindAt_some_iff.mp here
  exact proc.links_of_plain Call.owned atNode plain

theorem owned_of_call {data : Call} (here : proc.kindAt id = some (.call call))
    (found : proc.calls[call]? = some data) : proc.owned id = data.owned := by
  obtain ⟨node, atNode, kindEq⟩ := proc.kindAt_some_iff.mp here
  unfold owned links
  simp only [atNode, kindEq, found, map_some, getD_some]

end Kinds

theorem owned_congr (sameKinds : q.kindAt = p.kindAt) (sameCalls : q.calls = p.calls) : q.owned = p.owned := by
  funext id
  cases here : p.kindAt id with
  | none =>
    have inP := map_eq_none_iff.mp here
    have inQ := map_eq_none_iff.mp ((congrFun sameKinds id).trans here)
    unfold owned links
    rw [inP, inQ]
  | some kind =>
    have there : q.kindAt id = some kind := (congrFun sameKinds id).trans here
    obtain ⟨node, atNode, kindEq⟩ := p.kindAt_some_iff.mp here
    obtain ⟨node', atNode', kindEq'⟩ := q.kindAt_some_iff.mp there
    unfold owned links
    rw [atNode, atNode', sameCalls]
    simp only [kindEq, kindEq']

theorem callsIn_append (proc : Procedure) (a b : List NodeId) :
    proc.callsIn (a ++ b) = proc.callsIn a ++ proc.callsIn b :=
  filterMap_append

theorem storedIn_append (proc : Procedure) (a b : List NodeId) :
    proc.storedIn (a ++ b) = proc.storedIn a ++ proc.storedIn b :=
  filterMap_append

theorem callsIn_single (proc : Procedure) (here : proc.kindAt id = some kind) :
    proc.callsIn [id] = kind.call?.toList := by
  rw [callsIn, filterMap_cons, proc.callAt_eq here]
  cases kind.call? <;> rfl

end Procedure

theorem NodeKind.Kept.read {β : Type} {old new : NodeKind} (kept : old.Kept new) {f : NodeKind → β}
    (blind : ∀ uses other, f (.fieldList uses) = f (.fieldList other)) : f new = f old := by
  rcases kept with rfl | ⟨before, after, rfl, rfl, _⟩
  · rfl
  · exact blind after before

namespace Extends

variable {nodes : NodeId → Prop} {calls : CallId → Prop} {p q : Procedure}

section Known

variable (grown : Extends nodes calls p q) (bound : id < p.nodes.size)

include grown bound

theorem kindAt : ∃ old new, p.kindAt id = some old ∧ q.kindAt id = some new ∧ old.Kept new := by
  obtain ⟨now, atNow, kept⟩ := grown.kindKept id _ (Array.getElem?_eq_getElem bound)
  exact ⟨_, now.kind, p.kindAt_of (Array.getElem?_eq_getElem bound) rfl,
    q.kindAt_of atNow rfl, kept⟩

theorem kindAt_outside (outside : ¬ nodes id) : q.kindAt id = p.kindAt id := by
  rw [Procedure.kindAt, Procedure.kindAt, grown.nodeKept id bound outside]

theorem callAt : q.callAt id = p.callAt id := by
  obtain ⟨old, new, atOld, atNew, kept⟩ := grown.kindAt bound
  rw [q.callAt_eq atNew, p.callAt_eq atOld]
  exact kept.read fun _ _ => rfl

theorem storeAt : q.storeAt id = p.storeAt id := by
  obtain ⟨old, new, atOld, atNew, kept⟩ := grown.kindAt bound
  rw [q.storeAt_eq atNew, p.storeAt_eq atOld]
  exact kept.read fun _ _ => rfl

theorem mentionAt : q.mentionAt id = p.mentionAt id := by
  obtain ⟨old, new, atOld, atNew, kept⟩ := grown.kindAt bound
  rw [q.mentionAt_eq atNew, p.mentionAt_eq atOld]
  exact kept.read fun _ _ => rfl

theorem actsAt : q.actsAt id = p.actsAt id := by
  obtain ⟨old, new, atOld, atNew, kept⟩ := grown.kindAt bound
  rw [q.actsAt_eq atNew, p.actsAt_eq atOld]
  exact kept.read fun _ _ => rfl

end Known

theorem callsIn (grown : Extends nodes calls p q)
    (valid : ∀ id ∈ seen, id < p.nodes.size) : q.callsIn seen = p.callsIn seen :=
  filterMap_congr fun id met => grown.callAt (valid id met)

theorem storedIn (grown : Extends nodes calls p q)
    (valid : ∀ id ∈ seen, id < p.nodes.size) : q.storedIn seen = p.storedIn seen :=
  filterMap_congr fun id met => grown.storeAt (valid id met)

theorem owned (grown : Extends nodes calls p q) (bound : id < p.nodes.size) (outside : ¬ nodes id)
    (callOutside : ∀ call, p.callAt id = some call → ¬ calls call) : q.owned id = p.owned id := by
  have sameKind := grown.kindAt_outside bound outside
  obtain ⟨kind, here⟩ := p.kindAt_of_lt bound
  cases isCall : kind.call? with
  | none => rw [q.owned_of_kind (sameKind.trans here) isCall, p.owned_of_kind here isCall]
  | some call =>
    have kept := grown.callKept call (callOutside call ((p.callAt_eq here).trans isCall))
    unfold Procedure.owned Procedure.links
    rw [grown.nodeKept id bound outside, Array.getElem?_eq_getElem bound]
    cases kindEq : p.nodes[id].kind with
    | call other =>
      have same : other = call := by
        have atOther := p.kindAt_of (Array.getElem?_eq_getElem bound) kindEq
        cases here.symm.trans atOther
        exact Option.some.inj isCall
      simp only [kindEq, same, kept]
    | _ => simp only [kindEq]

end Extends

-- Every node under the roots is there, is met once, and names a call that no other of them names.
structure Forest (proc : Procedure) (roots visited : List NodeId) : Prop where
  spans : Spans proc.owned roots visited
  once : visited.Nodup
  callsOnce : (proc.callsIn visited).Nodup
  valid : ∀ id ∈ visited, id < proc.nodes.size

namespace Forest

theorem nil (proc : Procedure) : Forest proc [] [] :=
  ⟨.nil, .nil, .nil, by simp⟩

theorem frame (forest : Forest p roots seen) (grown : Extends nodes calls p q) (apart : ∀ id ∈ seen, ¬ nodes id)
    (callsApart : ∀ call ∈ p.callsIn seen, ¬ calls call) :
    Forest q roots seen where
  spans := Spans.frame forest.spans fun id met =>
    grown.owned (forest.valid id met) (apart id met) fun call named =>
      callsApart call (mem_filterMap.mpr ⟨id, met, named⟩)
  once := forest.once
  callsOnce := grown.callsIn forest.valid ▸ forest.callsOnce
  valid := fun id met => Nat.lt_of_lt_of_le (forest.valid id met) grown.size_le

theorem added (forest : Forest p roots seen) (grown : Adds p q) : Forest q roots seen :=
  forest.frame grown (fun _ _ => not_false) (fun _ _ => not_false)

theorem append {a b : List NodeId} (left : Forest proc roots a) (right : Forest proc roots' b)
    (apart : a.Disjoint b) (callsApart : (proc.callsIn a).Disjoint (proc.callsIn b)) :
    Forest proc (roots ++ roots') (a ++ b) where
  spans := Spans.append left.spans right.spans
  once := nodup_append'.mpr ⟨left.once, right.once, apart⟩
  callsOnce := by
    rw [proc.callsIn_append]
    exact nodup_append'.mpr ⟨left.callsOnce, right.callsOnce, callsApart⟩
  valid := fun id met => (mem_append.mp met).elim (left.valid id) (right.valid id)

theorem split (roots roots' : List NodeId) (forest : Forest proc (roots ++ roots') seen) :
    ∃ a b, seen = a ++ b ∧ Forest proc roots a ∧ Forest proc roots' b ∧ a.Disjoint b
      ∧ (proc.callsIn a).Disjoint (proc.callsIn b) := by
  obtain ⟨a, b, left, right, rfl⟩ := (Spans.append_iff _).mp forest.spans
  obtain ⟨onceLeft, onceRight, apart⟩ := nodup_append'.mp forest.once
  have callsOnce := forest.callsOnce
  rw [proc.callsIn_append] at callsOnce
  obtain ⟨callsLeft, callsRight, callsApart⟩ := nodup_append'.mp callsOnce
  exact ⟨a, b, rfl,
    ⟨left, onceLeft, callsLeft, fun id met => forest.valid id (mem_append_left _ met)⟩,
    ⟨right, onceRight, callsRight, fun id met => forest.valid id (mem_append_right _ met)⟩,
    apart, callsApart⟩

theorem atRoot (forest : Forest proc [id] seen) :
    ∃ below, seen = below ++ [id] ∧ Forest proc (proc.owned id) below ∧ id ∉ below
      ∧ ∀ call, proc.callAt id = some call → call ∉ proc.callsIn below := by
  obtain ⟨below, under, rfl⟩ := Spans.single_iff.mp forest.spans
  obtain ⟨once, _, apart⟩ := nodup_append'.mp forest.once
  have callsOnce := forest.callsOnce
  rw [proc.callsIn_append] at callsOnce
  obtain ⟨callsOnce, _, callsApart⟩ := nodup_append'.mp callsOnce
  refine ⟨below, rfl,
    ⟨under, once, callsOnce, fun other met => forest.valid other (mem_append_left _ met)⟩,
    fun mem => apart mem (by simp), fun call named mem => callsApart mem ?_⟩
  exact mem_filterMap.mpr ⟨id, by simp, named⟩

theorem root_node (forest : Forest proc [id] seen) : ∃ node, proc.nodes[id]? = some node :=
  ⟨_, Array.getElem?_eq_getElem (forest.valid id (Spans.root_mem forest.spans (mem_singleton_self id)))⟩

theorem root (under : Forest proc (proc.owned id) below) (bound : id < proc.nodes.size)
    (outside : id ∉ below) (callOutside : ∀ call, proc.callAt id = some call → call ∉ proc.callsIn below) :
    Forest proc [id] (below ++ [id]) where
  spans := Spans.single_iff.mpr ⟨below, under.spans, rfl⟩
  once := nodup_append'.mpr ⟨under.once, nodup_singleton id, by simpa using outside⟩
  callsOnce := by
    rw [proc.callsIn_append]
    refine nodup_append'.mpr ⟨under.callsOnce, ?_, fun call mem last => ?_⟩
    · rw [Procedure.callsIn, filterMap_cons]
      cases proc.callAt id <;> simp
    · obtain ⟨other, met, named⟩ := mem_filterMap.mp last
      cases mem_singleton.mp met
      exact callOutside call named mem
  valid := fun other met => by
    rcases mem_append.mp met with mem | last
    · exact under.valid other mem
    · cases mem_singleton.mp last
      exact bound

section Plain

variable (here : proc.kindAt id = some kind) (isPlain : kind.call? = none)

include here isPlain

theorem plain (forest : Forest proc [id] seen) :
    ∃ below, seen = below ++ [id] ∧ Forest proc kind.children below ∧ id ∉ below := by
  obtain ⟨below, parts, under, outside, _⟩ := forest.atRoot
  rw [proc.owned_of_kind here isPlain] at under
  exact ⟨below, parts, under, outside⟩

theorem withTop (under : Forest proc kind.children below) (outside : id ∉ below) :
    Forest proc [id] (below ++ [id]) := by
  rw [← proc.owned_of_kind here isPlain] at under
  refine root under (proc.kindAt_lt here) outside fun call named => ?_
  rw [proc.callAt_eq here, isPlain] at named
  cases named

theorem atLeaf (forest : Forest proc [id] seen) (childless : kind.children = []) : seen = [id] := by
  obtain ⟨below, rfl, under, _⟩ := forest.plain here isPlain
  rw [childless] at under
  cases under.spans
  rfl

end Plain

theorem reorder (forest : Forest proc roots seen) (perm : roots.Perm roots') :
    ∃ seen', Forest proc roots' seen' ∧ seen.Perm seen' := by
  induction perm generalizing seen with
  | nil => exact ⟨seen, forest, .refl _⟩
  | cons root _ ih =>
    obtain ⟨a, b, rfl, left, right, apart, callsApart⟩ := forest.split [root] _
    obtain ⟨b', right', same⟩ := ih right
    refine ⟨a ++ b', left.append right' (fun id inA inB => apart inA (same.mem_iff.mpr inB)) ?_,
      same.append_left a⟩
    exact fun call inA inB => callsApart inA ((same.filterMap _).mem_iff.mpr inB)
  | swap first second rest =>
    obtain ⟨a, bc, rfl, left, others, apart, callsApart⟩ := forest.split [second] (first :: rest)
    obtain ⟨b, c, rfl, middle, right, apart', callsApart'⟩ := others.split [first] rest
    rw [proc.callsIn_append] at callsApart
    obtain ⟨ab, ac⟩ := disjoint_append_right.mp apart
    obtain ⟨callsAB, callsAC⟩ := disjoint_append_right.mp callsApart
    have outer := left.append right ac callsAC
    refine ⟨b ++ (a ++ c), middle.append outer ?_ ?_, ?_⟩
    · exact disjoint_append_right.mpr ⟨fun _ inB inA => ab inA inB, apart'⟩
    · rw [proc.callsIn_append]
      exact disjoint_append_right.mpr ⟨fun _ inB inA => callsAB inA inB, callsApart'⟩
    · rw [← append_assoc, ← append_assoc]
      exact (perm_append_comm).append_right c
  | trans _ _ first second =>
    obtain ⟨middle, forest', same⟩ := first forest
    obtain ⟨last, forest'', same'⟩ := second forest'
    exact ⟨last, forest'', same.trans same'⟩

end Forest

namespace Procedure

-- Nodes whose evaluation nobody would miss.
def Quiet (proc : Procedure) (visited : List NodeId) : Prop :=
  ∀ id ∈ visited, proc.actsAt id = false

theorem storeAt_of_quiet (proc : Procedure) (id : NodeId) (quiet : proc.actsAt id = false) :
    proc.storeAt id = none := by
  cases here : proc.kindAt id with
  | none => rw [storeAt, here, bind_none]
  | some kind =>
    rw [proc.storeAt_eq here]
    rw [proc.actsAt_eq here] at quiet
    cases kind with
    | storeLocal var value => cases quiet
    | _ => rfl

theorem callAt_of_quiet (proc : Procedure) (id : NodeId) (quiet : proc.actsAt id = false) :
    proc.callAt id = none := by
  cases here : proc.kindAt id with
  | none => rw [callAt, here, bind_none]
  | some kind =>
    rw [proc.callAt_eq here]
    rw [proc.actsAt_eq here] at quiet
    exact kind.plain_of_quiet quiet

theorem quiet_storedIn (proc : Procedure) (quiet : proc.Quiet seen) : proc.storedIn seen = [] :=
  filterMap_eq_nil_iff.mpr fun id met => proc.storeAt_of_quiet id (quiet id met)

theorem quiet_callsIn (proc : Procedure) (quiet : proc.Quiet seen) : proc.callsIn seen = [] :=
  filterMap_eq_nil_iff.mpr fun id met => proc.callAt_of_quiet id (quiet id met)

theorem Quiet.kept (quiet : p.Quiet seen) (grown : Extends nodes calls p q)
    (valid : ∀ id ∈ seen, id < p.nodes.size) : q.Quiet seen :=
  fun id met => (grown.actsAt (valid id met)).trans (quiet id met)

end Procedure

namespace Edit

theorem addNode_kindAt (done : addNode kind ty p = .ok id q) : id = p.nodes.size ∧ q.kindAt id = some kind := by
  obtain ⟨_, _, new, _⟩ := addNode_ok done
  obtain ⟨node, atNode, kindEq, _⟩ := addNode_here done
  exact ⟨new, q.kindAt_of atNode kindEq⟩

theorem addNode_kinds (done : addNode kind ty p = .ok id q) (other : NodeId) :
    q.kindAt other = if other = p.nodes.size then some kind else p.kindAt other := by
  obtain ⟨_, _, _, rfl⟩ := addNode_ok done
  simp only [Procedure.kindAt, Procedure.noteKind, Procedure.pushNode, Array.getElem?_push]
  split
  · rfl
  · rfl

theorem addNode_forest (done : addNode kind ty p = .ok id q) (isPlain : kind.call? = none)
    (under : Forest p kind.children below) : Forest q [id] (below ++ [id]) := by
  obtain ⟨new, here⟩ := addNode_kindAt done
  apply Forest.withTop here isPlain (under.added (addNode_adds done))
  intro mem
  exact Nat.lt_irrefl _ (Nat.lt_of_lt_of_eq (under.valid id mem) new.symm)

end Edit

end CallLowering
