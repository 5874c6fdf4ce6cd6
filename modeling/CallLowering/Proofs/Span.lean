import CallLowering.Graph.Traversal
import CallLowering.Proofs.Growth
import Mathlib.Data.List.Nodup
import Mathlib.Data.List.Infix

/-! What lies under some roots. -/

namespace CallLowering

open List

variable {id : NodeId} {seen roots nodes part : List NodeId} {node : Node} {a : List NodeId} {b : List NodeId}

-- The nodes that each node evaluates before itself, in order.
abbrev Links := NodeId → List NodeId

inductive Spans (links : Links) : List NodeId → List NodeId → Prop where
  | nil : Spans links [] []
  | cons (id : NodeId) (rest below after : List NodeId) (under : Spans links (links id) below)
      (behind : Spans links rest after) : Spans links (id :: rest) (below ++ id :: after)

namespace Spans

theorem unique {links : Links} (left : Spans links roots a) (right : Spans links roots b) : a = b := by
  induction left generalizing b with
  | nil =>
    cases right
    rfl
  | cons id rest below after _ _ ihUnder ihBehind =>
    cases right with
    | cons _ _ below' after' under behind => rw [ihUnder under, ihBehind behind]

theorem single_iff {links : Links} :
    Spans links [id] seen ↔ ∃ below, Spans links (links id) below ∧ seen = below ++ [id] := by
  constructor
  · intro spans
    cases spans with
    | cons _ _ below after under behind =>
      cases behind
      exact ⟨below, under, rfl⟩
  · rintro ⟨below, under, rfl⟩
    exact .cons id [] below [] under .nil

theorem cons_iff {links : Links} {rest : List NodeId} :
    Spans links (id :: rest) seen
      ↔ ∃ first after, Spans links [id] first ∧ Spans links rest after ∧ seen = first ++ after := by
  constructor
  · intro spans
    cases spans with
    | cons _ _ below after under behind =>
      exact ⟨below ++ [id], after, .cons id [] below [] under .nil, behind, by simp⟩
  · rintro ⟨first, after, here, behind, rfl⟩
    obtain ⟨below, under, rfl⟩ := single_iff.mp here
    simpa using Spans.cons id rest below after under behind

variable {roots' : List NodeId}

theorem append {links : Links} (left : Spans links roots a)
    (right : Spans links roots' b) : Spans links (roots ++ roots') (a ++ b) := by
  induction left with
  | nil => exact right
  | cons id rest below after under _ _ ihBehind =>
    simpa using Spans.cons id (rest ++ roots') below (after ++ b) under ihBehind

theorem append_iff {links : Links} (seen : List NodeId) :
    Spans links (roots ++ roots') seen
      ↔ ∃ a b, Spans links roots a ∧ Spans links roots' b ∧ seen = a ++ b := by
  constructor
  · intro spans
    induction roots generalizing seen with
    | nil => exact ⟨[], seen, .nil, spans, rfl⟩
    | cons id rest ih =>
      obtain ⟨first, after, here, behind, rfl⟩ := cons_iff.mp spans
      obtain ⟨a, b, left, right, rfl⟩ := ih after behind
      exact ⟨first ++ a, b, cons_iff.mpr ⟨first, a, here, left, rfl⟩, right,
        by simp⟩
  · rintro ⟨a, b, left, right, rfl⟩
    exact append left right

theorem parts_iff (links : Links) (roots seen : List NodeId) :
    Spans links roots seen
      ↔ ∃ parts, List.Forall₂ (fun root part => Spans links [root] part) roots parts
        ∧ seen = parts.flatten := by
  constructor
  · intro spans
    induction roots generalizing seen with
    | nil =>
      cases spans
      exact ⟨[], .nil, rfl⟩
    | cons id rest ih =>
      obtain ⟨first, after, here, behind, rfl⟩ := cons_iff.mp spans
      obtain ⟨parts, each, rfl⟩ := ih after behind
      exact ⟨first :: parts, .cons here each, rfl⟩
  · rintro ⟨parts, each, rfl⟩
    induction each with
    | nil => exact .nil
    | cons here _ ih => exact cons_iff.mpr ⟨_, _, here, ih, rfl⟩

section Spanning

variable {links : Links} (spans : Spans links roots seen)

include spans

theorem frame {other : Links} (same : ∀ id ∈ seen, other id = links id) : Spans other roots seen := by
  induction spans with
  | nil => exact .nil
  | cons id rest below after _ _ ihUnder ihBehind =>
    have here : other id = links id := same id (by simp)
    have mem := ihUnder fun other member => same other (by simp [member])
    exact .cons id rest below after (here ▸ mem)
      (ihBehind fun other member => same other (by simp [member]))

theorem root_mem (root : id ∈ roots) : id ∈ seen := by
  induction spans with
  | nil => simp at root
  | cons first rest below after _ _ _ ihBehind =>
    rcases mem_cons.mp root with rfl | later
    · simp
    · simp [ihBehind later]

theorem each {holds : NodeId → Prop}
    (step : ∀ id ∈ seen, (∀ child ∈ links id, holds child) → holds id) : ∀ id ∈ seen, holds id := by
  induction spans with
  | nil => simp
  | cons first rest below after under _ ihUnder ihBehind =>
    have inBelow := ihUnder fun id met => step id (by simp [met])
    intro id met
    rcases mem_append.mp met with early | late
    · exact inBelow id early
    · rcases mem_cons.mp late with rfl | later
      · exact step id met fun child linked => inBelow child (root_mem under linked)
      · exact ihBehind (fun id met => step id (by simp [met])) id later

theorem member (met : id ∈ seen) : ∃ part, Spans links [id] part ∧ part <:+: seen := by
  induction spans with
  | nil => simp at met
  | cons first rest below after under _ ihUnder ihBehind =>
    have inBelow : below <:+: below ++ first :: after := (prefix_append _ _).isInfix
    have inAfter : after <:+: below ++ first :: after := by
      rw [append_cons]
      exact (suffix_append _ _).isInfix
    rcases mem_append.mp met with early | late
    · obtain ⟨part, spanned, mem⟩ := ihUnder early
      exact ⟨part, spanned, mem.trans inBelow⟩
    · rcases mem_cons.mp late with rfl | later
      · exact ⟨below ++ [id], single_iff.mpr ⟨below, under, rfl⟩, [], after, by simp⟩
      · obtain ⟨part, spanned, mem⟩ := ihBehind later
        exact ⟨part, spanned, mem.trans inAfter⟩

theorem part_subset {top : NodeId} (met : top ∈ seen)
    (under : Spans links [top] part) (id : NodeId) (inPart : id ∈ part) : id ∈ seen := by
  obtain ⟨same, spanned, mem⟩ := member spans met
  rw [unique under spanned] at inPart
  exact mem.subset inPart

theorem root_part {root : NodeId} (isRoot : root ∈ roots) (under : Spans links [root] part) (id : NodeId)
    (met : id ∈ part) : id ∈ seen :=
  part_subset spans (root_mem spans isRoot) under id met

theorem closed {child : NodeId} (met : id ∈ seen) (linked : child ∈ links id) : child ∈ seen := by
  obtain ⟨part, here, mem⟩ := member spans met
  obtain ⟨below, under, rfl⟩ := single_iff.mp here
  exact mem.subset (mem_append_left _ (root_mem under linked))

end Spanning

end Spans

namespace Call

def lateNodes (call : Call) : List NodeId :=
  if call.args.isMaterialized then
    call.args.lateOrder.filterMap fun index => call.args.args[index]?.bind Argument.late
  else call.args.args.filterMap Argument.late

def inputs (call : Call) : List NodeId :=
  call.args.args.filterMap Argument.early ++ call.lateNodes ++ call.target.node?.toList

-- The cookie that an indirect call is going to pass beside its target.
def ownCookie (call : Call) : List NodeId :=
  if call.target.node?.isSome then call.cookie.toList else []

-- The inputs and the cookie: everything that is the call's own to evaluate.
def owned (call : Call) : List NodeId :=
  call.args.args.filterMap Argument.early ++ call.lateNodes ++ call.ownCookie
    ++ call.target.node?.toList

theorem filterMap_late {list : ArgList} {order : List Nat} {args : List Argument}
    (found : order.mapM list.arg = .ok args) :
    args.filterMap Argument.late = order.filterMap fun index => list.args[index]?.bind Argument.late := by
  have each := mapM_except_ok_iff.mp found
  clear found
  induction each with
  | nil => rfl
  | cons here _ ih =>
    simp only [filterMap_cons, list.arg_ok_iff.mp here, Option.bind_some, ih]

theorem evaluated_ok (call : Call) (done : call.evaluated = .ok nodes) : nodes = call.inputs := by
  unfold evaluated at done
  unfold inputs lateNodes
  split at done
  · rename_i settled
    rw [if_pos settled]
    obtain ⟨late, found, same⟩ := except_bind_ok_iff.mp done
    cases same
    rw [filterMap_late found]
  · rename_i unsettled
    rw [if_neg unsettled]
    cases done
    rfl

end Call

namespace Procedure

def links (proc : Procedure) (ofCall : Call → List NodeId) : Links := fun id =>
  match proc.nodes[id]? with
  | none => []
  | some node =>
    match node.kind with
    | .call call => (proc.calls[call]?.map ofCall).getD []
    | kind => kind.children

def inputs (proc : Procedure) : Links := proc.links Call.inputs

def owned (proc : Procedure) : Links := proc.links Call.owned

variable (proc : Procedure)

include proc

theorem links_of_plain (ofCall : Call → List NodeId) (here : proc.nodes[id]? = some node)
    (plain : node.kind.call? = none) : proc.links ofCall id = node.kind.children := by
  unfold links
  rw [here]
  cases kindEq : node.kind with
  | call call => simp [kindEq, NodeKind.call?] at plain
  | _ => simp only [kindEq]

theorem references_of_plain {kind : NodeKind} (plain : kind.call? = none) :
    proc.references kind = .ok kind.children := by
  cases kind with
  | call call => cases plain
  | _ => rfl

theorem inputs_of_references {ids : List NodeId} (here : proc.nodes[id]? = some node)
    (plain : node.kind.call? = none) (refers : proc.references node.kind = .ok ids) : proc.inputs id = ids := by
  cases (proc.references_of_plain plain).symm.trans refers
  exact proc.links_of_plain Call.inputs here plain

theorem evaluated_inputs (here : proc.nodes[id]? = some node) (done : proc.evaluated node.kind = .ok nodes) :
    proc.inputs id = nodes := by
  unfold inputs links
  rw [here]
  cases kindEq : node.kind with
  | call call =>
    simp only [kindEq, evaluated, except_bind_ok_iff] at done
    obtain ⟨data, found, done⟩ := done
    simp only [kindEq, proc.call_ok_iff.mp found, data.evaluated_ok done]
    rfl
  | _ =>
    simp only [kindEq, evaluated] at done
    cases done
    simp only [kindEq]

theorem walkWithin_spans {depth : Nat}
    (done : proc.walkWithin depth id = .ok seen) : Spans proc.inputs [id] seen := by
  induction depth generalizing id seen with
  | zero => cases done
  | succ depth ih =>
    simp only [walkWithin, except_bind_ok_iff] at done
    obtain ⟨node, found, inputs, atInputs, below, walked, same⟩ := done
    cases same
    have here := proc.node_ok_iff.mp found
    refine Spans.single_iff.mpr ⟨below.flatten, ?_, rfl⟩
    rw [proc.evaluated_inputs here atInputs]
    have each := mapM_except_ok_iff.mp walked
    exact (Spans.parts_iff _ _ _).mpr ⟨below, each.imp fun _ _ => ih, rfl⟩

theorem walk_spans (done : proc.walk id = .ok seen) : Spans proc.inputs [id] seen :=
  proc.walkWithin_spans done

theorem spans_mapM_walk (spans : Spans proc.inputs roots seen)
    (valid : ∀ id ∈ seen, ∃ node, proc.nodes[id]? = some node
      ∧ proc.evaluated node.kind = .ok (proc.inputs id)) (depth : Nat) (enough : seen.length ≤ depth) :
    ∃ parts, roots.mapM (proc.walkWithin depth) = .ok parts ∧ seen = parts.flatten := by
  induction spans generalizing depth with
  | nil => exact ⟨[], rfl, rfl⟩
  | cons id rest below after _ _ ihUnder ihBehind =>
    simp only [length_append, length_cons] at enough
    obtain ⟨depth, rfl⟩ : ∃ less, depth = less + 1 := ⟨depth - 1, by omega⟩
    obtain ⟨inner, atInner, rfl⟩ := ihUnder (fun other mem => valid other (by simp [mem]))
      depth (by omega)
    obtain ⟨outer, atOuter, rfl⟩ := ihBehind (fun other mem => valid other (by simp [mem]))
      (depth + 1) (by omega)
    obtain ⟨node, here, evaluated⟩ := valid id (by simp)
    refine ⟨(inner.flatten ++ [id]) :: outer, ?_, by simp⟩
    have walked : proc.walkWithin (depth + 1) id = .ok (inner.flatten ++ [id]) := by
      simp only [walkWithin, except_bind_ok_iff]
      exact ⟨node, proc.node_ok_iff.mpr here, _, evaluated, inner, atInner, rfl⟩
    simp only [mapM_cons, except_bind_ok_iff]
    exact ⟨_, walked, outer, atOuter, rfl⟩

end Procedure

end CallLowering
