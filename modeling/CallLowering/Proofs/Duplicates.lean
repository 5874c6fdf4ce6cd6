import CallLowering.Proofs.OrderPreservation
import CallLowering.Proofs.SimpleTrees

/-!
What cloning makes. The copy of a simple tree has its shape, kinds, types and impacts, and is made of new nodes
alone; a tree that is not simple gives no copy.
-/

namespace CallLowering

open Procedure

open List

variable {p : Procedure} {id lhs rhs : NodeId} {op : BinaryOp} {kind : NodeKind} {node : Node}
  {impact : Impact} {added more : Array Node} {made : List NodeId}

namespace Impact

theorem none_union (a : Impact) : none.union a = a := by
  simp [union, none, Effects.union, Exceptions.union]

theorem union_none (a : Impact) : a.union none = a := by
  simp [union, none, Effects.union, Exceptions.union]

end Impact

namespace Procedure

def grown (p : Procedure) (added : Array Node) : Procedure := { p with nodes := p.nodes ++ added }

theorem grown_empty (p : Procedure) : p.grown #[] = p := by
  simp [grown]

theorem addNode_grown (added : Array Node) (noStack : node.kind.isStackAlloc = false)
    (computed : (p.grown added).impactOf node.kind = .ok node.impact) : Edit.addNode node.kind node.ty (p.grown added)
      = .ok (p.nodes.size + added.size) (p.grown (added ++ #[node])) := by
  simp only [Edit.addNode, bind_ok_iff, ask_ok_iff, get_ok_iff, modify_ok_iff, pure_ok_iff]
  refine ⟨_, _, ⟨computed, rfl⟩, _, _, ⟨rfl, rfl⟩, (), _, rfl, ?_, ?_⟩
  · simp [grown]
  · simp [grown, pushNode, noteKind, noStack]

theorem grown_last (added : Array Node) :
    (p.grown (added ++ #[node])).nodes[p.nodes.size + added.size]? = some node := by
  have same : p.nodes.size + added.size = (p.nodes ++ added).size := Array.size_append.symm
  rw [grown, same, ← Array.append_assoc, ← Array.push_eq_append, Array.getElem?_push_size]

theorem grown_node (here : p.nodes[id]? = some node) : (p.grown added).nodes[id]? = some node := by
  obtain ⟨bound, rfl⟩ := Array.getElem?_eq_some_iff.mp here
  exact (Array.getElem?_append_left bound).trans (Array.getElem?_eq_getElem bound)

theorem impactOf_leaf (isLeaf : Edit.isSimpleLeaf kind = true) : (p.grown added).impactOf kind = p.impactOf kind := by
  cases kind with
  | intConst | floatConst | readLocal | readField | localAddr => rfl
  | _ => cases isLeaf

theorem calm_leaf (isLeaf : Edit.isSimpleLeaf kind = true) (computed : p.impactOf kind = .ok impact) : impact.Calm := by
  cases kind with
  | readLocal var | readField var offset =>
    obtain ⟨_, _, _, refers, summed, own, rfl⟩ := p.impactOf_ok_iff.mp computed
    cases refers
    cases summed
    obtain ⟨data, _, same⟩ := except_bind_ok_iff.mp own
    cases same
    exact ⟨rfl, rfl⟩
  | intConst | floatConst | localAddr =>
    cases computed
    exact ⟨rfl, rfl⟩
  | _ => cases isLeaf

theorem impactOf_arithmetic {left right : Node} (quiet : op.exceptions.isEmpty = true)
    (atLeft : p.nodes[lhs]? = some left) (atRight : p.nodes[rhs]? = some right) :
    p.impactOf (.binary op lhs rhs) = .ok (left.impact.union right.impact).closed := by
  have raisesNothing : op.exceptions = .none := by simpa [Exceptions.isEmpty] using quiet
  have summed : p.impactOfAll [lhs, rhs] = .ok (left.impact.union right.impact) := by
    simp only [impactOfAll, foldlM_cons, p.node_ok_iff.mpr atLeft, p.node_ok_iff.mpr atRight]
    exact congrArg (fun start : Impact => Except.ok (start.union right.impact)) left.impact.none_union
  have own : p.ownImpact (.binary op lhs rhs) = .ok .none := by
    simp only [ownImpact, p.node_ok_iff.mpr atRight, raisesNothing]
    exact congrArg (fun exceptions => Except.ok ({ exceptions } : Impact)) (ite_self _)
  exact p.impactOf_ok_iff.mpr ⟨_, _, _, rfl, summed, own, by rw [Impact.union_none]⟩

end Procedure

-- A copy in `q` of a simple tree of `p`, and its nodes in evaluation order.
inductive Mirrors (p q : Procedure) : NodeId → NodeId → List NodeId → Prop where
  | leaf {id copy : NodeId} {node : Node} (here : p.nodes[id]? = some node)
      (isLeaf : Edit.isSimpleLeaf node.kind = true) (calm : node.impact.Calm)
      (there : q.nodes[copy]? = some node) : Mirrors p q id copy [copy]
  | arithmetic {id copy lhs rhs lhsCopy rhsCopy : NodeId} {op : BinaryOp} {ty : ValueType} {impact : Impact}
      {left right : List NodeId} (here : p.nodes[id]? = some { kind := .binary op lhs rhs, ty, impact })
      (quiet : op.exceptions.isEmpty = true) (calm : impact.Calm)
      (there : q.nodes[copy]? = some { kind := .binary op lhsCopy rhsCopy, ty, impact })
      (onLeft : Mirrors p q lhs lhsCopy left) (onRight : Mirrors p q rhs rhsCopy right) :
      Mirrors p q id copy (left ++ right ++ [copy])

namespace Mirrors

variable {q : Procedure} {copy : NodeId}

theorem later (mirrors : Mirrors p (p.grown added) id copy made) (more : Array Node) :
    Mirrors p (p.grown (added ++ more)) id copy made := by
  have kept : ∀ {id : NodeId} {node : Node}, (p.grown added).nodes[id]? = some node →
      (p.grown (added ++ more)).nodes[id]? = some node := by
    intro id node here
    have same : p.grown (added ++ more) = (p.grown added).grown more := by simp [Procedure.grown]
    exact same ▸ grown_node here
  induction mirrors with
  | leaf here isLeaf calm there => exact .leaf here isLeaf calm (kept there)
  | arithmetic here quiet calm there _ _ left right => exact .arithmetic here quiet calm (kept there) left right

theorem root (mirrors : Mirrors p q id copy made) : ∃ node kind, p.nodes[id]? = some node
    ∧ q.nodes[copy]? = some { node with kind } ∧ node.impact.Calm := by
  cases mirrors with
  | leaf here _ calm there => exact ⟨_, _, here, there, calm⟩
  | arithmetic here _ calm there => exact ⟨_, _, here, there, calm⟩

-- By induction over the copy; a walk goes as deep as there are nodes in it at the most.
theorem walked (mirrors : Mirrors p q id copy made) (depth : Nat) (enough : made.length ≤ depth) :
    q.walkWithin depth copy = .ok made := by
  induction mirrors generalizing depth with
  | @leaf _ _ node _ isLeaf _ there =>
    obtain ⟨depth, rfl⟩ : ∃ less, depth = less + 1 := ⟨depth - 1, by simp at enough; omega⟩
    simp only [Procedure.walkWithin, except_bind_ok_iff]
    refine ⟨node, q.node_ok_iff.mpr there, [], ?_, [], rfl, rfl⟩
    cases kindEq : node.kind with
    | intConst | floatConst | readLocal | readField | localAddr => rfl
    | _ => simp [kindEq, Edit.isSimpleLeaf] at isLeaf
  | @arithmetic _ copy _ _ _ _ _ _ _ a b _ _ _ there _ _ left right =>
    simp only [length_append, length_singleton] at enough
    obtain ⟨depth, rfl⟩ : ∃ less, depth = less + 1 := ⟨depth - 1, by omega⟩
    simp only [Procedure.walkWithin, except_bind_ok_iff]
    refine ⟨_, q.node_ok_iff.mpr there, _, rfl, [a, b], ?_, ?_⟩
    · exact mapM_except_ok_iff.mpr (.cons (left depth (by omega)) (.cons (right depth (by omega)) .nil))
    · exact congrArg (fun below : List NodeId => Except.ok (below ++ [copy])) (by simp)

end Mirrors

namespace Edit

theorem cloneWithin_mirrors {depth : Nat} {seen : List NodeId}
    (walked : p.walkWithin depth id = .ok seen) (exact_ : ∀ other ∈ seen, p.Exact other) (added : Array Node) :
    ∃ copy more, Cloned depth id (p.grown added) copy (p.grown (added ++ more))
      ∧ (copy.isSome = true ↔ p.Simple id)
      ∧ ∀ made, copy = some made → Mirrors p (p.grown (added ++ more)) id made
        (range' (p.nodes.size + added.size) more.size) := by
  induction depth generalizing id seen added with
  | zero => cases walked
  | succ depth ih =>
    simp only [Procedure.walkWithin, except_bind_ok_iff] at walked
    obtain ⟨node, found, inputs, atInputs, below, walks, same⟩ := walked
    cases same
    have here := p.node_ok_iff.mp found
    have there : (p.grown added).nodes[id]? = some node := grown_node here
    have atKind : p.kindAt id = some node.kind := p.kindAt_of here rfl
    obtain ⟨_, atSame, computed⟩ := exact_ id (by simp)
    cases here.symm.trans atSame
    by_cases isBinary : ∃ op lhs rhs, node.kind = .binary op lhs rhs
    · obtain ⟨op, lhs, rhs, kindEq⟩ := isBinary
      rw [kindEq] at atKind computed atInputs
      cases atInputs
      obtain ⟨a, _, onLeft, rest, rfl⟩ := forall₂_cons_left_iff.mp (mapM_except_ok_iff.mp walks)
      obtain ⟨b, _, onRight, rest, rfl⟩ := forall₂_cons_left_iff.mp rest
      cases rest
      have simple := simple_arithmetic_iff atKind
      cases quiet : op.exceptions.isEmpty with
      | false =>
        refine ⟨none, #[], by simpa using Cloned.raising there kindEq quiet, ?_, by simp⟩
        simp [simple, quiet]
      | true =>
        obtain ⟨leftCopy, more, left, leftSimple, leftMirrors⟩ :=
          ih onLeft (fun other mem => exact_ other (by simp [mem])) added
        cases leftCopy with
        | none => exact ⟨none, more, .noLeft there kindEq quiet left, by simp [simple, ← leftSimple], by simp⟩
        | some leftCopy =>
          obtain ⟨rightCopy, last, right, rightSimple, rightMirrors⟩ :=
            ih onRight (fun other mem => exact_ other (by simp [mem])) (added ++ more)
          rw [Array.append_assoc] at right rightMirrors
          cases rightCopy with
          | none =>
            exact ⟨none, more ++ last, .noRight there kindEq quiet left right, by simp [simple, ← rightSimple], by simp⟩
          | some rightCopy =>
            have onLeft := (leftMirrors leftCopy rfl).later last
            have onRight := rightMirrors rightCopy rfl
            rw [Array.append_assoc] at onLeft
            obtain ⟨first, firstKind, atLhs, atLeft, leftCalm⟩ := onLeft.root
            obtain ⟨second, secondKind, atRhs, atRight, rightCalm⟩ := onRight.root
            have sameImpact := Except.ok.inj (computed.symm.trans (impactOf_arithmetic quiet atLhs atRhs))
            let twin : Node := { node with kind := .binary op leftCopy rightCopy }
            have copied := @Procedure.addNode_grown p twin (added ++ (more ++ last)) rfl
              ((impactOf_arithmetic quiet atLeft atRight).trans (congrArg _ sameImpact.symm))
            have atCopy := @Procedure.grown_last p twin (added ++ (more ++ last))
            have onLeft := onLeft.later #[twin]
            have onRight := onRight.later #[twin]
            rw [Array.append_assoc] at copied atCopy onLeft onRight
            refine ⟨_, more ++ last ++ #[twin], .arithmetic there kindEq quiet left right copied, ?_, ?_⟩
            · simp [simple, quiet, ← leftSimple, ← rightSimple]
            · rintro _ ⟨⟩
              have source : node = { kind := .binary op lhs rhs, ty := node.ty, impact := node.impact } := by
                rw [← kindEq]
              have calm : node.impact.Calm := sameImpact ▸ (leftCalm.union rightCalm).closed
              have parts : range' (p.nodes.size + added.size) (more ++ last ++ #[twin]).size
                  = range' (p.nodes.size + added.size) more.size
                    ++ range' (p.nodes.size + (added ++ more).size) last.size
                    ++ [p.nodes.size + (added ++ (more ++ last)).size] := by
                simp only [Array.size_append, size_toArray, length_singleton, ← Nat.add_assoc,
                  range'_append_1, range'_1_concat]
              rw [parts]
              exact .arithmetic (here.trans (congrArg some source)) quiet calm atCopy onLeft onRight
    · have noBinary : ∀ op lhs rhs, node.kind ≠ .binary op lhs rhs := fun op lhs rhs same =>
        isBinary ⟨op, lhs, rhs, same⟩
      cases isLeaf : isSimpleLeaf node.kind with
      | false =>
        refine ⟨none, #[], by simpa using Cloned.other there noBinary isLeaf, ?_, by simp⟩
        rw [simple_other_iff atKind noBinary, isLeaf]
        simp
      | true =>
        have noStack : node.kind.isStackAlloc = false := by
          cases kindEq : node.kind with
          | stackAlloc => simp [kindEq, isSimpleLeaf] at isLeaf
          | _ => rfl
        have copied := addNode_grown added noStack ((impactOf_leaf isLeaf).trans computed)
        refine ⟨_, #[node], .leaf there isLeaf copied, ?_, ?_⟩
        · rw [simple_other_iff atKind noBinary, isLeaf]
          simp
        · rintro _ ⟨⟩
          exact .leaf here isLeaf (calm_leaf isLeaf computed) (grown_last added)

end Edit

theorem simple_trees_duplicated (p : Procedure) (id : NodeId) (exact_ : p.ExactUnder id) :
    ∃ copy added, Edit.cloneSimple id p = .ok copy (p.grown added) ∧ (copy.isSome = true ↔ p.Simple id)
      ∧ ∀ made, copy = some made →
        Mirrors p (p.grown added) id made (range' p.nodes.size added.size)
          ∧ (p.grown added).walk made = .ok (range' p.nodes.size added.size)
          ∧ ∃ node, (p.grown added).nodes[made]? = some node ∧ node.effects.isSideEffect = false := by
  obtain ⟨visited, walked, exact_⟩ := exact_
  obtain ⟨copy, added, cloned, simple, mirrors⟩ := Edit.cloneWithin_mirrors walked exact_ #[]
  rw [Procedure.grown_empty, Array.empty_append] at cloned
  simp only [Array.empty_append, Array.size_empty, Nat.add_zero] at mirrors
  refine ⟨copy, added, Edit.cloneSimple_ok_iff.mpr cloned, simple, fun made isCopy => ?_⟩
  have mirrors := mirrors made isCopy
  obtain ⟨node, kind, _, atCopy, calm⟩ := mirrors.root
  refine ⟨mirrors, mirrors.walked _ ?_, _, atCopy, calm.1⟩
  simp only [length_range', Procedure.grown, Array.size_append]
  omega

-- An element of a local array, by its address.
def elementAddress : Procedure :=
  endOf ([.declare .i64, .localAddr 0, .intConst 8 .i64, .readLocal 0, .binary .mul 1 2,
    .binary .add 0 3].mapM Instruction.run { name := "caller" })

theorem element_address_copied : ∃ made q, Edit.cloneSimple 4 elementAddress = .ok (some made) q
    ∧ Mirrors elementAddress q 4 made [5, 6, 7, 8, 9] ∧ q.walk made = .ok [5, 6, 7, 8, 9] := by
  obtain ⟨copy, added, cloned, _, mirrors⟩ := simple_trees_duplicated elementAddress 4 (by decide +kernel)
  have ran := ok_of_answerOf (Edit.cloneSimple 4 elementAddress) (some 9) (by decide +kernel)
  obtain ⟨rfl, same⟩ := EStateM.Result.ok.inj (cloned.symm.trans ran)
  have total : (elementAddress.grown added).nodes.size = 10 := same ▸ by decide +kernel
  have old : elementAddress.nodes.size = 5 := by decide +kernel
  have size : added.size = 5 := by
    simp only [Procedure.grown, Array.size_append, old] at total
    omega
  obtain ⟨mirrored, walked, _⟩ := mirrors 9 rfl
  rw [old, size] at mirrored walked
  exact ⟨9, _, cloned, mirrored, walked⟩

end CallLowering
