import CallLowering.Proofs.Growth

/-!
Nodes and temps that are new at the end of a way, whatever was added before and behind them.
-/

namespace CallLowering

variable {id : NodeId} {kind : NodeKind}

namespace Materialize

open Edit

variable {p q : Procedure} {temp : LocalId} {ty : ValueType}

structure NewNode (p q : Procedure) (id : NodeId) (kind : NodeKind) (ty : ValueType) : Prop where
  isNew : p.nodes.size ≤ id
  here : ∃ impact, q.nodes[id]? = some { kind, ty, impact }

structure NewTemp (p q : Procedure) (temp : LocalId) (ty : ValueType) : Prop where
  isNew : p.locals.size ≤ temp
  here : q.locals[temp]? = some { ty, kind := .argTemp }

-- The way from `m` to `m'` is a part of the way from `p` to `q`, and what is new on it stays to the end.
structure Within (p m m' q : Procedure) : Prop where
  nodes : p.nodes.size ≤ m.nodes.size
  locals : p.locals.size ≤ m.locals.size
  nodeKept : ∀ (id : NodeId) (node : Node), m.nodes.size ≤ id → m'.nodes[id]? = some node →
    q.nodes[id]? = some node
  varKept : ∀ (id : LocalId) (var : LocalVar), m'.locals[id]? = some var → q.locals[id]? = some var

section Ways

variable {nodes : NodeId → Prop} {calls : CallId → Prop} {m m' : Procedure}

theorem Within.between {nodes' : NodeId → Prop} {calls' : CallId → Prop} (front : Extends nodes calls p m)
    (back : Extends nodes' calls' m' q) (old : ∀ id, nodes' id → id < m.nodes.size) : Within p m m' q where
  nodes := front.size_le
  locals := front.locals_le
  nodeKept := fun id _ isNew here => back.node here fun changed =>
    Nat.not_lt_of_le isNew (old id changed)
  varKept := back.varKept

theorem Within.last (front : Extends nodes calls p m) : Within p m q q :=
  .between front (Extends.refl : Adds q q) fun _ => False.elim

theorem Within.first (back : Extends nodes calls m q) (old : ∀ id, nodes id → id < p.nodes.size) :
    Within p p m q :=
  .between (Extends.refl : Adds p p) back old

theorem Within.adds (front : Adds p m) (back : Adds m' q) : Within p m m' q :=
  .between front back fun _ => False.elim

variable (way : Within p m m' q)

include way

theorem NewNode.within (made : NewNode m m' id kind ty) : NewNode p q id kind ty := by
  obtain ⟨impact, here⟩ := made.here
  exact ⟨Nat.le_trans way.nodes made.isNew, impact, way.nodeKept id _ made.isNew here⟩

theorem NewTemp.within (made : NewTemp m m' temp ty) : NewTemp p q temp ty :=
  ⟨Nat.le_trans way.locals made.isNew, way.varKept _ _ made.here⟩

end Ways

theorem newNode (done : addNode kind ty p = .ok id q) : NewNode p q id kind ty := by
  obtain ⟨impact, _, rfl, rfl⟩ := addNode_ok done
  exact ⟨Nat.le_refl _, impact, Array.getElem?_push_size⟩

theorem NewNode.lt (made : NewNode p q id kind ty) : id < q.nodes.size := by
  obtain ⟨impact, here⟩ := made.here
  exact lt_size here

theorem newTemp (done : Edit.addLocal { ty, kind := .argTemp } p = .ok temp q) : NewTemp p q temp ty := by
  obtain ⟨rfl, rfl⟩ := addLocal_ok done
  exact ⟨Nat.le_refl _, Array.getElem?_push_size⟩

theorem NewTemp.lt (made : NewTemp p q temp ty) : temp < q.locals.size :=
  (lt_size made.here)

end Materialize

theorem mapM_adds {ε α β γ : Type} {f : α → EStateM ε Procedure β} (answer : γ → β)
    (fact : Procedure → Procedure → α → γ → Prop) (apart : γ → γ → Prop) {start : Procedure} {items : List α}
    (step : ∀ item ∈ items, ∀ m b n, Adds start m → f item m = .ok b n →
      Adds m n ∧ ∃ c, answer c = b ∧ fact m n item c)
    (widen : ∀ p m m' q item c, Adds p m → fact m m' item c → Adds m' q → fact p q item c)
    (separate : ∀ p m q item c other d, fact p m item c → fact m q other d → apart c d)
    {results : List β} {p q : Procedure} (reached : Adds start p) (done : items.mapM f p = .ok results q) :
    Adds p q ∧ ∃ made, made.map answer = results ∧ List.Forall₂ (fact p q) items made ∧ made.Pairwise apart := by
  induction items generalizing p results with
  | nil =>
    obtain ⟨rfl, rfl⟩ := pure_ok_iff.mp done
    exact ⟨Extends.refl, [], rfl, .nil, .nil⟩
  | cons item rest ih =>
    simp only [List.mapM_cons, bind_ok_iff, pure_ok_iff] at done
    obtain ⟨b, m, first, others, _, later, rfl, rfl⟩ := done
    obtain ⟨now, behind⟩ := List.forall_mem_cons.mp step
    obtain ⟨front, c, rfl, here⟩ := now p b m reached first
    obtain ⟨back, made, rfl, each, among⟩ := ih behind (reached.trans front) later
    refine ⟨front.trans back, c :: made, rfl, .cons ?_ (each.imp fun _ _ one => ?_), .cons (fun d mem => ?_) among⟩
    · exact widen _ _ _ _ _ _ Extends.refl here back
    · exact widen _ _ _ _ _ _ front one Extends.refl
    · obtain ⟨other, _, one⟩ := forall₂_partner each.flip mem
      exact separate _ _ _ _ _ _ _ here one

end CallLowering
