import CallLowering.Proofs.Descent
import CallLowering.Proofs.Lifecycle
import CallLowering.Proofs.VerifierExact

/-!
What a node refers to never leads back to it, whatever was done to the procedure: ranks descend along
references, and every action keeps them.
-/

namespace CallLowering

variable {known : CallId → Option Settings} {id : NodeId}

namespace Procedure

def Refers (p : Procedure) (id other : NodeId) : Prop :=
  ∃ kind ids, p.kindAt id = some kind ∧ p.references kind = .ok ids ∧ other ∈ ids

namespace Ranked

variable {p : Procedure} {rank : NodeId → ℚ} {level : CallId → ℚ}

theorem refers (ranked : p.Ranked rank level) {other : NodeId} (refers : p.Refers id other) :
    other < p.nodes.size ∧ rank other < rank id := by
  obtain ⟨kind, ids, here, listed, member⟩ := refers
  cases kind with
  | call call =>
    obtain ⟨data, atCall, same⟩ := except_bind_ok_iff.mp listed
    cases same
    obtain ⟨mem, less⟩ := ranked.mentioned call data (p.call_ok_iff.mp atCall) other
      (List.mem_append_left _ member)
    exact ⟨mem, less.trans_le (ranked.callers id call here).2⟩
  | _ =>
    cases listed
    exact ranked.children id _ here other member

theorem acyclic (ranked : p.Ranked rank level) (id : NodeId) : ¬ Relation.TransGen p.Refers id id := by
  intro cycle
  have descends : ∀ other, Relation.TransGen p.Refers id other → rank other < rank id := by
    intro other path
    induction path with
    | single refers => exact (ranked.refers refers).2
    | tail _ refers ih => exact (ranked.refers refers).2.trans ih
  exact lt_irrefl _ (descends id cycle)

variable (ranked : p.Ranked rank level)
  (lawful : ∀ (call : CallId) (data : Call), p.calls[call]? = some data → ∃ nodes, data.evaluated = .ok nodes)

include ranked lawful

theorem evaluated {node : Node} (here : p.nodes[id]? = some node) :
    ∃ inputs, p.evaluated node.kind = .ok inputs ∧ ∀ input ∈ inputs, p.Refers id input := by
  have atKind := p.kindAt_of here rfl
  have known : ∃ inputs ids, p.evaluated node.kind = .ok inputs ∧ p.references node.kind = .ok ids := by
    cases kind : node.kind with
    | call call =>
      rw [kind] at atKind
      have mem := (ranked.callers id call atKind).1
      have atCall : p.calls[call]? = some p.calls[call] := Array.getElem?_eq_getElem mem
      obtain ⟨nodes, done⟩ := lawful call _ atCall
      have found := p.call_ok_iff.mpr atCall
      exact ⟨nodes, _, except_bind_ok_iff.mpr ⟨_, found, done⟩,
        except_bind_ok_iff.mpr ⟨_, found, rfl⟩⟩
    | _ => exact ⟨_, _, rfl, rfl⟩
  obtain ⟨inputs, ids, evaluated, referred⟩ := known
  refine ⟨inputs, evaluated, fun input member => ⟨node.kind, ids, atKind, referred, ?_⟩⟩
  apply p.inputs_references here referred
  rwa [p.evaluated_inputs here evaluated]

theorem walkWithin_succeeds {depth : Nat} (id : NodeId) (mem : id < p.nodes.size)
    (deep : p.countBelow rank (rank id) < depth) : ∃ seen, p.walkWithin depth id = .ok seen := by
  induction depth generalizing id with
  | zero => exact absurd deep (Nat.not_lt_zero _)
  | succ depth ih =>
    have here : p.nodes[id]? = some p.nodes[id] := Array.getElem?_eq_getElem mem
    obtain ⟨inputs, evaluated, refers⟩ := ranked.evaluated lawful here
    have below : ∃ parts, inputs.mapM (p.walkWithin depth) = .ok parts := by
      refine mapM_succeeds fun input member => ?_
      obtain ⟨inputInside, less⟩ := ranked.refers (refers input member)
      have fewer : p.countBelow rank (rank input) < p.countBelow rank (rank id) :=
        countBelow_lt inputInside less
      exact ih input inputInside (by omega)
    obtain ⟨parts, walked⟩ := below
    refine ⟨parts.flatten ++ [id], ?_⟩
    simp only [walkWithin, except_bind_ok_iff]
    exact ⟨_, p.node_ok_iff.mpr here, inputs, evaluated, parts, walked, rfl⟩

end Ranked

end Procedure

theorem Call.Lawful.evaluates {finalizer : Option Settings} {data : Call} (law : data.Lawful finalizer) :
    ∃ nodes, data.evaluated = .ok nodes := by
  by_cases materialized : data.args.isMaterialized
  · have isLast : data.args.stage = .materialized := by simpa [ArgList.isMaterialized] using materialized
    have found : ∃ args, data.args.lateOrder.mapM data.args.arg = .ok args := by
      refine mapM_succeeds fun index member => ?_
      obtain ⟨arg, atIndex, _⟩ := ((law.ordered isLast).2 index).mp member
      exact ⟨arg, data.args.arg_ok_iff.mpr atIndex⟩
    obtain ⟨args, listed⟩ := found
    rw [Call.evaluated, if_pos materialized]
    exact ⟨_, except_bind_ok_iff.mpr ⟨args, listed, rfl⟩⟩
  · rw [Call.evaluated, if_neg materialized]
    exact ⟨_, rfl⟩

theorem Kept.walks {p : Procedure} (kept : Kept known p)
    (mem : id < p.nodes.size) : ∃ seen, p.walk id = .ok seen := by
  obtain ⟨rank, level, ranked, dated⟩ := kept
  have fewer : p.countBelow rank (rank id) < p.nodes.size := Procedure.countBelow_lt_size mem
  exact ranked.walkWithin_succeeds (fun call data here => (dated call data here).law.evaluates) id mem
    (Nat.lt_succ_of_lt fewer)

theorem references_stay_acyclic {name : String} {body : List Instruction} {made : List Made}
    {start : Procedure} (builds : Procedure.build name body = .ok (made, start))
    (cookies : start.CookiesFirst) (actions : List Action) {finalizers : CallId → Option Settings}
    {p : Procedure} (reached : Action.runAll actions (fun _ => none) start = .ok (finalizers, p)) :
    (∀ id, ¬ Relation.TransGen p.Refers id id)
      ∧ (∀ (settings : Settings) beyond depth, Lowering.depthLimit p ≤ depth →
        p.statements.forM (Lowering.descend settings beyond depth) { proc := p }
          = Lowering.lowerStatements settings Transform.identity { proc := p })
      ∧ ∀ id < p.nodes.size, (∃ visited, p.walk id = .ok visited) ∧ (∃ text, p.nodeText id = .ok text)
        ∧ ∀ (settings : Settings) (s : LoweringState), s.proc = p →
          ∀ beyond depth, Lowering.depthLimit p ≤ depth → Lowering.descend settings beyond depth id s
            = Lowering.lowerTree settings Transform.identity (Lowering.depthLimit p) id s := by
  have raises : ∀ action ∈ actions, action.RaisesOnly fun _ => True := fun _ _ _ _ _ _ _ _ => .inr trivial
  have kept : Kept finalizers p :=
    (Action.runAll_keeps raises ((Built.body builds).kept cookies)).1 finalizers p reached
  obtain ⟨rank, level, ranked, _⟩ := id kept
  refine ⟨ranked.acyclic, fun settings beyond depth deep => ?_, fun id inside => ?_⟩
  · obtain ⟨regime, rank, laws, orderly⟩ := kept.orderly settings
    exact Lowering.statements_settle laws (s := { proc := p }) orderly beyond depth deep p.statements
  · obtain ⟨visited, walked⟩ := kept.walks inside
    refine ⟨⟨visited, walked⟩, p.textWithin_succeeds walked, fun settings s same beyond depth deep => ?_⟩
    subst same
    obtain ⟨regime, rank, laws, orderly⟩ := kept.orderly settings
    exact Lowering.descend_settles laws orderly beyond depth deep id

-- A wrapper delegate that another call yields, invoked by two statements.
def sharedDelegate : List Instruction :=
  [.call { target := .method "make", returnType := .ptr },
    .call { target := .method "invoke", thisPointer := some (0, .ptr), wrapperOffset := some 8 },
    .statement 1, .statement 1]

-- Each finalization stores `this` once more; a reset takes nothing of that back, and the last is refused.
def storedTwice : List Action :=
  [.finalize { target := .ofTriple ⟨.x64, .linux⟩ } 1, .reset 1, .lower { target := .ofTriple ⟨.arm64, .linux⟩ },
    .reset 1]

theorem delegate_below_two_stores :
    ∃ made start finalizers p, Procedure.build "caller" sharedDelegate = .ok (made, start)
      ∧ Action.runAll storedTwice (fun _ => none) start = .ok (finalizers, p)
      ∧ p.nodes.size = 18 ∧ (∀ id, ¬ Relation.TransGen p.Refers id id)
      ∧ (∃ visited, p.walk 1 = .ok visited) ∧ (∃ text, p.nodeText 1 = .ok text)
      ∧ ∀ beyond depth, Lowering.depthLimit p ≤ depth →
        Lowering.descend { target := .ofTriple ⟨.x64, .windows⟩ } beyond depth 1 { proc := p }
          = Lowering.lowerTree { target := .ofTriple ⟨.x64, .windows⟩ } Transform.identity
            (Lowering.depthLimit p) 1 { proc := p } := by
  obtain ⟨⟨made, start⟩, builds, checked⟩ := except_ok_of_any (Procedure.build "caller" sharedDelegate)
    (fun built => decide built.2.CookiesFirst
      && (Action.runAll storedTwice (fun _ => none) built.2).toOption.any fun ended =>
        ended.2.nodes.size == 18)
    (by decide +kernel)
  simp only [Bool.and_eq_true, decide_eq_true_eq] at checked
  obtain ⟨cookies, runs⟩ := checked
  obtain ⟨⟨finalizers, p⟩, ran, size⟩ := except_ok_of_any _ _ runs
  have size : p.nodes.size = 18 := by simpa using size
  obtain ⟨acyclic, _, ends⟩ := references_stay_acyclic builds cookies storedTwice ran
  obtain ⟨walks, lists, settles⟩ := ends 1 (by omega)
  exact ⟨made, start, finalizers, p, builds, ran, size, acyclic, walks, lists, settles _ _ rfl⟩

end CallLowering
