import CallLowering.Graph.Instruction
import CallLowering.Proofs.Lowered
import Mathlib.Logic.Relation

/-!
What building a procedure can do: declare a local of the user, append a statement, or add a node. A call comes
with a node of its own.
-/

namespace CallLowering

open Option

variable {p q proc : Procedure} {id : NodeId} {ty : ValueType} {seen : List NodeId} {var : LocalId}
  {kind : NodeKind} {name : String}

inductive BuildStep (p : Procedure) : Procedure → Prop where
  | declare (ty : ValueType) (exposed : Bool) : BuildStep p (p.addLocal { ty, exposed }).2
  | statement (id : NodeId) : BuildStep p (p.addStatement id)
  | node (kind : NodeKind) (ty : ValueType) (id : NodeId) (q : Procedure) (isPlain : kind.call? = none)
      (added : Edit.addNode kind ty p = .ok id q) : BuildStep p q
  | call (spec : CallSpec) (id : NodeId) (q : Procedure)
      (added : Edit.addNode (.call p.calls.size) spec.returnType (p.addCall spec.toCall).2 = .ok id q) :
      BuildStep p q

def Built : Procedure → Procedure → Prop := Relation.ReflTransGen BuildStep

namespace Built

open Edit

theorem refl (p : Procedure) : Built p p := Relation.ReflTransGen.refl

theorem trans {r : Procedure} (first : Built p q) (second : Built q r) : Built p r :=
  Relation.ReflTransGen.trans first second

theorem ofNode (added : addNode kind ty p = .ok id q) (isPlain : kind.call? = none) : Built p q :=
  .single (.node kind ty id q isPlain added)

theorem readLocal (done : Edit.readLocal var p = .ok id q) : Built p q := by
  simp only [Edit.readLocal, bind_ok_iff, ask_ok_iff] at done
  obtain ⟨data, _, ⟨_, rfl⟩, added⟩ := done
  exact ofNode added rfl

theorem binary {op : BinaryOp} {lhs rhs : NodeId} (done : Edit.binary op lhs rhs p = .ok id q) : Built p q := by
  simp only [Edit.binary, bind_ok_iff] at done
  obtain ⟨first, _, found, added⟩ := done
  obtain ⟨_, rfl⟩ := node_ok found
  exact ofNode added rfl

theorem comma {first second : NodeId} (done : Edit.comma first second p = .ok id q) : Built p q := by
  simp only [Edit.comma, bind_ok_iff] at done
  obtain ⟨result, _, found, added⟩ := done
  obtain ⟨_, rfl⟩ := node_ok found
  exact ofNode added rfl

theorem assign {value : NodeId} (done : Edit.assign var value p = .ok id q) : Built p q := by
  simp only [Edit.assign, bind_ok_iff] at done
  obtain ⟨store, _, stored, read, _, reads, joined⟩ := done
  exact ((ofNode stored rfl).trans (readLocal reads)).trans (comma joined)

theorem element {base index : LocalId} {len : NodeId} (done : Edit.element base index len ty p = .ok id q) :
    Built p q := by
  simp only [Edit.element, bind_ok_iff] at done
  obtain ⟨_, _, indexed, _, _, checked, _, _, started, _, _, positioned, _, _, four, _, _, scaled, _, _,
    added, _, _, loaded, joined⟩ := done
  have check := (readLocal indexed).trans (ofNode checked rfl)
  have address := ((((readLocal started).trans (readLocal positioned)).trans (ofNode four rfl)).trans
    (binary scaled)).trans (binary added)
  exact ((check.trans address).trans (ofNode loaded rfl)).trans (comma joined)

theorem fieldList {fields : List (NodeId × Nat)} (done : Edit.fieldList fields p = .ok id q) : Built p q := by
  simp only [Edit.fieldList, bind_ok_iff] at done
  obtain ⟨uses, m, listed, added⟩ := done
  have same : p = m := by
    refine mapM_ok_related (fun a b => a = b) (fun _ => rfl) (fun _ _ _ => Eq.trans) ?_ p uses listed
    intro field _ a use b asked
    simp only [bind_ok_iff, pure_ok_iff] at asked
    obtain ⟨_, _, found, _, rfl⟩ := asked
    exact (node_ok found).2.symm
  subst same
  exact ofNode added rfl

theorem instruction {instruction : Instruction} {made : Made}
    (done : instruction.run p = .ok made q) : Built p q := by
  cases instruction with
  | declare ty =>
    obtain ⟨_, added, _⟩ := map_ok_iff.mp done
    obtain ⟨_, rfl⟩ := addLocal_ok added
    exact .single (.declare ty false)
  | declareExposed ty =>
    obtain ⟨_, added, _⟩ := map_ok_iff.mp done
    obtain ⟨_, rfl⟩ := addLocal_ok added
    exact .single (.declare ty true)
  | statement id =>
    cases done
    exact .single (.statement id)
  | floatConst bits ty =>
    simp only [Instruction.run] at done
    split at done
    · obtain ⟨_, added, _⟩ := map_ok_iff.mp done
      exact ofNode added rfl
    · cases done
  | readLocal var =>
    obtain ⟨_, read, _⟩ := map_ok_iff.mp done
    exact readLocal read
  | assign var value =>
    obtain ⟨_, assigned, _⟩ := map_ok_iff.mp done
    exact assign assigned
  | binary op lhs rhs =>
    obtain ⟨_, computed, _⟩ := map_ok_iff.mp done
    exact binary computed
  | comma first second =>
    obtain ⟨_, joined, _⟩ := map_ok_iff.mp done
    exact comma joined
  | element base index len ty =>
    obtain ⟨_, loaded, _⟩ := map_ok_iff.mp done
    exact element loaded
  | fieldList fields =>
    obtain ⟨_, listed, _⟩ := map_ok_iff.mp done
    exact fieldList listed
  | call spec =>
    simp only [Instruction.run, bind_ok_iff] at done
    obtain ⟨id, m, counted, done⟩ := done
    cases counted
    obtain ⟨node, added, _⟩ := map_ok_iff.mp done
    exact .single (.call spec node q added)
  | _ =>
    obtain ⟨_, added, _⟩ := map_ok_iff.mp done
    exact ofNode added rfl

theorem body {instructions : List Instruction} {made : List Made}
    (done : Procedure.build name instructions = .ok (made, proc)) : Built { name } proc := by
  unfold Procedure.build at done
  cases ran : instructions.mapM Instruction.run { name } with
  | error fault _ =>
    simp only [ran] at done
    cases done
  | ok all last =>
    simp only [ran] at done
    cases done
    exact mapM_ok_related Built refl (fun _ _ _ => trans)
      (fun instruction _ p made q => Built.instruction) _ _ ran

end Built

theorem CallSpec.toCall_args (spec : CallSpec) {arg : Argument} (mem : arg ∈ spec.toCall.args.args) :
    ∃ value ty role, arg = Argument.ofValue value ty role := by
  simp only [CallSpec.toCall, CallSpec.arguments, List.mem_append, mem_toList,
    map_eq_some_iff, List.mem_map] at mem
  rcases mem with (((⟨_, _, rfl⟩ | ⟨_, _, rfl⟩) | ⟨_, _, rfl⟩) | ⟨_, _, rfl⟩) | ⟨_, _, rfl⟩ <;>
    exact ⟨_, _, _, rfl⟩

theorem CallSpec.toCall_fresh (spec : CallSpec) : spec.toCall.Fresh where
  stage := rfl
  raw := by
    intro arg mem
    obtain ⟨value, ty, role, rfl⟩ := spec.toCall_args mem
    exact ⟨rfl, rfl, rfl, rfl, rfl, rfl⟩

structure Procedure.AsBuilt (proc : Procedure) : Prop where
  userLocals : ∀ (var : LocalId) (data : LocalVar), proc.locals[var]? = some data → data.kind = .user
  calls : ∀ (call : CallId) (data : Call), proc.calls[call]? = some data → ∃ spec, data = CallSpec.toCall spec
  namedCalls : ∀ (id : NodeId) (call : CallId), proc.callAt id = some call → call < proc.calls.size
  ownCalls : ∀ (a b : NodeId) (call : CallId), proc.callAt a = some call → proc.callAt b = some call →
    a = b

theorem Edit.addNode_callAt (done : addNode kind ty p = .ok id q) (other : NodeId) :
    q.callAt other = if other = p.nodes.size then kind.call? else p.callAt other := by
  rw [Procedure.callAt, addNode_kinds done other]
  split
  · rfl
  · rfl

theorem BuildStep.asBuilt (step : BuildStep p q) (built : p.AsBuilt) : q.AsBuilt := by
  cases step with
  | declare ty exposed =>
    refine { built with userLocals := fun var data here => ?_ }
    simp only [Procedure.addLocal, Array.getElem?_push] at here
    split at here
    · cases here
      rfl
    · exact built.userLocals var data here
  | statement id => exact { built with }
  | node kind ty id q isPlain added =>
    have calls := (Edit.addNode_adds added).calls
    have callAt := Edit.addNode_callAt added
    have named : ∀ other call, q.callAt other = some call → p.callAt other = some call := by
      intro other call isCall
      rw [callAt other, isPlain] at isCall
      split at isCall
      · cases isCall
      · exact isCall
    obtain ⟨_, _, _, rfl⟩ := Edit.addNode_ok added
    exact { built with
      namedCalls := fun other call isCall => built.namedCalls other call (named other call isCall)
      ownCalls := fun a b call isA isB => built.ownCalls a b call (named a call isA) (named b call isB) }
  | call spec id q added =>
    have callAt := Edit.addNode_callAt added
    obtain ⟨_, _, _, rfl⟩ := Edit.addNode_ok added
    -- The new node is the only one that names the new call.
    have named : ∀ other call, p.callAt other = some call → call ≠ p.calls.size :=
      fun other call isCall => Nat.ne_of_lt (built.namedCalls other call isCall)
    have size : (p.calls.push spec.toCall).size = p.calls.size + 1 := Array.size_push _
    refine { userLocals := built.userLocals, calls := ?_, namedCalls := ?_, ownCalls := ?_ }
    · intro call data here
      have here : (p.calls.push spec.toCall)[call]? = some data := here
      rw [Array.getElem?_push] at here
      split at here
      · exact ⟨spec, (Option.some.inj here).symm⟩
      · exact built.calls call data here
    · intro other call isCall
      refine Nat.lt_of_lt_of_eq ?_ size.symm
      rw [callAt other] at isCall
      split at isCall
      · cases isCall
        exact Nat.lt_succ_self _
      · exact Nat.lt_succ_of_lt (built.namedCalls other call isCall)
    · intro a b call isA isB
      rw [callAt a] at isA
      rw [callAt b] at isB
      split at isA <;> split at isB
      · simp_all
      · cases isA
        exact absurd rfl (named b _ isB)
      · cases isB
        exact absurd rfl (named a _ isA)
      · exact built.ownCalls a b call isA isB

theorem Built.asBuilt (built : Built { name } proc) : proc.AsBuilt := by
  induction built with
  | refl =>
    refine ⟨fun _ _ here => ?_, fun _ _ here => ?_, fun _ _ here => ?_, fun _ _ _ here => ?_⟩
    · simp at here
    · simp at here
    · simp [Procedure.callAt, Procedure.kindAt] at here
    · simp [Procedure.callAt, Procedure.kindAt] at here
  | tail _ step ih => exact step.asBuilt ih

namespace Procedure

-- From the statements every node is met once, a call's cookie among what the call owns, and all of
-- them are there. The list has them in order.
structure Unshared (proc : Procedure) (visited : List NodeId) : Prop where
  spans : Spans proc.owned proc.statements visited
  once : visited.Nodup
  valid : ∀ id ∈ visited, id < proc.nodes.size

-- Looks for the nodes under some roots, that many levels deep.
def spanOf (links : Links) : Nat → List NodeId → Option (List NodeId)
  | 0, _ => none
  | depth + 1, roots => do
    let parts ← roots.mapM fun id => do pure ((← spanOf links depth (links id)) ++ [id])
    pure parts.flatten

def unshared? (proc : Procedure) : Option (List NodeId) := do
  let visited ← spanOf proc.owned (proc.nodes.size + 1) proc.statements
  if visited.Nodup ∧ ∀ id ∈ visited, id < proc.nodes.size then pure visited else none

theorem spanOf_spans {links : Links} {depth : Nat} (roots seen : List NodeId)
    (found : spanOf links depth roots = some seen) : Spans links roots seen := by
  induction depth generalizing roots seen with
  | zero => cases found
  | succ depth ih =>
    simp only [spanOf, bind_eq_bind, bind_eq_some_iff] at found
    obtain ⟨parts, each, same⟩ := found
    cases same
    refine (Spans.parts_iff links roots _).mpr ⟨parts, ?_, rfl⟩
    induction roots generalizing parts with
    | nil =>
      cases each
      exact .nil
    | cons root rest ihRest =>
      simp only [List.mapM_cons, bind_eq_bind, bind_eq_some_iff] at each
      obtain ⟨part, ⟨below, atBelow, atPart⟩, parts, others, joined⟩ := each
      cases joined
      cases atPart
      refine .cons (Spans.single_iff.mpr ⟨below, ih _ _ atBelow, rfl⟩) (ihRest _ others)

theorem unshared?_sound (proc : Procedure) (found : proc.unshared? = some seen) : proc.Unshared seen := by
  simp only [unshared?, bind_eq_bind, bind_eq_some_iff] at found
  obtain ⟨same, atSame, checked⟩ := found
  split at checked
  · rename_i holds
    cases checked
    exact ⟨spanOf_spans _ _ atSame, holds.1, holds.2⟩
  · cases checked

theorem AsBuilt.forest (built : proc.AsBuilt) (unshared : proc.Unshared seen) :
    Forest proc proc.statements seen :=
  { unshared with callsOnce := unshared.once.filterMap fun a b call isA isB => built.ownCalls a b call isA isB }

theorem AsBuilt.fresh (built : proc.AsBuilt) (seen : List NodeId) : Fresh proc seen := by
  intro call named
  obtain ⟨id, _, isCall⟩ := List.mem_filterMap.mp named
  have here := Array.getElem?_eq_getElem (built.namedCalls id call isCall)
  obtain ⟨spec, made⟩ := built.calls call _ here
  exact ⟨_, here, made ▸ spec.toCall_fresh⟩

end Procedure

-- What a procedure is before and after it is lowered can be told by running both.
theorem lowered_of_check (body : List Instruction) (settings : Settings) (before : Procedure → Prop)
    (after : Lowering.Outcome → Prop) [DecidablePred before] [DecidablePred after]
    (checked : (Procedure.build "caller" body).toOption.any (fun result : List Made × Procedure =>
      decide (before result.2) && (result.2.lower settings Transform.identity).toOption.any
        fun outcome : Lowering.Outcome => decide (after outcome)) = true) :
    ∃ made proc outcome, Procedure.build "caller" body = .ok (made, proc) ∧ before proc
      ∧ proc.lower settings Transform.identity = .ok outcome ∧ after outcome := by
  obtain ⟨⟨made, proc⟩, builds, checked⟩ := except_ok_of_any _ _ checked
  obtain ⟨holds, lowers⟩ := Bool.and_eq_true_iff.mp checked
  obtain ⟨outcome, done, ended⟩ := except_ok_of_any _ _ lowers
  exact ⟨made, proc, outcome, builds, of_decide_eq_true holds, done, of_decide_eq_true ended⟩

end CallLowering
