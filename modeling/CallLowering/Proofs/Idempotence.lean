import CallLowering.Proofs.LoweredProcedures

/-!
Lowering what is lowered. A visit of finished trees ends well and changes nothing: their calls are
settled, so only late nodes are seen again, and their impacts are up to date.
-/

namespace CallLowering

open List

variable {proc : Procedure} {data : Call} {id : CallId} {arg : Argument} {seen : List NodeId} {index : Nat}
  {lower lower' : NodeId → Step Unit} {roots : List NodeId}

namespace Lowering

def Idle (proc : Procedure) (step step' : Step Unit) : Prop :=
  ∀ s, s.proc = proc → ∃ t, step s = .ok () t ∧ step' s = .ok () t ∧ t.proc = proc

namespace Idle

variable {proc : Procedure} {step step' : Step Unit}

theorem skip (proc : Procedure) : Idle proc (pure ()) (pure ()) :=
  fun s same => ⟨s, rfl, rfl, same⟩

theorem bind {rest rest' : Unit → Step Unit} (first : Idle proc step step')
    (second : Idle proc (rest ()) (rest' ())) : Idle proc (step >>= rest) (step' >>= rest') := by
  intro s same
  obtain ⟨m, ran, ran', kept⟩ := first s same
  obtain ⟨t, goes, goes', last⟩ := second m kept
  exact ⟨t, bind_ok_iff.mpr ⟨(), m, ran, goes⟩,
    bind_ok_iff.mpr ⟨(), m, ran', goes'⟩, last⟩

theorem ask {α : Type} {question : Edit α} {rest rest' : α → Step Unit} {answer : α}
    (answered : question proc = .ok answer proc) (second : Idle proc (rest answer) (rest' answer)) :
    Idle proc ((liftM question : Step α) >>= rest) ((liftM question : Step α) >>= rest') := by
  intro s same
  obtain ⟨t, goes, goes', last⟩ := second s same
  have asked : (liftM question : Step α) s = .ok answer s :=
    lift_step_edit_ok_iff.mpr ⟨proc, same ▸ answered, by rw [← same]⟩
  exact ⟨t, bind_ok_iff.mpr ⟨answer, s, asked, goes⟩,
    bind_ok_iff.mpr ⟨answer, s, asked, goes'⟩, last⟩

theorem edit {edit : Edit Unit} (unchanged : edit proc = .ok () proc) : Idle proc (liftM edit) (liftM edit) := by
  intro s same
  have ran : (liftM edit : Step Unit) s = .ok () s :=
    lift_step_edit_ok_iff.mpr ⟨proc, same ▸ unchanged, by rw [← same]⟩
  exact ⟨s, ran, ran, same⟩

theorem forM {α : Type} {visit visit' : α → Step Unit} {items : List α}
    (each : ∀ item ∈ items, Idle proc (visit item) (visit' item)) :
    Idle proc (items.forM visit) (items.forM visit') := by
  induction items with
  | nil => exact skip proc
  | cons item rest ih =>
    obtain ⟨here, later⟩ := forall_mem_cons.mp each
    exact bind here (ih later)

theorem inScope (idle : Idle proc step step') : Idle proc (Step.inScope step) (Step.inScope step') := by
  intro s same
  obtain ⟨m, ran, ran', kept⟩ := idle s.opened same
  exact ⟨m.closed, by simp only [Step.inScope, ran],
    by simp only [Step.inScope, ran'], kept⟩

end Idle

theorem refreshNode_idle {id : NodeId} (upToDate : proc.Exact id) : Edit.refreshNode id proc = .ok () proc := by
  obtain ⟨node, here, computed⟩ := upToDate
  have unchanged : proc.setNode id node = proc := by
    obtain ⟨bound, rfl⟩ := Array.getElem?_eq_some_iff.mp here
    simp [Procedure.setNode, Array.setIfInBounds, bound]
  simp only [Edit.refreshNode, bind_ok_iff, ask_ok_iff, modify_ok_iff]
  exact ⟨node, proc, node_answers here, node.impact, proc, ⟨computed, rfl⟩, unchanged⟩

section Visit

variable (here : proc.calls[id]? = some data)

include here

theorem lowerTarget_idle
    (idle : ∀ target, data.target.node? = some target → Idle proc (lower target) (lower' target)) :
    Idle proc (lowerTarget lower id) (lowerTarget lower' id) := by
  refine Idle.ask (Edit.call_answers here) ?_
  cases isTarget : data.target.node? with
  | none => exact Idle.skip proc
  | some target => exact idle target isTarget

theorem modifyArg_idle (step : Argument → Argument) (atIndex : data.args.args[index]? = some arg)
    (same : step arg = arg) : Edit.modifyArg id index step proc = .ok () proc := by
  rw [Edit.modifyArg_runs here atIndex, Edit.setCall_kept here atIndex same]

theorem lowerLate_idle (atIndex : data.args.args[index]? = some arg)
    (idle : ∀ late, arg.late = some late → Idle proc (lower late) (lower' late)) :
    Idle proc (lowerLate Transform.identity lower id index) (lowerLate Transform.identity lower' id index) := by
  refine Idle.ask (Edit.arg_answers here atIndex) ?_
  cases isLate : arg.late with
  | none => exact Idle.skip proc
  | some late =>
    refine (idle late isLate).bind fun s same => ?_
    have putBack := modifyArg_idle here (fun arg => { arg with late := some late })
      atIndex (by rw [← isLate])
    obtain ⟨t, ran, _, last⟩ := Idle.edit putBack { s with visits := s.visits.push late } same
    have handed := transformed_identity late s
    exact ⟨t, bind_ok_iff.mpr ⟨late, _, handed, ran⟩,
      bind_ok_iff.mpr ⟨late, _, handed, ran⟩, last⟩

theorem revisitCall_idle (settled : data.Settled)
    (idle : ∀ input ∈ data.owned, Idle proc (lower input) (lower' input)) :
    Idle proc (revisitCall Transform.identity lower id) (revisitCall Transform.identity lower' id) := by
  have isMaterialized : data.args.isMaterialized = true := by
    simp [ArgList.isMaterialized, settled.materialized]
  refine (lowerTarget_idle here fun target isTarget => idle target ?_).bind ?_
  · exact mem_append_right _ (Option.mem_toList.mpr isTarget)
  · refine Idle.ask (Edit.call_answers here) (Idle.forM fun index inOrder => ?_)
    have atIndex := getElem?_eq_getElem (settled.bounded index inOrder)
    refine lowerLate_idle here atIndex fun late isLate => idle late ?_
    simp only [Call.owned, Call.lateNodes, if_pos isMaterialized, mem_append, mem_filterMap]
    exact .inl (.inl (.inr ⟨index, inOrder, by rw [atIndex, Option.bind_some, isLate]⟩))

end Visit

-- By induction on the trees: a visit of each root of a finished forest is idle, however a call would
-- be finished.
theorem overTree_idle (settings settings' : Settings) (finish finish' : CallId → Step Unit)
    (spans : Spans proc.owned roots seen) (done : Done proc seen) (few : seen.length ≤ proc.nodes.size)
    (depth length : Nat) (deep : (proc.callsIn seen).length ≤ depth) (long : seen.length ≤ length) :
    ∀ root ∈ roots, Idle proc
      (overTree (visitCallWith settings finish (lowerTreeWith settings finish depth)) length root)
      (overTree (visitCallWith settings' finish' (lowerTreeWith settings' finish' depth)) length root) := by
  induction spans generalizing depth length with
  | nil => simp
  | cons id rest below after _ _ ihUnder ihBehind =>
    simp only [length_append, length_cons] at few long
    have calls : (proc.callsIn (below ++ id :: after)).length = (proc.callsIn below).length
        + ((proc.callsIn [id]).length + (proc.callsIn after).length) := by
      simp only [← length_append, ← Procedure.callsIn_append, singleton_append]
    have doneBelow : Done proc below := done.subset fun other mem => by simp [mem]
    have doneAfter : Done proc after := done.subset fun other mem => by simp [mem]
    refine forall_mem_cons.mpr ⟨?_, ihBehind doneAfter (by omega) depth length (by omega) (by omega)⟩
    obtain ⟨length, rfl⟩ : ∃ less, length = less + 1 := ⟨length - 1, by omega⟩
    have under := ihUnder doneBelow (by omega)
    have upToDate := done.upToDate id (by simp)
    have refreshed := refreshNode_idle upToDate
    obtain ⟨node, here, _⟩ := upToDate
    have atKind := proc.kindAt_of here rfl
    refine Idle.ask (node_answers here) ?_
    cases kind : node.kind with
    | call call =>
      have named : proc.callAt id = some call := by rw [proc.callAt_eq atKind, kind]; rfl
      -- a call takes one from the depth, and its inputs have all the nodes to go again
      have isOne : (proc.callsIn [id]).length = 1 := by simp [Procedure.callsIn, named]
      obtain ⟨depth, rfl⟩ : ∃ less, depth = less + 1 := ⟨depth - 1, by omega⟩
      obtain ⟨data, atCall, settled, _⟩ := done.settled call
        (mem_filterMap.mpr ⟨id, by simp, named⟩)
      have isMaterialized : data.args.isMaterialized = true := by
        simp [ArgList.isMaterialized, settled.materialized]
      rw [proc.owned_of_call (kind ▸ atKind) atCall] at under
      refine (Idle.inScope (Idle.ask (Edit.call_answers atCall) ?_)).bind (Idle.edit refreshed)
      rw [if_pos isMaterialized, if_pos isMaterialized]
      refine revisitCall_idle atCall settled fun input owned s same => ?_
      subst same
      exact under depth (s.proc.nodes.size + 2) (by omega) (by omega) input owned s rfl
    | _ =>
      rw [proc.owned_of_kind atKind (by rw [kind]; rfl), kind] at under
      exact (Idle.forM (under depth length (by omega) (by omega))).bind (Idle.edit refreshed)

theorem lowerTreeWith_idle (settings settings' : Settings) (finish finish' : CallId → Step Unit)
    (forest : Forest proc roots seen) (done : Done proc seen) :
    ∀ root ∈ roots, Idle proc (lowerTreeWith settings finish (depthLimit proc) root)
      (lowerTreeWith settings' finish' (depthLimit proc) root) := by
  intro root isRoot s same
  have few := length_le_of_bounded forest.once forest.valid
  have deep : (proc.callsIn seen).length ≤ proc.calls.size := by
    refine length_le_of_bounded forest.callsOnce fun call named => ?_
    obtain ⟨data, here, _⟩ := done.settled call named
    exact lt_size here
  subst same
  exact overTree_idle settings settings' finish finish' forest.spans done few _ (s.proc.nodes.size + 2) deep
    (by omega) root isRoot s rfl

theorem lowered_twice (settings : Settings) (forest : Forest proc proc.statements seen) (done : Done proc seen) :
    ∃ visits, proc.lower settings Transform.identity = .ok ⟨proc, visits, none⟩ := by
  have idle := lowerTreeWith_idle settings settings (finishCall settings) (finishCall settings) forest done
  rw [← lowerTree_eq_with] at idle
  obtain ⟨t, ran, _, same⟩ := Idle.forM idle { proc } rfl
  refine ⟨t.visits, ?_⟩
  have all : lowerStatements settings Transform.identity { proc } = .ok () t :=
    bind_ok_iff.mpr ⟨{ proc }, { proc }, rfl, ran⟩
  simp only [Procedure.lower, all, same]

theorem lowering_complete_and_idempotent (settings settings' : Settings) (name : String)
    (body : List Instruction) (made : List Made) (proc : Procedure) (before : List NodeId)
    (outcome : Outcome) (builds : Procedure.build name body = .ok (made, proc))
    (unshared : proc.Unshared before)
    (done : proc.lower settings Transform.identity = .ok outcome) (unrefused : outcome.refusal = none) :
    (∃ after, outcome.proc.walkAll = .ok after
      ∧ ∀ call ∈ outcome.proc.callsIn after,
        ∃ data, outcome.proc.calls[call]? = some data ∧ data.args.isMaterialized = true)
      ∧ ∃ visits, outcome.proc.lower settings' Transform.identity = .ok ⟨outcome.proc, visits, none⟩ := by
  obtain ⟨after, copies, success⟩ :=
    lower_succeeds builds unshared done unrefused
  have reworked := success.reworked
  refine ⟨⟨after, success.walkAll, fun call named => ?_⟩, ?_⟩
  · obtain ⟨data, atCall, settled, _⟩ := reworked.done.settled call named
    exact ⟨data, atCall, by simp [ArgList.isMaterialized, settled.materialized]⟩
  · refine lowered_twice settings' ?_ reworked.done
    rw [reworked.grown.statements]
    exact reworked.forest

-- A call through an address that another call returns, with a call and a load among its arguments,
-- and a store above it.
def callThroughCall : List Instruction :=
  [.declare .ptr, .declare .i32, .readLocal 0, .load 0 false .i32,
    .call { target := .method "inner", returnType := .i32, args := [(1, .i32)] },
    .call { target := .method "find", returnType := .ptr }, .readLocal 1,
    .call { target := .indirect 3, returnType := .i32, args := [(4, .i32), (2, .i32)] }, .assign 1 5,
    .statement 6]

theorem nested_calls_lowered_once :
    ∃ made proc outcome after visits, Procedure.build "caller" callThroughCall = .ok (made, proc)
      ∧ proc.lower { target := Target.ofTriple ⟨.x64, .linux⟩ } Transform.identity = .ok outcome
      ∧ outcome.proc.walkAll = .ok after ∧ (outcome.proc.callsIn after).length = 3
      ∧ (∀ call ∈ outcome.proc.callsIn after,
        ∃ data, outcome.proc.calls[call]? = some data ∧ data.args.isMaterialized = true)
      ∧ outcome.proc.lower { target := Target.ofTriple ⟨.arm32, .linux⟩ } Transform.identity
        = .ok ⟨outcome.proc, visits, none⟩ := by
  obtain ⟨made, proc, outcome, builds, span, done, unrefused, walks⟩ := lowered_of_check callThroughCall
    { target := Target.ofTriple ⟨.x64, .linux⟩ } (fun proc => proc.unshared? = some [4, 0, 1, 2, 3, 5, 6])
    (fun outcome => outcome.refusal = none
      ∧ outcome.proc.walkAll.toOption.any fun after => (outcome.proc.callsIn after).length == 3)
    (by decide +kernel)
  obtain ⟨⟨after, walked, materialized⟩, visits, again⟩ := lowering_complete_and_idempotent _
    { target := Target.ofTriple ⟨.arm32, .linux⟩ } _ _ made proc _ outcome builds
    (proc.unshared?_sound span) done unrefused
  simp only [walked, Except.toOption, Option.any_some, beq_iff_eq] at walks
  exact ⟨made, proc, outcome, after, visits, builds, done, walked, walks, materialized, again⟩

end Lowering

end CallLowering
