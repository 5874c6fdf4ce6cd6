import CallLowering.Proofs.Restoring
import Mathlib.Data.List.TakeWhile

/-! Resetting a call after its finalization was refused. -/

namespace CallLowering

open List

namespace Call

-- The roles that have their hidden arguments by the time a finalization is refused.
def leftovers (data : Call) : List ArgRole := data.hiddenRoles.takeWhile data.provides

theorem leftovers_eq (data : Call) :
    data.leftovers = data.routing.map Prod.fst ++ data.cellRoles.takeWhile data.provides := by
  have provided : ∀ role ∈ data.routing.map Prod.fst, data.provides role = true := by
    unfold routing
    split <;> simp [provides]
  rw [leftovers, hiddenRoles_eq, takeWhile_append_of_pos provided]

variable (data : Call) (cells : List (ArgRole × NodeId))

include data cells

theorem dress_length :
    (data.dress cells).args.args.length
      = data.args.args.length + (data.routing.map Prod.fst ++ cells.map Prod.fst).length := by
  have split := congrArg List.length (take_append_drop data.args.afterThis data.args.args)
  have apart := (filter_append_perm (fun cell : ArgRole × NodeId => cell.1 == .wrapperCell) cells).length_eq
  simp only [length_append] at split apart
  simp only [dress, withArgs, length_append, length_map]
  rw [← split, ← apart]
  simp only [bne]
  omega

-- The call with hidden arguments, but still with a target and a cookie of its own.
def overdress (data : Call) (cells : List (ArgRole × NodeId)) : Call :=
  { data.dress cells with target := data.target, cookie := data.cookie }

theorem overdress_hiddenRoles : (data.overdress cells).hiddenRoles = data.hiddenRoles := by
  have sameFlags : (data.overdress cells).flags = data.flags := (congrArg Call.flags (data.dress_rest cells) :)
  have sameCells : (data.overdress cells).cellRoles = data.cellRoles := by rw [cellRoles, sameFlags]; rfl
  rw [hiddenRoles_eq, hiddenRoles_eq, sameCells]
  rfl

theorem overdress_stage : (data.overdress cells).args.stage = data.args.stage :=
  (congrArg ArgList.stage data.routed_args :)

end Call

namespace AbiInfo

open Edit

section Refusing

variable {settings : Settings} {id : CallId} {p q : Procedure} {data : Call} {refusal : Refusal}

theorem placeArgs_refused_idle (failed : placeArgs settings id p = .error (.refusal refusal) q) : q = p := by
  simp only [placeArgs, bind_error_iff, lift_edit_refused, lift_edit_ok_iff, lift_fault_refused,
    lift_fault_ok_iff, lift_stop_error_iff, lift_stop_ok_iff, false_or] at failed
  obtain ⟨data, start, found, shapes, _, ⟨_, rfl⟩, failed⟩ := failed
  obtain ⟨_, rfl⟩ := call_ok found
  rcases failed with ⟨_, rfl⟩ | ⟨answer, _, ⟨_, rfl⟩, failed⟩
  · rfl
  rcases (when_bind_error_iff _ _).mp failed with ⟨_, refused⟩ | ⟨m, counted, failed⟩
  · exact (refuse_error_iff.mp refused).2.symm
  have same : m = start := by
    split at counted
    · exact (refuse_ok_iff.mp counted).elim
    · exact counted
  cases assigned : assign settings.target data.args.args answer.placements with
  | none =>
    simp only [assigned, refuse_error_iff] at failed
    exact failed.2.symm.trans same
  | some args => simp only [assigned, lift_edit_refused] at failed

theorem Finalized.length (run : Finalized settings id data p q) :
    run.final.args.args.length = data.args.args.length + data.hiddenRoles.length := by
  have placed := congrArg List.length (run.args_map Argument.parameter fun _ _ => rfl)
  have handed := congrArg List.length (run.handed.map Argument.parameter fun _ _ => rfl)
  have sameRouting : run.base.routing = data.routing := (congrArg Call.routing run.handed.rest :)
  simp only [length_map] at placed handed
  rw [placed, Call.dress_length, handed, sameRouting, run.roles, Call.hiddenRoles_eq]

-- A finalization that was refused. Whatever the reason, the hidden arguments were added up to the first
-- one that the call does not provide.
structure Refused (id : CallId) (data : Call) (p q : Procedure) where
  base : Call
  cells : List (ArgRole × NodeId)
  roles : cells.map Prod.fst = data.cellRoles.takeWhile data.provides
  dressed : Dressed id data p base cells q

theorem finalize_refused_at (here : p.calls[id]? = some data) (fresh : data.args.stage = .unfinalized)
    (failed : finalize settings id p = .error (.refusal refusal) q) : Nonempty (Refused id data p q) := by
  have complete : ∀ m, addHiddenArgs id p = .ok () m → Nonempty (Refused id data p m) := by
    intro m adding
    obtain ⟨base, cells, roles, dressed⟩ := addHiddenArgs_dressed here adding
    refine ⟨base, cells, ?_, dressed⟩
    rw [← roles, takeWhile_eq_self_iff.mpr (by simpa using dressed.provided)]
  rw [finalize, call_first here, if_neg (by simp [fresh, Stage.isFinalized])] at failed
  simp only [bind_error_iff, lift_stop_error_iff, lift_stop_ok_iff] at failed
  rcases failed with adding | ⟨_, m, added, ⟨_, rfl⟩ | ⟨_, _, ⟨_, rfl⟩, placing⟩⟩
  · obtain ⟨base, cells, roles, dressed⟩ := addHiddenArgs_refused_dressed here adding
    exact ⟨base, cells, roles, dressed⟩
  · exact complete m added
  · rw [placeArgs_refused_idle placing]
    exact complete m added

end Refusing

namespace Refused

variable {id : CallId} {data : Call} {p q : Procedure} (run : Refused id data p q)

def left : Call := run.base.overdress run.cells

theorem handed : data.Handed (.wrapperCell ∈ run.cells.map Prod.fst) p q run.base :=
  run.dressed.handed q Extends.refl

theorem left_target : run.left.target = data.target := (congrArg Call.target run.handed.rest :)

theorem left_cookie : run.left.cookie = data.cookie := (congrArg Call.cookie run.handed.rest :)

theorem left_hiddenRoles : run.left.hiddenRoles = data.hiddenRoles :=
  (run.base.overdress_hiddenRoles run.cells).trans (congrArg Call.hiddenRoles run.handed.rest :)

theorem left_stage (plain : data.Plain) : run.left.args.stage = .unfinalized :=
  (run.base.overdress_stage run.cells).trans (run.handed.plain plain).unfinalized

theorem left_ownArgs (plain : data.Plain) :
    run.left.ownArgs.map Argument.parameter = data.args.args.map Argument.parameter := by
  rw [← run.handed.map Argument.parameter fun _ _ => rfl, ← (run.handed.plain plain).dress_ownArgs run.cells]
  rfl

theorem left_length : run.left.args.args.length = data.args.args.length + data.leftovers.length := by
  have sameRouting : run.base.routing = data.routing := (congrArg Call.routing run.handed.rest :)
  have sameLength := congrArg List.length (run.handed.map Argument.parameter fun _ _ => rfl)
  rw [length_map, length_map] at sameLength
  rw [data.leftovers_eq, ← run.roles, ← sameRouting, ← sameLength]
  exact run.base.dress_length run.cells

-- The list was not finalized, so a reset restores the target and the cookie and nothing else.
theorem resets (plain : data.Plain) : reset id q = .ok () (q.setCall id run.left) := by
  have listed : (run.base.dress run.cells).args.reset = .ok (run.base.dress run.cells).args := by
    rw [ArgList.reset, show (run.base.dress run.cells).args.stage = _ from run.left_stage plain]
  have sameRoles : run.base.cellRoles = data.cellRoles := (congrArg Call.cellRoles run.handed.rest :)
  have among : ∀ cell ∈ run.cells, cell.1 ∈ run.base.cellRoles := fun cell mem => by
    rw [sameRoles]
    exact ( takeWhile_prefix _).subset (run.roles ▸ mem_map_of_mem mem)
  rw [reset_runs run.dressed.here listed,
    restoreIndirect_dressed (run.base.dress run.cells) (run.handed.plain plain) among rfl rfl rfl]
  rfl

theorem idle (here : p.calls[id]? = some data) (none : data.leftovers = []) : q.setCall id run.left = p := by
  rw [data.leftovers_eq, ← run.roles, append_eq_nil_iff, map_eq_nil_iff, map_eq_nil_iff] at none
  have same := run.dressed.idle none.1 none.2
  have whole : run.base.dress run.cells = data :=
    Option.some.inj (run.dressed.here.symm.trans (same ▸ here))
  have left : run.left = { data with target := run.left.target, cookie := run.left.cookie } :=
    congrArg (fun now : Call => { now with target := run.left.target, cookie := run.left.cookie }) whole
  rw [left, run.left_target, run.left_cookie, same]
  exact p.setCall_self here

end Refused

theorem nil_of_parameters {before after : List Argument} {added : List ArgRole}
    (counted : after.length = before.length + added.length)
    (same : after.map Argument.parameter = before.map Argument.parameter) : added = [] := by
  have lengths := congrArg List.length same
  rw [length_map, length_map, counted] at lengths
  exact length_eq_zero_iff.mp (by omega)

-- After a refused finalization, a reset brings back the target and the cookie, and the list of arguments
-- only if no hidden argument had been added; otherwise a later finalization adds them again.
theorem reset_after_refusal (settings : Settings) (id : CallId) (data : Call) (refusal : Refusal)
    (p q : Procedure) (plain : data.Plain) (here : p.calls[id]? = some data)
    (failed : finalize settings id p = .error (.refusal refusal) q) :
    ∃ r now, reset id q = .ok () r ∧ r.calls[id]? = some now
      ∧ now.target = data.target ∧ now.cookie = data.cookie
      ∧ now.ownArgs.map Argument.parameter = data.args.args.map Argument.parameter
      ∧ (now.args.args.map Argument.parameter = data.args.args.map Argument.parameter ↔ data.leftovers = [])
      ∧ (data.leftovers = [] → r = p)
      ∧ ∀ (supported : Settings) (s t : Procedure) (straight detour : Call),
        finalize supported id p = .ok () s → s.calls[id]? = some straight →
        finalize supported id r = .ok () t → t.calls[id]? = some detour →
        (detour.args.args.map Argument.parameter = straight.args.args.map Argument.parameter
          ↔ data.leftovers = []) := by
  obtain ⟨run⟩ := finalize_refused_at here plain.unfinalized failed
  have atLeft := q.setCall_here run.left run.dressed.here
  refine ⟨_, run.left, run.resets plain, atLeft, run.left_target, run.left_cookie, run.left_ownArgs plain,
    ⟨nil_of_parameters run.left_length, fun none => ?_⟩, run.idle here, ?_⟩
  · rw [run.idle here none] at atLeft
    rw [Option.some.inj (atLeft.symm.trans here)]
  intro supported s t straight detour done atStraight again atDetour
  constructor
  · obtain ⟨first⟩ := finalize_finalized here plain.unfinalized done
    obtain ⟨second⟩ := finalize_finalized atLeft (run.left_stage plain) again
    cases first.here.symm.trans atStraight
    cases second.here.symm.trans atDetour
    refine nil_of_parameters ?_
    rw [first.length, second.length, run.left_hiddenRoles, run.left_length]
    omega
  · intro none
    rw [run.idle here none, done] at again
    cases again
    rw [Option.some.inj (atDetour.symm.trans atStraight)]

-- A call with managed varargs through a cookie. Only Windows has such calls, and elsewhere they are
-- refused when the helper has its cookie and its target already.
def cookieVarargs : CallSpec where
  target := .indirect 0
  returnType := .i32
  varargsCookie := some 2
  args := [(3, .i32)]
  cookie := some 1

def cookieVarargsBuilt : Procedure :=
  endOf (([.declare .ptr, .readLocal 0, .intConst 8192 .ptr, .intConst 4096 .ptr, .intConst 7 .i32,
    .call cookieVarargs, .statement 4] : List Instruction).mapM Instruction.run { name := "caller" })

def onX64 (os : OperatingSystem) : Settings := { target := .ofTriple ⟨.x64, os⟩ }

def cookieVarargsRefused : Procedure := endOf (finalize (onX64 .linux) 0 cookieVarargsBuilt)

def cookieVarargsReset : Procedure := endOf (reset 0 cookieVarargsRefused)

def cookieVarargsRefusal : Refusal := .notYetImplemented (.managedVarargs ⟨.x64, .linux⟩)

-- The reset leaves the cookie and the target in the list, and the next finalization adds them again.
theorem refused_cookie_stays :
    finalize (onX64 .linux) 0 cookieVarargsBuilt = .error (.refusal cookieVarargsRefusal) cookieVarargsRefused
      ∧ reset 0 cookieVarargsRefused = .ok () cookieVarargsReset
      ∧ (cookieVarargsReset.calls[0]?.map fun data : Call => data.args.args.map Argument.role)
        = some [.varargsCookie, .ordinary, .pinvokeCookie, .pinvokeTarget]
      ∧ ((endOf (finalize (onX64 .windows) 0 cookieVarargsReset)).calls[0]?.map fun data : Call =>
        data.args.args.map Argument.role)
        = some [.varargsCookie, .ordinary, .pinvokeCookie, .pinvokeTarget, .pinvokeCookie, .pinvokeTarget]
      ∧ ((endOf (finalize (onX64 .windows) 0 cookieVarargsBuilt)).calls[0]?.map fun data : Call =>
        data.args.args.map Argument.role)
        = some [.varargsCookie, .ordinary, .pinvokeCookie, .pinvokeTarget] := by
  refine ⟨error_of_stopOf (by decide +kernel), ok_of_answerOf _ _ (by decide +kernel), ?_⟩
  decide +kernel

theorem cookie_varargs_reset :
    cookieVarargsBuilt.calls[0]? = some cookieVarargs.toCall
      ∧ finalize (onX64 .linux) 0 cookieVarargsBuilt
        = .error (.refusal cookieVarargsRefusal) cookieVarargsRefused
      ∧ cookieVarargs.toCall.leftovers = [.pinvokeCookie, .pinvokeTarget]
      ∧ ∃ (r : Procedure) (now : Call), reset 0 cookieVarargsRefused = .ok () r ∧ r.calls[0]? = some now
        ∧ now.target = .indirect 0 ∧ now.cookie = some 1
        ∧ now.ownArgs.map Argument.parameter = [(.varargsCookie, .ptr), (.ordinary, .i32)]
        ∧ now.args.args.map Argument.parameter ≠ [(.varargsCookie, .ptr), (.ordinary, .i32)] := by
  have here : cookieVarargsBuilt.calls[0]? = some cookieVarargs.toCall := by decide +kernel
  have failed : finalize (onX64 .linux) 0 cookieVarargsBuilt
      = .error (.refusal cookieVarargsRefusal) cookieVarargsRefused :=
    error_of_stopOf (by decide +kernel)
  have added : cookieVarargs.toCall.leftovers = [.pinvokeCookie, .pinvokeTarget] := by decide
  obtain ⟨r, now, done, atNow, target, cookie, own, listed, _⟩ := reset_after_refusal (onX64 .linux) 0 _ _ _ _
    cookieVarargs.toCall_plain here failed
  refine ⟨here, failed, added, r, now, done, atNow, target, cookie, own, fun same => ?_⟩
  rw [added] at listed
  cases listed.mp same

end AbiInfo

end CallLowering
