import CallLowering.Proofs.Lifecycle
import CallLowering.Proofs.Refusals

/-! Calls in their hidden arguments. -/

namespace CallLowering

open List

variable {p q : Procedure} {data base : Call} {call : CallId} {index : Nat} {role : ArgRole} {value : NodeId}
  {wrapped : Prop}

-- The roles that an argument has only if finalizing added it.
def ArgRole.isAdded : ArgRole → Bool
  | stubCell | r2rCell | pinvokeCookie | pinvokeTarget | wrapperCell => true
  | _ => false

def Argument.unplaced (arg : Argument) : Argument := { arg with placement := {} }

def Argument.bare (arg : Argument) : Argument := { arg with early := none }

namespace Call

-- A call as it is built, or as a reset leaves it.
structure Plain (data : Call) : Prop extends data.Blank where
  own : ∀ arg ∈ data.args.args, arg.flags.lateAdded = false ∧ arg.role.isAdded = false

def ownArgs (data : Call) : List Argument := data.args.args.filter fun arg => !arg.flags.lateAdded

def placed (data : Call) (args : List Argument) (stackSize : Nat) : Call :=
  { data with args := { data.args with
    args
    hasRegArgs := args.any fun arg => arg.placement.hasReg
    hasStackArgs := args.any fun arg => arg.placement.hasStack
    stackSize
    stage := .finalized } }

theorem withThis_withThis (data : Call) (before value : NodeId) :
    (data.withThis before).withThis value = data.withThis value := by
  have sameThis : (data.withThis before).args.thisIndex = data.args.thisIndex :=
    data.withThis_findRole before .thisPointer
  rw [withThis, sameThis]
  unfold withThis
  cases data.args.thisIndex with
  | none => rfl
  | some index =>
    simp only [withArgs, modify_modify_eq]
    rfl

theorem Plain.withThis (plain : data.Plain) : (data.withThis value).Plain := by
  have changed : ∀ arg ∈ (data.withThis value).args.args, ∃ before ∈ data.args.args,
      before.placement = arg.placement ∧ before.flags = arg.flags ∧ before.role = arg.role := by
    intro arg mem
    have same := data.withThis_map value (fun arg => (arg.placement, arg.flags, arg.role)) fun _ _ => rfl
    have view := mem_map_of_mem (f := fun arg => (arg.placement, arg.flags, arg.role)) mem
    rw [same] at view
    obtain ⟨before, there, sameView⟩ := mem_map.mp view
    simp only [Prod.mk.injEq] at sameView
    exact ⟨before, there, sameView⟩
  refine ⟨plain.toBlank.withArgs fun arg mem => ?_, fun arg mem => ?_⟩
  · obtain ⟨before, there, samePlacement, _⟩ := changed arg mem
    rw [← samePlacement]
    exact plain.unplaced before there
  · obtain ⟨before, there, _, sameFlags, sameRole⟩ := changed arg mem
    rw [← sameFlags, ← sameRole]
    exact plain.own before there

theorem Handed.plain (handed : data.Handed wrapped p q base) (plain : data.Plain) : base.Plain := by
  cases handed with
  | same => exact plain
  | spilled => exact plain.withThis

theorem Handed.provides (handed : data.Handed wrapped p q base) (given : data.provides role = true) :
    base.provides role = true := by
  cases handed with
  | same => exact given
  | @spilled value spilled _ _ isThis =>
    cases role with
    | wrapperCell =>
      rw [Call.provides, Bool.and_eq_true_iff] at given ⊢
      exact ⟨by rw [data.withThis_thisValue spilled isThis, Option.isSome_some], given.2⟩
    | _ => exact given

theorem Plain.dress_ownArgs (plain : data.Plain) (cells : List (ArgRole × NodeId)) :
    (data.dress cells).ownArgs = data.args.args := by
  have hidden : ∀ cells : List (ArgRole × NodeId),
      (cells.map Argument.ofCell).filter (fun arg => !arg.flags.lateAdded) = [] := by
    intro cells
    refine filter_eq_nil_iff.mpr fun arg mem => ?_
    obtain ⟨cell, _, rfl⟩ := mem_map.mp mem
    simp [Argument.ofCell, Argument.hidden]
  have own : data.args.args.filter (fun arg => !arg.flags.lateAdded) = data.args.args :=
    filter_eq_self.mpr fun arg mem => by simp [(plain.own arg mem).1]
  simp only [ownArgs, dress, withArgs, filter_append, hidden, append_nil]
  rw [← filter_append, take_append_drop, own]

end Call

theorem CallSpec.toCall_plain (spec : CallSpec) : spec.toCall.Plain := by
  refine ⟨spec.toCall_blank, fun arg mem => ?_⟩
  simp only [CallSpec.toCall, CallSpec.arguments, mem_append, Option.mem_toList,
    Option.map_eq_some_iff, mem_map] at mem
  rcases mem with (((⟨_, _, rfl⟩ | ⟨_, _, rfl⟩) | ⟨_, _, rfl⟩) | ⟨_, _, rfl⟩) | ⟨_, _, rfl⟩ <;>
    exact ⟨rfl, rfl⟩

namespace AbiInfo

open Edit

section Dressing

variable {id : CallId} {p q r : Procedure} {data base : Call} {cells : List (ArgRole × NodeId)}

theorem addHiddenArgs_refused_dressed {refusal : Refusal} (here : p.calls[id]? = some data)
    (failed : addHiddenArgs id p = .error (.refusal refusal) q) :
    ∃ base cells, cells.map Prod.fst = data.cellRoles.takeWhile data.provides
      ∧ Dressed id data p base cells q := by
  have upTo : ∀ {base : Call} {cells : List (ArgRole × NodeId)} {m : Procedure} (role : ArgRole),
      Dressed id data p base cells m → data.provides role = false →
      (∃ rest, data.cellRoles = cells.map Prod.fst ++ role :: rest) →
      cells.map Prod.fst = data.cellRoles.takeWhile data.provides := by
    rintro base cells m role dressed lacking ⟨rest, roles⟩
    have provided : ∀ role ∈ cells.map Prod.fst, data.provides role = true := by
      simpa using dressed.provided
    rw [roles, takeWhile_append_of_pos provided, takeWhile_cons_of_neg (by simp [lacking]),
      append_nil]
  rw [addHiddenArgs, call_first here] at failed
  simp only [bind_error_iff, lift_edit_refused, lift_edit_ok_iff, false_or] at failed
  obtain ⟨_, _, routing, failed⟩ := failed
  have routed := routeThroughHelper_dressed here routing
  rcases (when_bind_error_iff _ _).mp failed with ⟨isWrapper, refused⟩ | ⟨_, wrapping, failed⟩
  · obtain ⟨rfl, lacking⟩ := addWrapperCell_refused routed.here refused
    refine ⟨data, [], upTo .wrapperCell routed ?_ ?_, routed⟩
    · rw [data.dress_nil_thisIndex, congrArg Call.wrapperOffset (data.dress_rest [])] at lacking
      rcases lacking with ⟨noThis, _⟩ | ⟨noOffset, _⟩ | ⟨index, arg, isThis, atIndex, noValue⟩
      · simp [Call.provides, Call.thisValue, noThis]
      · simp [Call.provides, noOffset]
      · rw [data.dress_nil_here isThis] at atIndex
        simp [Call.provides, Call.thisValue, isThis, atIndex, noValue]
    · rw [Call.cellRoles, if_pos isWrapper, append_assoc]
      exact ⟨_, rfl⟩
  obtain ⟨_, _, roles, wrapped⟩ := optional_dressed routed (addWrapperCell_dressed routed)
    wrapping
  rcases (when_bind_error_iff _ _).mp failed with ⟨isStub, refused⟩ | ⟨_, stubbing, failed⟩
  · obtain ⟨rfl, lacking, _⟩ := addCell_refused refused
    refine ⟨_, _, upTo .stubCell wrapped (by simp [Call.provides, lacking]) ?_, wrapped⟩
    rw [roles, Call.cellRoles, if_pos isStub, append_assoc]
    exact ⟨_, rfl⟩
  obtain ⟨_, _, roles', stubbed⟩ := optional_dressed wrapped
    (fun step => ⟨_, addCell_dressed wrapped (by decide) rfl step⟩) stubbing
  split at failed
  · rename_i isR2r
    obtain ⟨rfl, lacking, _⟩ := addCell_refused failed
    refine ⟨_, _, upTo .r2rCell stubbed (by simp [Call.provides, lacking]) ?_, stubbed⟩
    rw [roles', roles, Call.cellRoles, if_pos isR2r]
    exact ⟨[], rfl⟩
  · exact (pure_error_iff.mp failed).elim

-- A finalization that ended well: the hidden arguments were added, and then all were placed.
structure Finalized (settings : Settings) (id : CallId) (data : Call) (p q : Procedure) where
  base : Call
  cells : List (ArgRole × NodeId)
  middle : Procedure
  roles : cells.map Prod.fst = data.cellRoles
  dressed : Dressed id data p base cells middle
  allowed : checkVarargs settings.target data.flags = .ok ()
  placing : Placed settings id middle q
  same : placing.data = base.dress cells

theorem finalize_finalized {settings : Settings} (here : p.calls[id]? = some data)
    (fresh : data.args.stage = .unfinalized) (done : finalize settings id p = .ok () q) :
    Nonempty (Finalized settings id data p q) := by
  obtain ⟨same, atSame, ⟨finalized, _⟩ | ⟨_, m, adding, allowed, placing⟩⟩ := finalize_ok done
  · cases here.symm.trans atSame
    rw [fresh] at finalized
    cases finalized
  · cases here.symm.trans atSame
    obtain ⟨base, cells, roles, dressed⟩ := addHiddenArgs_dressed here adding
    obtain ⟨placing⟩ := placeArgs_ok placing
    exact ⟨base, cells, m, roles, dressed, allowed, placing,
      Option.some.inj (placing.here.symm.trans dressed.here)⟩

end Dressing

namespace Finalized

variable {settings : Settings} {id : CallId} {data : Call} {p q : Procedure}
  (run : Finalized settings id data p q)

def final : Call := (run.base.dress run.cells).placed run.placing.args run.placing.answer.stackSize

theorem here : q.calls[id]? = some run.final := by
  rw [Procedure.setCall_at run.placing.here run.placing.last, run.same]
  rfl

include run in
theorem grown : Reworks id p q := run.dressed.grown.trans (.set run.placing.last)

theorem handed : data.Handed (data.flags.wrapperDelegate = true) p q run.base := by
  have asked : ArgRole.wrapperCell ∈ run.cells.map Prod.fst ↔ data.flags.wrapperDelegate = true := by
    rw [run.roles]
    simp [Call.cellRoles]
  exact propext asked ▸ run.dressed.handed q (.set run.placing.last)

theorem args_map {β : Type} (view : Argument → β) (blind : ∀ arg placement, view { arg with placement } = view arg) :
    run.final.args.args.map view = (run.base.dress run.cells).args.args.map view :=
  (assign_map view blind run.placing.assigned).trans (by rw [run.same])

theorem ownArgs_unplaced (plain : data.Plain) : run.final.ownArgs.map Argument.unplaced = run.base.args.args := by
  have basePlain := run.handed.plain plain
  calc run.final.ownArgs.map Argument.unplaced
      = (run.final.args.args.map Argument.unplaced).filter (fun arg => !arg.flags.lateAdded) := by
        rw [filter_map]
        rfl
    _ = (run.base.dress run.cells).ownArgs.map Argument.unplaced := by
        rw [run.args_map Argument.unplaced fun _ _ => rfl, filter_map]
        rfl
    _ = run.base.args.args := by
        rw [basePlain.dress_ownArgs]
        refine (map_congr_left fun arg mem => ?_).trans (map_id _)
        rw [Argument.unplaced, ← basePlain.unplaced arg mem]
        rfl

end Finalized

-- A wrapper delegate that another call yields, invoked through a cookie and a stub. On x86 the cookie is
-- the one hidden argument that the convention places.
def cookieDelegate : CallSpec where
  target := .indirect 4
  cookie := some 3
  thisPointer := some (0, .ptr)
  wrapperOffset := some 8
  stubCell := some 64
  args := [(1, .i32), (2, .i64)]

def cookieDelegateBuilt : Procedure :=
  endOf (([.call { target := .method "make", returnType := .ptr }, .intConst 7 .i32, .intConst 9 .i64,
    .intConst 4096 .ptr, .intConst 8192 .ptr, .call cookieDelegate, .statement 5] : List Instruction).mapM
      Instruction.run { name := "caller" })

def onX86 : Settings := { target := .ofTriple ⟨.x86, .windows⟩ }

def cookieDelegateFinalized : Procedure := endOf (finalize onX86 1 cookieDelegateBuilt)

end AbiInfo

end CallLowering
