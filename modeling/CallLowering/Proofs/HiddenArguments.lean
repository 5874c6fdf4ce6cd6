import CallLowering.Proofs.Building
import CallLowering.Proofs.Dressing
import CallLowering.Proofs.FinalizedTrees
import CallLowering.Proofs.Placements

/-! The arguments that finalizing adds to a call. -/

namespace CallLowering

open List

variable {p q : Procedure} {call : CallId} {index : Nat} {ty : ValueType} {value : NodeId} {data : Call}

-- The roles of the arguments that the runtime expects beyond the signature.
def Call.hiddenRoles (data : Call) : List ArgRole :=
  (if data.target.node?.isSome && data.cookie.isSome then [.pinvokeCookie, .pinvokeTarget] else [])
    ++ (if data.flags.wrapperDelegate then [.wrapperCell] else [])
    ++ (if data.flags.virtualStub && !data.flags.r2r then [.stubCell] else [])
    ++ (if data.flags.r2r then [.r2rCell] else [])

theorem Call.hiddenRoles_eq (data : Call) : data.hiddenRoles = data.routing.map Prod.fst ++ data.cellRoles := by
  simp only [hiddenRoles, cellRoles, append_assoc]
  congr 1
  unfold routing
  cases data.target <;> cases data.cookie <;> rfl

def Argument.parameter (arg : Argument) : ArgRole × ValueType := (arg.role, arg.ty)

structure Call.Joined (data : Call) (roles : List ArgRole) (data' : Call) : Prop where
  flags : data'.flags = data.flags
  wrapperOffset : data'.wrapperOffset = data.wrapperOffset
  parameters : (data'.args.args.map Argument.parameter).Perm
    (data.args.args.map Argument.parameter ++ roles.map fun role => (role, .ptr))

namespace Call.Joined

variable {data data' : Call} {roles : List ArgRole}

theorem roles_perm (joined : data.Joined roles data') :
    (data'.args.args.map Argument.role).Perm (data.args.args.map Argument.role ++ roles) := by
  have first := joined.parameters.map Prod.fst
  simp only [map_append, map_map] at first
  rwa [show (Prod.fst ∘ fun role : ArgRole => (role, ValueType.ptr)) = id from rfl, map_id] at first

theorem mem_iff (joined : data.Joined roles data') (parameter : ArgRole × ValueType) :
    (∃ arg ∈ data'.args.args, arg.parameter = parameter)
      ↔ (∃ arg ∈ data.args.args, arg.parameter = parameter)
        ∨ parameter.1 ∈ roles ∧ parameter.2 = .ptr := by
  have same := joined.parameters.mem_iff (a := parameter)
  simp only [mem_append, mem_map] at same
  rw [same]
  refine or_congr_right ⟨?_, fun ⟨mem, isPtr⟩ => ⟨parameter.1, mem, by rw [← isPtr]⟩⟩
  rintro ⟨role, mem, rfl⟩
  exact ⟨mem, rfl⟩

end Call.Joined

theorem ArgList.thisIndex_none_iff {list : ArgList} :
    list.thisIndex = none ↔ ∀ arg ∈ list.args, arg.role ≠ .thisPointer := by
  simp [thisIndex, findRole, findIdx?_eq_none_iff]

theorem Call.Joined.noThis {data' : Call} {roles : List ArgRole} (joined : data.Joined roles data')
    (lacking : data'.args.thisIndex = none) : data.hasThis = false := by
  rw [ArgList.thisIndex_none_iff] at lacking
  have before : data.args.thisIndex = none := by
    rw [ArgList.thisIndex_none_iff]
    intro arg mem isThis
    obtain ⟨after, there, same⟩ := (joined.mem_iff arg.parameter).mpr (.inl ⟨arg, mem, rfl⟩)
    exact lacking after there ((congrArg Prod.fst same).trans isThis)
  rw [hasThis, before]
  rfl

namespace AbiInfo

open Edit

section Joining

variable {id : CallId} {p q : Procedure} {data base : Call} {cells : List (ArgRole × NodeId)}

theorem Dressed.joined (dressed : Dressed id data p base cells q) (roles : cells.map Prod.fst = data.cellRoles) :
    data.Joined data.hiddenRoles (base.dress cells) := by
  have handed := dressed.handed q Extends.refl
  obtain ⟨sameRouting, sameFlags, sameOffset⟩ : base.routing = data.routing ∧ base.flags = data.flags
      ∧ base.wrapperOffset = data.wrapperOffset := by
    cases handed <;> exact ⟨rfl, rfl, rfl⟩
  refine ⟨(congrArg Call.flags (base.dress_rest cells)).trans sameFlags,
    (congrArg Call.wrapperOffset (base.dress_rest cells)).trans sameOffset, ?_⟩
  have perm := (base.dress_perm cells).map Argument.parameter
  have hidden : ((base.routing ++ cells).map Argument.ofCell).map Argument.parameter
      = data.hiddenRoles.map fun role => (role, ValueType.ptr) := by
    rw [data.hiddenRoles_eq, ← roles, sameRouting, ← map_append, map_map, map_map]
    rfl
  rwa [map_append, hidden, handed.map Argument.parameter fun _ _ => rfl] at perm

theorem addHiddenArgs_joined (here : p.calls[id]? = some data) (done : addHiddenArgs id p = .ok () q) :
    ∃ data', q.calls[id]? = some data' ∧ data.Joined data.hiddenRoles data' := by
  obtain ⟨base, cells, roles, dressed⟩ := addHiddenArgs_dressed here done
  exact ⟨_, dressed.here, dressed.joined roles⟩

end Joining

end AbiInfo

def KeepsFilled (p q : Procedure) : Prop :=
  ∀ id, q.kindAt id = some (.fieldList []) → p.kindAt id = some (.fieldList [])

namespace KeepsFilled

open Edit

theorem refl (p : Procedure) : KeepsFilled p p := fun _ empty => empty

theorem trans {r : Procedure} (first : KeepsFilled p q) (second : KeepsFilled q r) : KeepsFilled p r :=
  fun id empty => first id (second id empty)

theorem node {kind : NodeKind} {id : NodeId} (done : addNode kind ty p = .ok id q)
    (filled : kind ≠ .fieldList []) : KeepsFilled p q := by
  intro other empty
  rw [addNode_kinds done other] at empty
  split at empty
  · exact absurd (Option.some.inj empty) filled
  · exact empty

theorem written (set : q = p.setCall call data) : KeepsFilled p q := by
  subst set
  exact fun _ empty => empty

theorem cloned {copy : Option NodeId} (done : cloneSimple value p = .ok copy q) : KeepsFilled p q := by
  exact (cloneSimple_cloned done).related KeepsFilled refl (fun _ _ _ => trans)
    fun kind ty p q id noList added => node added (noList [])

theorem spilled {base : NodeId} (done : AbiInfo.spillThis call index value ty p = .ok base q) : KeepsFilled p q := by
  obtain ⟨spill⟩ := AbiInfo.spillThis_ok done
  obtain ⟨_, same⟩ := addLocal_ok spill.made
  have made : KeepsFilled p spill.afterTemp := by
    rw [same]
    exact fun _ empty => empty
  obtain ⟨_, _, _, _, set⟩ := modifyArg_ok spill.set
  exact ((((made.trans (node spill.stored nofun)).trans (node spill.reads nofun)).trans
    (node spill.joined nofun)).trans (written set)).trans (node spill.again nofun)

theorem wrapped (done : AbiInfo.addWrapperCell call p = .ok () q) : KeepsFilled p q := by
  obtain ⟨cell⟩ := AbiInfo.addWrapperCell_ok done
  have based : KeepsFilled p cell.afterBase := by
    rcases cell.based with copied | ⟨m, copied, spill⟩
    · exact cloned copied
    · exact (cloned copied).trans (spilled spill)
  exact (((based.trans (node cell.counted nofun)).trans (node cell.added nofun)).trans
    (node cell.loaded nofun)).trans (written cell.last)

theorem celled {role : ArgRole} {missing : Inconsistency} {cell : Option Int64}
    (done : AbiInfo.addCell call role missing cell p = .ok () q) : KeepsFilled p q := by
  obtain ⟨addr, value, m, _, made, pushed⟩ := AbiInfo.addCell_ok done
  obtain ⟨_, _, set⟩ := AbiInfo.pushHidden_ok pushed
  exact (node made nofun).trans (written set)

theorem optional {condition : Prop} [Decidable condition] {step : Attempt Unit}
    (kept : step p = .ok () q → KeepsFilled p q) (done : if condition then step p = .ok () q else q = p) :
    KeepsFilled p q := by
  split at done
  · exact kept done
  · exact done ▸ refl p

theorem finalized {settings : Settings} (done : AbiInfo.finalize settings call p = .ok () q) : KeepsFilled p q := by
  obtain ⟨data, _, ⟨_, rfl⟩ | ⟨_, m, adding, _, placing⟩⟩ := AbiInfo.finalize_ok done
  · exact refl q
  · obtain ⟨steps⟩ := AbiInfo.addHiddenArgs_ok adding
    obtain ⟨placed⟩ := AbiInfo.placeArgs_ok placing
    have routed : KeepsFilled p steps.routed := by
      obtain ⟨_, _, ⟨_, _, _, _, set⟩ | ⟨_, same⟩⟩ := AbiInfo.routeThroughHelper_ok steps.routing
      · exact written set
      · rw [same]
        exact refl p
    exact (((routed.trans (optional wrapped steps.wrapping)).trans (optional celled steps.stubbing)).trans
      (optional celled steps.ending)).trans (written placed.last)

end KeepsFilled

end CallLowering
