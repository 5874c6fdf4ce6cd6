import CallLowering.Proofs.FinalizedPlaces
import CallLowering.Proofs.Materializing
import CallLowering.Proofs.Pinning
import CallLowering.Proofs.Shaping

/-!
The refusals that a call brings on itself: it lacks what its flags ask for, the target has no such calls, or an
argument cannot be moved to a temp.
-/

namespace CallLowering

variable {data : Call} {settings : Settings} {p q : Procedure} {arg : Argument} {id : CallId} {refusal : Refusal}
  {order : List Nat} {index : Nat} {triple : Triple} {ty : ValueType} {t : LoweringState} {value : NodeId}

-- What makes a call unfit for lowering before anything was done to it.
inductive Call.Unfit (settings : Settings) (id : CallId) (data : Call) : Refusal → Prop where
  | nativeVarargs (varargs : data.flags.nativeVarargs = true)
      (unsupported : settings.target.nativeVarargs = false) :
      Unfit settings id data (.notYetImplemented (.nativeVarargs settings.target.triple))
  | managedVarargs (varargs : data.flags.managedVarargs = true)
      (unsupported : settings.target.triple.isWindows = false) :
      Unfit settings id data (.notYetImplemented (.managedVarargs settings.target.triple))
  | voidArgument (arg : Argument) (mem : arg ∈ data.args.args) (isVoid : arg.ty = .void) :
      Unfit settings id data (.unplaceable (.voidArgument arg.role))
  | stubWithoutCell (stub : data.flags.virtualStub = true) (lacking : data.stubCell = none) :
      Unfit settings id data (.inconsistent id .stubWithoutCell)
  | r2rWithoutCell (r2r : data.flags.r2r = true) (lacking : data.r2rCell = none) :
      Unfit settings id data (.inconsistent id .r2rWithoutCell)
  | wrapperWithoutThis (wrapper : data.flags.wrapperDelegate = true) (lacking : data.hasThis = false) :
      Unfit settings id data (.inconsistent id .wrapperWithoutThis)
  | wrapperWithoutOffset (wrapper : data.flags.wrapperDelegate = true)
      (lacking : data.wrapperOffset = none) :
      Unfit settings id data (.inconsistent id .wrapperWithoutOffset)
  | dispatchWithoutThis (guarded : Interference.isGuarded settings data = true)
      (lacking : data.hasThis = false) :
      Unfit settings id data (.inconsistent id .checkedDispatchWithoutThis)

inductive Call.Unmovable (proc : Procedure) (id : CallId) (data : Call) : Refusal → Prop where
  | returnBuffer (arg : Argument) (mem : arg ∈ data.args.args) (asLocal : data.flags.retbufAsLocal = true)
      (isBuffer : arg.role = .returnBuffer) (pinned : arg.flags.needsTemp = true) :
      Unmovable proc id data (.inconsistent id .pinnedReturnBuffer)
  | voidValue (index : Nat) (arg : Argument) (value : NodeId) (node : Node)
      (atIndex : data.args.args[index]? = some arg) (pinned : arg.flags.needsTemp = true)
      (hasValue : arg.early = some value) (atValue : proc.nodes[value]? = some node)
      (isVoid : node.ty = .void) : Unmovable proc id data (.inconsistent id (.noValue index))

-- The refusals that lowering may end in: the call was unfit as it came, or an argument is unmovable
-- in the procedure that is left.
inductive Warranted (settings : Settings) (before after : Procedure) (refusal : Refusal) : Prop where
  | unfit (id : CallId) (data : Call) (here : before.calls[id]? = some data)
      (unfit : data.Unfit settings id refusal)
  | unmovable (id : CallId) (data : Call) (here : after.calls[id]? = some data)
      (unmovable : data.Unmovable after id refusal)

namespace AbiInfo

open Edit

section Refused

variable {id : CallId} {p q : Procedure} {data : Call} {refusal : Refusal}

theorem addWrapperCell_refused (here : p.calls[id]? = some data)
    (failed : addWrapperCell id p = .error (.refusal refusal) q) : q = p ∧
      (data.args.thisIndex = none ∧ refusal = .inconsistent id .wrapperWithoutThis
        ∨ data.wrapperOffset = none ∧ refusal = .inconsistent id .wrapperWithoutOffset
        ∨ ∃ index arg, data.args.thisIndex = some index ∧ data.args.args[index]? = some arg
          ∧ arg.early = none) := by
  rw [addWrapperCell, call_first here] at failed
  cases isThis : data.args.thisIndex with
  | none =>
    simp only [isThis, refuse_error_iff, Stop.refusal.injEq] at failed
    exact ⟨failed.2.symm, .inl ⟨rfl, failed.1.symm⟩⟩
  | some index =>
    cases hasOffset : data.wrapperOffset with
    | none =>
      simp only [isThis, hasOffset, refuse_error_iff, Stop.refusal.injEq] at failed
      exact ⟨failed.2.symm, .inr (.inl ⟨rfl, failed.1.symm⟩)⟩
    | some offset =>
      simp only [isThis, hasOffset, bind_error_iff, lift_edit_refused, lift_edit_ok_iff, false_or] at failed
      obtain ⟨arg, _, atArg, failed⟩ := failed
      obtain ⟨same, atSame, atIndex, rfl⟩ := arg_ok atArg
      cases here.symm.trans atSame
      cases hasValue : arg.early with
      | none =>
        simp only [hasValue, refuse_error_iff] at failed
        exact ⟨failed.2.symm, .inr (.inr ⟨index, arg, rfl, atIndex, hasValue⟩)⟩
      | some value =>
        simp [hasValue, bind_error_iff] at failed

theorem addCell_refused {role : ArgRole} {missing : Inconsistency} {cell : Option Int64}
    (failed : addCell id role missing cell p = .error (.refusal refusal) q) :
    q = p ∧ cell = none ∧ refusal = .inconsistent id missing := by
  unfold addCell at failed
  cases cell with
  | none =>
    simp only [refuse_error_iff, Stop.refusal.injEq] at failed
    exact ⟨failed.2.symm, rfl, failed.1.symm⟩
  | some addr => simp [bind_error_iff] at failed

theorem addHiddenArgs_refused (settings : Settings) (here : p.calls[id]? = some data)
    (present : ∀ arg ∈ data.args.args, arg.early.isSome = true)
    (failed : addHiddenArgs id p = .error (.refusal refusal) q) : data.Unfit settings id refusal := by
  rw [addHiddenArgs, call_first here] at failed
  simp only [bind_error_iff, lift_edit_refused, lift_edit_ok_iff, false_or] at failed
  obtain ⟨_, routed, routing, failed⟩ := failed
  rcases (when_bind_error_iff _ _).mp failed with ⟨wrapper, wrapping⟩ | ⟨wrapped, _, failed⟩
  · have dressed := routeThroughHelper_dressed here routing
    obtain ⟨_, ⟨noThis, rfl⟩ | ⟨noOffset, rfl⟩ | ⟨_, arg, _, atIndex, noValue⟩⟩ :=
      addWrapperCell_refused dressed.here wrapping
    · rw [data.dress_nil_thisIndex] at noThis
      exact .wrapperWithoutThis wrapper (by simp [Call.hasThis, noThis])
    · exact .wrapperWithoutOffset wrapper (congrArg Call.wrapperOffset (data.dress_rest []) ▸ noOffset)
    · have present := dressed.each (fun arg => arg.early.isSome = true) (fun _ _ => rfl) (fun _ _ _ => rfl)
        present arg (List.mem_of_getElem? atIndex)
      simp [noValue] at present
  · rcases (when_bind_error_iff _ _).mp failed with ⟨stub, stubbing⟩ | ⟨stubbed, _, failed⟩
    · obtain ⟨_, noCell, rfl⟩ := addCell_refused stubbing
      exact .stubWithoutCell (Bool.and_eq_true_iff.mp stub).1 noCell
    · split at failed
      · rename_i r2r
        obtain ⟨_, noCell, rfl⟩ := addCell_refused failed
        exact .r2rWithoutCell r2r noCell
      · exact (pure_error_iff.mp failed).elim

theorem checkVarargs_refused (failed : checkVarargs settings.target data.flags = .error (.refusal refusal)) :
    data.Unfit settings id refusal := by
  unfold checkVarargs at failed
  split at failed
  · rename_i native
    cases failed
    obtain ⟨varargs, unsupported⟩ := Bool.and_eq_true_iff.mp native
    exact .nativeVarargs varargs (by simpa using unsupported)
  · split at failed
    · rename_i managed
      cases failed
      obtain ⟨varargs, unsupported⟩ := Bool.and_eq_true_iff.mp managed
      exact .managedVarargs varargs (by simpa using unsupported)
    · cases failed

-- Structs come with their layouts, so only void has no size.
theorem argShape_size_refused {types : TypeTable} {shape : ArgShape} {word : Nat}
    (done : argShape types arg = .ok shape) (failed : shape.size word = .error (.refusal refusal)) :
    arg.ty = .void ∧ refusal = .unplaceable (.voidArgument arg.role) := by
  obtain ⟨sameTy, sameRole, layoutOf⟩ := argShape_ok done
  rw [← sameTy, ← sameRole]
  rw [← sameTy] at layoutOf
  cases ty : shape.ty with
  | struct index =>
    simp only [ty, TypeTable.layoutOf, except_bind_ok_iff, except_pure_ok_iff] at layoutOf
    obtain ⟨layout, _, isLayout⟩ := layoutOf
    simp [ArgShape.size, ty, ← isLayout] at failed
  | void =>
    simp only [ArgShape.size, ty, Except.error.injEq, Stop.refusal.injEq] at failed
    exact ⟨rfl, failed.symm⟩
  | _ => simp [ArgShape.size, ty] at failed

theorem placeArgs_refused (shipped : settings.target = Target.ofTriple triple)
    (here : p.calls[id]? = some data) (failed : placeArgs settings id p = .error (.refusal refusal) q) :
    ∃ arg ∈ data.args.args, arg.ty = .void ∧ refusal = .unplaceable (.voidArgument arg.role) := by
  rw [placeArgs, call_first here] at failed
  simp only [bind_error_iff, lift_fault_refused, lift_fault_ok_iff, lift_stop_error_iff, lift_stop_ok_iff,
    false_or] at failed
  obtain ⟨shapes, _, ⟨shaped, rfl⟩, failed⟩ := failed
  have paired := mapM_except_ok_iff.mp shaped
  rcases failed with ⟨refused, rfl⟩ | ⟨answer, _, ⟨classified, rfl⟩, failed⟩
  · obtain ⟨shape, mem, sizeless⟩ := Target.classify_refused triple _ _ (shipped ▸ refused)
    obtain ⟨arg, among, isShape⟩ := forall₂_partner paired.flip mem
    exact ⟨arg, (List.mem_filter.mp among).1, argShape_size_refused isShape sizeless⟩
  · have sound := Target.classify_sound triple _ _ answer (shipped ▸ classified)
    have counted := sound.covers.length_eq.symm
    obtain ⟨out, assigned, _⟩ := assign_placements settings.target (counted.trans paired.length_eq.symm)
    simp only [counted, ne_eq, not_true_eq_false, if_false, assigned, lift_edit_refused] at failed

end Refused

theorem finalize_refused (shipped : settings.target = Target.ofTriple triple) (here : p.calls[id]? = some data)
    (fresh : data.Fresh) (failed : finalize settings id p = .error (.refusal refusal) q) :
    data.Unfit settings id refusal := by
  rw [finalize, call_first here, if_neg (by simp [fresh.stage, Stage.isFinalized])] at failed
  simp only [bind_error_iff, lift_stop_error_iff, lift_stop_ok_iff] at failed
  rcases failed with adding | ⟨_, m, added, ⟨unsupported, rfl⟩ | ⟨_, _, ⟨_, rfl⟩, placing⟩⟩
  · exact addHiddenArgs_refused settings here (fun arg mem => (fresh.raw arg mem).present) adding
  · exact checkVarargs_refused unsupported
  · obtain ⟨now, atNow, joined⟩ := addHiddenArgs_joined here added
    obtain ⟨arg, mem, isVoid, rfl⟩ := placeArgs_refused shipped atNow placing
    rcases (joined.mem_iff arg.parameter).mp ⟨arg, mem, rfl⟩ with ⟨given, there, same⟩ | ⟨_, isPtr⟩
    · have sameRole : given.role = arg.role := congrArg Prod.fst same
      exact sameRole ▸ .voidArgument given there ((congrArg Prod.snd same).trans isVoid)
    · cases isVoid.symm.trans isPtr

end AbiInfo

theorem Step.structCopy_unrefused (settings : Settings) (ty : ValueType) (s t : LoweringState)
    (refusal : Refusal) : structCopy settings ty s ≠ .error (.refusal refusal) t := by
  intro failed
  cases structCopy_error failed

namespace Shape

open Edit

theorem loadPiece_unrefused (id : CallId) {base : NodeId} (nonFaulting : Bool) {piece : Piece}
    {node : Node} (q : Procedure) (refusal : Refusal) (here : p.nodes[base]? = some node)
    (plain : isPlainAddr node.kind = true) :
    loadPiece id base nonFaulting index piece p ≠ .error (.refusal refusal) q := by
  intro failed
  simp only [loadPiece, pieceBase, bind_error_iff, lift_edit_refused, and_false, exists_false, or_false] at failed
  split at failed
  · exact pure_error_iff.mp failed
  · simp only [bind_error_iff, lift_edit_refused, lift_edit_ok_iff, false_or] at failed
    obtain ⟨_, m, cloned, failed⟩ := failed
    obtain ⟨start, rfl, _⟩ := cloneSimple_plain here plain cloned
    exact pure_error_iff.mp failed

theorem loadFields_unrefused (id : CallId) (addr : NodeId) (nonFaulting : Bool) (pieces : List Piece)
    (q : Procedure) (refusal : Refusal) :
    loadFields id addr nonFaulting pieces p ≠ .error (.refusal refusal) q := by
  intro failed
  simp only [loadFields, bind_error_iff, lift_edit_refused, lift_edit_ok_iff, false_or] at failed
  obtain ⟨⟨hoisted, base⟩, m, atBase, loading | ⟨_, _, _, _, _, _, joining⟩⟩ := failed
  · obtain ⟨node, here, plain⟩ : ∃ node, m.nodes[base]? = some node ∧ isPlainAddr node.kind = true := by
      obtain ⟨node, here, ⟨plain, _, rfl, rfl⟩ | ⟨_, _, _, _, _, _, _, read, _⟩⟩ := hoistAddr_ok atBase
      · exact ⟨node, here, plain⟩
      · obtain ⟨made, here, kind, _⟩ := addNode_here read
        exact ⟨made, here, by rw [kind]; rfl⟩
    obtain ⟨front, item, rest, uses, u, _, before, failing⟩ := mapM_error loading
    have added : Adds m u := mapM_ok_related Adds (fun _ => Extends.refl) (fun _ _ _ => Adds.trans)
      (fun item _ s field t round => loadPiece_adds round)
      m uses before
    exact loadPiece_unrefused id nonFaulting q refusal (added.node here) plain failing
  · cases hoisted <;> simp at joining

variable {s : LoweringState}

theorem passCopy_unrefused {use : LocalId → Edit NodeId} :
    passCopy settings id index ty value use s ≠ .error (.refusal refusal) t := by
  intro failed
  simp only [passCopy, bind_error_iff, lift_step_edit_refused, and_false, exists_false, or_false] at failed
  exact Step.structCopy_unrefused settings ty s t refusal failed

theorem decompose_unrefused (settings : Settings) (id : CallId) (index : Nat)
    (value : NodeId) (pieces : List Piece) (t : LoweringState) (refusal : Refusal) :
    decompose settings id index ty value pieces s ≠ .error (.refusal refusal) t := by
  intro failed
  simp only [decompose, bind_error_iff, lift_step_edit_refused, lift_step_edit_ok_iff, false_or] at failed
  obtain ⟨node, _, _, failed⟩ := failed
  cases kind : node.kind with
  | fieldList uses => simp [kind] at failed
  | readLocal var => simp [kind, bind_error_iff] at failed
  | readField var offset => simp [kind, bind_error_iff] at failed
  | load addr nonFaulting =>
    simp only [kind, bind_error_iff, lift_step_edit_refused, lift_attempt_error_iff, and_false, exists_false,
      or_false] at failed
    obtain ⟨q, loading, _⟩ := failed
    exact loadFields_unrefused id addr nonFaulting pieces q refusal loading
  | _ =>
    simp only [kind] at failed
    exact passCopy_unrefused failed

theorem shapeArgs_unrefused : shapeArgs settings id s ≠ .error (.refusal refusal) t := by
  intro failed
  simp only [shapeArgs, bind_error_iff, lift_step_edit_refused, false_or] at failed
  obtain ⟨data, m, _, failed⟩ := failed
  obtain ⟨index, u, _, _, failed⟩ := forM_range_error failed
  simp only [shapeArg, bind_error_iff, lift_step_edit_refused, false_or] at failed
  obtain ⟨arg, v, _, failed⟩ := failed
  obtain ⟨early, late, role, ty, placement, flags, temp⟩ := arg
  cases ty with
  | struct struct =>
    cases early with
    | none => exact pure_error_iff.mp failed
    | some value =>
      cases late with
      | some late => exact pure_error_iff.mp failed
      | none =>
        simp only [bind_error_iff, lift_fault_refused, false_or] at failed
        obtain ⟨layout, _, _, failed⟩ := failed
        split at failed
        · exact passCopy_unrefused failed
        · split at failed
          · simp only [bind_error_iff, lift_fault_refused, false_or] at failed
            obtain ⟨pieces, _, _, failed⟩ := failed
            exact decompose_unrefused settings id index value pieces t refusal failed
          · exact pure_error_iff.mp failed
  | _ => exact pure_error_iff.mp failed

end Shape

namespace Interference

theorem analyse_refused {proc : Procedure} (failed : analyse settings id proc data = .error (.refusal refusal)) :
    isGuarded settings data = true ∧ data.args.thisIndex = none
      ∧ refusal = .inconsistent id .checkedDispatchWithoutThis := by
  simp only [analyse, except_bind_error_iff, lift_except_refused, false_or] at failed
  obtain ⟨summaries, _, failed⟩ := failed
  split at failed
  · rcases (except_bind_error_iff _ _ _).mp failed with blocking | ⟨_, _, failed⟩
    · exact ((lift_except_refused).mp blocking).elim
    · split at failed
      · split at failed
        · cases failed
        · cases failed
          exact ⟨‹_›, ‹_›, rfl⟩
      · cases failed
  · split at failed
    · split at failed
      · cases failed
      · cases failed
        exact ⟨‹_›, ‹_›, rfl⟩
    · cases failed

theorem complete_refused (here : p.calls[id]? = some data) (finalized : data.args.stage = .finalized)
    (failed : complete settings id p = .error (.refusal refusal) q) :
    isGuarded settings data = true ∧ data.args.thisIndex = none
      ∧ refusal = .inconsistent id .checkedDispatchWithoutThis := by
  rw [complete, Edit.call_first here] at failed
  simp only [finalized, ne_eq, not_true_eq_false, if_false, bind_error_iff, get_error_iff, get_ok_iff,
    lift_stop_error_iff, lift_edit_refused, and_false, exists_false, or_false, false_or] at failed
  obtain ⟨_, _, ⟨rfl, rfl⟩, refused, _⟩ := failed
  exact analyse_refused refused

end Interference

namespace Materialize

open Edit

section Refused

variable {settings : Settings} {id : CallId} {p q : Procedure} {refusal : Refusal}

theorem tempType_void {valueTy : ValueType} (isVoid : tempType ty valueTy = .void) : valueTy = .void := by
  unfold tempType at isVoid
  split at isVoid
  · rename_i isStruct
    rw [isVoid] at isStruct
    cases isStruct
  · cases valueTy <;> first | rfl | cases isVoid

theorem toTemps_refused (failed : toTemps settings id index arg value p = .error (.refusal refusal) q) :
    q = p ∧ refusal = .inconsistent id (.noValue index)
      ∧ ∃ node, p.nodes[value]? = some node ∧ node.ty = .void := by
  simp only [toTemps, bind_error_iff, lift_edit_refused, lift_edit_ok_iff, ask_ok_iff, false_or] at failed
  obtain ⟨spread, _, ⟨_, rfl⟩, failed⟩ := failed
  cases spread with
  | some fields =>
    simp only [bind_error_iff, lift_edit_refused, and_false, exists_false, or_self] at failed
  | none =>
    simp only [bind_error_iff, lift_edit_refused, lift_edit_ok_iff, false_or] at failed
    obtain ⟨node, _, found, failed⟩ := failed
    obtain ⟨here, rfl⟩ := node_ok found
    rcases (when_bind_error_iff _ _).mp failed with ⟨isVoid, refused⟩ | ⟨_, _, failed⟩
    · obtain ⟨same, rfl⟩ := refuse_error_iff.mp refused
      cases same
      exact ⟨rfl, rfl, node, here, tempType_void isVoid⟩
    · simp only [bind_error_iff, lift_edit_refused, and_false, exists_false, or_self] at failed

theorem materializeArg_refused (here : p.calls[id]? = some data)
    (present : ∀ arg ∈ data.args.args, arg.value.isSome = true)
    (failed : materializeArg settings id data.flags.retbufAsLocal index p = .error (.refusal refusal) q) :
    q = p ∧ data.Unmovable p id refusal := by
  simp only [materializeArg, bind_error_iff, lift_edit_refused, lift_edit_ok_iff, false_or] at failed
  obtain ⟨arg, _, found, failed⟩ := failed
  obtain ⟨same, atSame, atIndex, rfl⟩ := arg_ok found
  cases here.symm.trans atSame
  have mem := List.mem_of_getElem? atIndex
  split at failed
  · exact (pure_error_iff.mp failed).elim
  · rename_i loose
    have loose : arg.late = none := by simpa using loose
    cases early : arg.early with
    | none =>
      have nothing := present arg mem
      simp [Argument.value, early, loose] at nothing
    | some value =>
      simp only [early] at failed
      split at failed
      · rename_i marked
        rcases (when_bind_error_iff _ _).mp failed with ⟨buffer, refused⟩ | ⟨_, allowed, storing⟩
        · obtain ⟨same, rfl⟩ := refuse_error_iff.mp refused
          cases same
          obtain ⟨isBuffer, asLocal⟩ := Bool.and_eq_true_iff.mp buffer
          exact ⟨rfl, .returnBuffer arg mem asLocal (of_decide_eq_true isBuffer) marked⟩
        · split at allowed
          · exact (refuse_ok_iff.mp allowed).elim
          · subst allowed
            simp only [bind_error_iff, pure_error_iff, and_false, exists_false, or_false] at storing
            obtain ⟨rfl, rfl, node, atValue, isVoid⟩ := toTemps_refused storing
            exact ⟨rfl, .voidValue index arg value node atIndex marked early atValue isVoid⟩
      · split at failed
        · simp only [bind_error_iff, lift_edit_refused, pure_error_iff, and_false, exists_false,
            or_self] at failed
        · exact (pure_error_iff.mp failed).elim

theorem Settled.present {after : Argument} (settled : Settled arg after) : after.value.isSome = true := by
  cases settled with
  | ready late => simp [Argument.value, late]
  | pinned value early late temp flags => rfl
  | moved value => rfl
  | kept value has => simp [Argument.value, has]

theorem materializeArgs_refused (here : p.calls[id]? = some data)
    (present : ∀ arg ∈ data.args.args, arg.value.isSome = true)
    (failed : materializeArgs settings id data.flags.retbufAsLocal order p = .error (.refusal refusal) q) :
    ∃ now, q.calls[id]? = some now ∧ now.Unmovable q id refusal := by
  induction order generalizing p data with
  | nil => exact (pure_error_iff.mp failed).elim
  | cons index rest ih =>
    simp only [materializeArgs, bind_error_iff, pure_error_iff, and_false, exists_false, or_false] at failed
    rcases failed with failed | ⟨isLate, m, first, failed⟩
    · obtain ⟨rfl, unmovable⟩ := materializeArg_refused here present failed
      exact ⟨data, here, unmovable⟩
    · obtain ⟨same, arg, atSame, atIndex, _⟩ := materializeArg_ok first
      cases here.symm.trans atSame
      obtain ⟨after, atM, settled, _⟩ := materializeArg_slot here
        atIndex first
      have stillPresent : ∀ other ∈ data.args.args.set index after, other.value.isSome = true := by
        intro other mem
        rcases List.mem_or_eq_of_mem_set mem with old | rfl
        · exact present other old
        · exact settled.present
      exact ih atM stillPresent failed

theorem materialize_refused (here : p.calls[id]? = some data)
    (completed : data.args.stage = .completed) (present : ∀ arg ∈ data.args.args, arg.value.isSome = true)
    (failed : materialize settings id order p = .error (.refusal refusal) q) :
    ∃ now, q.calls[id]? = some now ∧ now.Unmovable q id refusal := by
  rw [materialize, call_first here] at failed
  simp only [completed, ne_eq, not_true_eq_false, if_false, bind_error_iff, lift_edit_refused, and_false,
    exists_false, or_false] at failed
  exact materializeArgs_refused here present failed

end Refused

end Materialize

end CallLowering
