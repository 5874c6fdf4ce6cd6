import CallLowering.Proofs.DressedCalls

/-! Finalizing is transparent to the signature. -/

namespace CallLowering

open List

variable {role : ArgRole} {index : Nat}

variable (triple : Triple)

theorem ArgList.afterThis_le (list : ArgList) : list.afterThis ≤ list.args.length := by
  unfold afterThis
  split
  · rename_i index isThis
    exact (findIdx?_eq_some_iff_getElem.mp isThis).1
  · exact Nat.zero_le _

theorem ArgList.findRole_isSome_iff {list : ArgList} :
    (list.findRole role).isSome = true ↔ role ∈ list.args.map Argument.role := by
  rw [findRole_eq, findIdx?_isSome, any_eq_true]
  simp

namespace Target

theorem customReg_added (own : role.isAdded = false) : (ofTriple triple).customReg role = none := by
  obtain ⟨architecture, os⟩ := triple
  cases architecture <;> cases os <;> cases role <;> first | rfl | cases own

theorem customReg_wrapperCell : ((ofTriple triple).customReg .wrapperCell).isSome = true := by
  obtain ⟨architecture, os⟩ := triple
  cases architecture <;> cases os <;> rfl

end Target

namespace Call

theorem cellRoles_added (data : Call) (mem : role ∈ data.cellRoles) : role.isAdded = true := by
  simp only [cellRoles, mem_append] at mem
  rcases mem with (wrapper | stub) | r2r
  · split at wrapper
    · rw [mem_singleton.mp wrapper]
      rfl
    · cases wrapper
  · split at stub
    · rw [mem_singleton.mp stub]
      rfl
    · cases stub
  · split at r2r
    · rw [mem_singleton.mp r2r]
      rfl
    · cases r2r

theorem routing_added (data : Call) (cell : ArgRole × NodeId) (mem : cell ∈ data.routing) :
    cell.1.isAdded = true := by
  unfold routing at mem
  split at mem
  · rcases mem_cons.mp mem with rfl | later
    · rfl
    · rw [mem_singleton.mp later]
      rfl
  · cases mem

variable {data : Call} {cells : List (ArgRole × NodeId)}

theorem dress_mem_roles (added : ∀ cell ∈ cells, cell.1.isAdded = true) (own : role.isAdded = false) :
    role ∈ (data.dress cells).args.args.map Argument.role ↔ role ∈ data.args.args.map Argument.role := by
  have hidden : ∀ cells : List (ArgRole × NodeId), (∀ cell ∈ cells, cell.1.isAdded = true) →
      role ∉ (cells.map Argument.ofCell).map Argument.role := by
    intro cells each mem
    obtain ⟨arg, there, rfl⟩ := mem_map.mp mem
    obtain ⟨cell, among, rfl⟩ := mem_map.mp there
    cases own.symm.trans (each cell among)
  have inner := hidden (cells.filter fun cell => cell.1 == .wrapperCell)
    fun cell mem => added cell (mem_filter.mp mem).1
  have outer := hidden (data.routing ++ cells.filter fun cell => cell.1 != .wrapperCell)
    (forall_mem_append.mpr ⟨data.routing_added,
      fun cell mem => added cell (mem_filter.mp mem).1⟩)
  have parts : role ∈ (data.args.args.take data.args.afterThis).map Argument.role
      ∨ role ∈ (data.args.args.drop data.args.afterThis).map Argument.role
      ↔ role ∈ data.args.args.map Argument.role := by
    rw [← mem_append, ← map_append, take_append_drop]
  rw [← parts]
  simp only [dress, withArgs, map_append (f := Argument.role), mem_append, inner, outer, or_false]

theorem dress_thisIndex (cells : List (ArgRole × NodeId))
    (isThis : data.args.thisIndex = some index) : (data.dress cells).args.thisIndex = some index := by
  have position : data.args.afterThis = index + 1 := by rw [ArgList.afterThis, isThis]
  have front : (data.args.args.take (index + 1)).findIdx? (fun arg => arg.role == .thisPointer)
      = some index := by
    rw [findIdx?_take, show data.args.args.findIdx? _ = some index from isThis]
    simp
  simp only [ArgList.thisIndex, ArgList.findRole, dress, withArgs, position, append_assoc,
    findIdx?_append, front, Option.some_or]

theorem Plain.dress_hidden (plain : data.Plain)
    (single : (cells.filter fun cell => cell.1 == .wrapperCell).length ≤ 1) {arg : Argument}
    (here : (data.dress cells).args.args[index]? = some arg) (added : arg.flags.lateAdded = true) :
    (∃ cell ∈ cells, cell.1 = .wrapperCell ∧ arg.role = .wrapperCell) ∧ index = data.args.afterThis
      ∨ ∀ (other : Nat) (earlier : Argument), (data.dress cells).args.args[other]? = some earlier →
        earlier.flags.lateAdded = false → other < index := by
  have noOwn : arg ∉ data.args.args := fun mem => by
    rw [(plain.own arg mem).1] at added
    cases added
  simp only [dress, withArgs] at here ⊢
  generalize inner : (cells.filter fun cell => cell.1 == .wrapperCell).map Argument.ofCell = middle at here ⊢
  generalize outer : (data.routing ++ cells.filter fun cell => cell.1 != .wrapperCell).map Argument.ofCell
    = last at here ⊢
  have front : (data.args.args.take data.args.afterThis).length = data.args.afterThis :=
    length_take_of_le data.args.afterThis_le
  by_cases before : index < (data.args.args.take data.args.afterThis ++ middle
      ++ data.args.args.drop data.args.afterThis).length
  · rw [getElem?_append_left before, append_assoc] at here
    by_cases atFront : index < data.args.afterThis
    · rw [getElem?_append_left (by rw [front]; exact atFront)] at here
      exact absurd (mem_of_mem_take (mem_of_getElem? here)) noOwn
    rw [getElem?_append_right (by rw [front]; exact Nat.le_of_not_lt atFront), front] at here
    by_cases atMiddle : index - data.args.afterThis < middle.length
    · rw [getElem?_append_left atMiddle] at here
      have mem := mem_of_getElem? here
      rw [← inner] at mem atMiddle
      obtain ⟨cell, among, rfl⟩ := mem_map.mp mem
      obtain ⟨inCells, isWrapper⟩ := mem_filter.mp among
      have role : cell.1 = .wrapperCell := by simpa using isWrapper
      rw [length_map] at atMiddle
      exact .inl ⟨⟨cell, inCells, role, role⟩, by omega⟩
    · rw [getElem?_append_right (Nat.le_of_not_lt atMiddle)] at here
      exact absurd (mem_of_mem_drop (mem_of_getElem? here)) noOwn
  · refine .inr fun other earlier there own => ?_
    by_contra behind
    rw [getElem?_append_right (Nat.le_trans (Nat.le_of_not_lt before) (Nat.le_of_not_lt behind))] at there
    have mem := mem_of_getElem? there
    rw [← outer] at mem
    obtain ⟨cell, _, rfl⟩ := mem_map.mp mem
    cases own

end Call

namespace AbiInfo

section Placing

variable {target : Target} {args : List Argument}

theorem assign_convention {out : List Argument} {placements : List Placement}
    (assigned : assign target args placements = some out) :
    (byConvention target out).map Argument.placement = placements.take (byConvention target args).length := by
  induction args generalizing placements out with
  | nil =>
    cases assigned
    simp [byConvention]
  | cons arg rest ih =>
    cases custom : target.customReg arg.role with
    | some reg =>
      simp only [assign, custom] at assigned
      obtain ⟨later, found, rfl⟩ := Option.map_eq_some_iff.mp assigned
      have rest := ih found
      simpa only [byConvention, filter_cons, custom, Option.isNone_some, Bool.false_eq_true, if_false]
        using rest
    | none =>
      cases placements with
      | nil => simp [assign, custom] at assigned
      | cons placement others =>
        simp only [assign, custom] at assigned
        obtain ⟨later, found, rfl⟩ := Option.map_eq_some_iff.mp assigned
        have rest := ih found
        simp only [byConvention, filter_cons, custom, Option.isNone_none, if_true, map_cons,
          length_cons, take_succ_cons] at rest ⊢
        rw [rest]

theorem convention_first {base : Call} (plain : base.Plain)
    {cells : List (ArgRole × NodeId)} (same : args.map (fun arg => (arg.role, arg.flags))
      = (base.dress cells).args.args.map fun arg => (arg.role, arg.flags)) :
    ∃ rest, byConvention (.ofTriple triple) args = args.filter (fun arg => !arg.flags.lateAdded) ++ rest := by
  simp only [Call.dress, Call.withArgs] at same
  rw [map_append] at same
  obtain ⟨early, late, rfl, sameEarly, sameLate⟩ := map_eq_append_iff.mp same
  have agree : ∀ arg ∈ early,
      (!arg.flags.lateAdded) = ((Target.ofTriple triple).customReg arg.role).isNone := by
    intro arg mem
    have view := mem_map_of_mem (f := fun arg : Argument => (arg.role, arg.flags)) mem
    rw [sameEarly] at view
    obtain ⟨before, there, sameView⟩ := mem_map.mp view
    obtain ⟨sameRole, sameFlags⟩ := Prod.mk.inj sameView
    rw [← sameRole, ← sameFlags]
    have own : before ∈ base.args.args → (!before.flags.lateAdded)
        = ((Target.ofTriple triple).customReg before.role).isNone := fun among => by
      obtain ⟨shown, noCell⟩ := plain.own before among
      rw [shown, Target.customReg_added triple noCell]
      rfl
    rcases mem_append.mp there with front | back
    · rcases mem_append.mp front with front | cell
      · exact own (mem_of_mem_take front)
      · obtain ⟨given, among, rfl⟩ := mem_map.mp cell
        have isWrapper : given.1 = .wrapperCell := by simpa using (mem_filter.mp among).2
        have custom := Option.isNone_eq_false_iff.mpr (Target.customReg_wrapperCell triple)
        change false = ((Target.ofTriple triple).customReg given.1).isNone
        rw [isWrapper, custom]
    · exact own (mem_of_mem_drop back)
  have noneLate : late.filter (fun arg => !arg.flags.lateAdded) = [] := by
    refine filter_eq_nil_iff.mpr fun arg mem => ?_
    have view := mem_map_of_mem (f := fun arg : Argument => (arg.role, arg.flags)) mem
    rw [sameLate] at view
    obtain ⟨before, there, sameView⟩ := mem_map.mp view
    obtain ⟨cell, _, rfl⟩ := mem_map.mp there
    rw [← (Prod.mk.inj sameView).2]
    simp [Argument.ofCell, Argument.hidden]
  refine ⟨byConvention (.ofTriple triple) late, ?_⟩
  rw [byConvention, filter_append, filter_append, noneLate, append_nil,
    filter_congr agree]
  rfl

end Placing

namespace Finalized

variable {settings : Settings} {id : CallId} {data : Call} {p q : Procedure}
  (run : Finalized settings id data p q)

theorem callShape_dress : callShape (run.base.dress run.cells) = callShape data := by
  have added : ∀ cell ∈ run.cells, cell.1.isAdded = true := fun cell mem =>
    data.cellRoles_added (run.roles ▸ mem_map_of_mem mem)
  have sameRole : ∀ role : ArgRole, role.isAdded = false →
      ((run.base.dress run.cells).args.findRole role).isSome = (data.args.findRole role).isSome := by
    intro role own
    rw [Bool.eq_iff_iff, ArgList.findRole_isSome_iff, ArgList.findRole_isSome_iff,
      Call.dress_mem_roles added own, run.handed.map Argument.role fun _ _ => rfl]
  have dressed := run.base.dress_rest run.cells
  have handed := run.handed.rest
  have flags : (run.base.dress run.cells).flags = data.flags :=
    (congrArg Call.flags dressed).trans (congrArg Call.flags handed :)
  have convention : (run.base.dress run.cells).convention = data.convention :=
    (congrArg Call.convention dressed).trans (congrArg Call.convention handed :)
  simp only [callShape, Call.isVarargs, Call.hasThis, Call.hasReturnBuffer, ArgList.thisIndex, flags,
    convention, sameRole .thisPointer rfl, sameRole .returnBuffer rfl]

theorem callShape_final : callShape run.final = callShape data := by
  rw [← run.callShape_dress]
  simp only [callShape, Call.isVarargs, Call.hasThis, Call.hasReturnBuffer, ArgList.thisIndex,
    ArgList.findRole_eq, run.args_map Argument.role fun _ _ => rfl]
  rfl

theorem hidden_apart (plain : data.Plain) (index : Nat) (arg : Argument)
    (here : run.final.args.args[index]? = some arg) (added : arg.flags.lateAdded = true) :
    arg.role = .wrapperCell ∧ (∃ before, run.final.args.thisIndex = some before ∧ index = before + 1)
      ∨ ∀ (other : Nat) (earlier : Argument), run.final.args.args[other]? = some earlier →
        earlier.flags.lateAdded = false → other < index := by
  have basePlain := run.handed.plain plain
  have single : (run.cells.filter fun cell => cell.1 == .wrapperCell).length ≤ 1 := by
    have count : (data.cellRoles.filter (· == .wrapperCell)).length ≤ 1 := by
      unfold Call.cellRoles
      split <;> split <;> split <;> decide
    rw [← run.roles, filter_map, length_map] at count
    exact count
  -- An argument has its role and flags from before it was placed.
  have placed : ∀ (index : Nat) (arg : Argument), run.final.args.args[index]? = some arg →
      ∃ before, (run.base.dress run.cells).args.args[index]? = some before ∧ before.role = arg.role
        ∧ before.flags = arg.flags := by
    intro index arg here
    have views := congrArg (·[index]?) (run.args_map (fun arg => (arg.role, arg.flags)) fun _ _ => rfl)
    simp only [getElem?_map, here, Option.map_some] at views
    obtain ⟨before, there, sameView⟩ := Option.map_eq_some_iff.mp views.symm
    exact ⟨before, there, (Prod.mk.inj sameView).1, (Prod.mk.inj sameView).2⟩
  obtain ⟨before, there, sameRole, sameFlags⟩ := placed index arg here
  rcases basePlain.dress_hidden single there (sameFlags ▸ added) with
    ⟨⟨cell, mem, isWrapper, role⟩, position⟩ | behind
  · refine .inl ⟨sameRole ▸ role, ?_⟩
    have provided := run.dressed.provided cell mem
    rw [isWrapper, Call.provides, Bool.and_eq_true_iff] at provided
    obtain ⟨value, isValue⟩ := Option.isSome_iff_exists.mp provided.1
    obtain ⟨_, found, _⟩ := Option.bind_eq_some_iff.mp isValue
    obtain ⟨first, isThis, _⟩ := Option.bind_eq_some_iff.mp found
    have baseThis : run.base.args.thisIndex = some first := by
      rw [ArgList.thisIndex, ArgList.findRole_eq, run.handed.map Argument.role fun _ _ => rfl,
        ← ArgList.findRole_eq]
      exact isThis
    refine ⟨first, ?_, by rw [position, ArgList.afterThis, baseThis]⟩
    rw [← Call.dress_thisIndex run.cells baseThis, ArgList.thisIndex, ArgList.findRole_eq,
      run.args_map Argument.role fun _ _ => rfl, ← ArgList.findRole_eq]
    rfl
  · refine .inr fun other earlier atOther own => ?_
    obtain ⟨earlier', there', _, sameFlags'⟩ := placed other earlier atOther
    exact behind other earlier' there' (sameFlags' ▸ own)

theorem ownArgs_placements (shipped : settings.target = .ofTriple triple) (plain : data.Plain) :
    ∃ shapes answer, data.args.args.mapM (argShape settings.types) = .ok shapes
      ∧ settings.target.classify (callShape data) shapes = .ok answer
      ∧ run.final.ownArgs.map Argument.placement = answer.placements := by
  have basePlain := run.handed.plain plain
  obtain ⟨others, before⟩ := convention_first triple basePlain rfl
  rw [show (run.base.dress run.cells).args.args.filter _ = _ from basePlain.dress_ownArgs run.cells] at before
  -- The shapes of the signature come first among the shapes, so their answers come first.
  obtain ⟨shapes, rest, ownShaped, allShapes⟩ : ∃ shapes rest,
      run.base.args.args.mapM (argShape settings.types) = .ok shapes ∧ run.placing.shapes = shapes ++ rest := by
    have shaped := run.placing.shaped
    rw [run.same, shipped] at shaped
    change (byConvention (.ofTriple triple) _).mapM _ = _ at shaped
    rw [before, mapM_append] at shaped
    obtain ⟨shapes, ownShaped, shaped⟩ := except_bind_ok_iff.mp shaped
    obtain ⟨rest, _, shaped⟩ := except_bind_ok_iff.mp shaped
    exact ⟨shapes, rest, ownShaped, (Except.ok.inj shaped).symm⟩
  have classified := run.placing.classified
  rw [run.same, run.callShape_dress, shipped, allShapes] at classified
  obtain ⟨stackSize, alone⟩ := Target.classify_take triple _ _ _ shapes.length classified
  rw [take_left] at alone
  refine ⟨shapes, _, ?_, shipped ▸ alone, ?_⟩
  · have shape : ∀ args : List Argument, args.mapM (argShape settings.types)
        = (args.map Argument.bare).mapM (argShape settings.types) := fun args => by
      rw [mapM_map]
      rfl
    rw [shape, ← run.handed.map Argument.bare fun _ _ => rfl, ← shape]
    exact ownShaped
  · have sameTags := run.args_map (fun arg => (arg.role, arg.flags)) fun _ _ => rfl
    obtain ⟨further, after⟩ := convention_first triple basePlain sameTags
    have counted : run.final.ownArgs.length = shapes.length := by
      have lengths := congrArg List.length (run.ownArgs_unplaced plain)
      rw [length_map] at lengths
      exact lengths.trans (mapM_except_ok_iff.mp ownShaped).length_eq
    have asked : run.placing.answer.placements.length
        = (byConvention (.ofTriple triple) (run.base.dress run.cells).args.args).length := by
      have shaped := run.placing.shaped
      rw [run.same, shipped] at shaped
      exact run.placing.counted.trans (mapM_except_ok_iff.mp shaped).length_eq.symm
    have assigned := run.placing.assigned
    rw [run.same, shipped] at assigned
    have answers : (byConvention (.ofTriple triple) run.final.args.args).map Argument.placement
        = run.placing.answer.placements := by
      rw [show run.final.args.args = run.placing.args from rfl, assign_convention assigned, ← asked,
        take_length]
    rw [after, map_append] at answers
    rw [← answers, ← counted]
    exact (take_left' (length_map _)).symm

end Finalized

-- Without the hidden arguments and the places, the call is as it came, but for a this-pointer that was
-- spilled; the hidden arguments stand after the this-pointer or behind all others; and the arguments of
-- the signature have the places that the classifier gives to them alone.
theorem signature_outlasts_finalizing (settings : Settings) (triple : Triple) (id : CallId) (data : Call)
    (p q : Procedure) (shipped : settings.target = .ofTriple triple) (plain : data.Plain)
    (here : p.calls[id]? = some data) (done : finalize settings id p = .ok () q) :
    ∃ final base, q.calls[id]? = some final
      ∧ data.Handed (data.flags.wrapperDelegate = true) p q base
      ∧ final.ownArgs.map Argument.unplaced = base.args.args
      ∧ (∀ (index : Nat) (arg : Argument), final.args.args[index]? = some arg → arg.flags.lateAdded = true →
        arg.role = .wrapperCell ∧ (∃ before, final.args.thisIndex = some before ∧ index = before + 1)
          ∨ ∀ (other : Nat) (earlier : Argument), final.args.args[other]? = some earlier →
            earlier.flags.lateAdded = false → other < index)
      ∧ callShape final = callShape data
      ∧ ∃ shapes answer, data.args.args.mapM (argShape settings.types) = .ok shapes
        ∧ settings.target.classify (callShape data) shapes = .ok answer
        ∧ final.ownArgs.map Argument.placement = answer.placements := by
  obtain ⟨run⟩ := finalize_finalized here plain.unfinalized done
  exact ⟨run.final, run.base, run.here, run.handed, run.ownArgs_unplaced plain, run.hidden_apart plain,
    run.callShape_final, run.ownArgs_placements triple shipped plain⟩

theorem cookie_delegate_keeps_signature :
    cookieDelegateBuilt.calls[1]? = some cookieDelegate.toCall
      ∧ finalize onX86 1 cookieDelegateBuilt = .ok () cookieDelegateFinalized
      ∧ ∃ final base : Call, cookieDelegateFinalized.calls[1]? = some final
        ∧ final.args.args.map Argument.role = [.thisPointer, .wrapperCell, .ordinary, .ordinary,
          .pinvokeCookie, .pinvokeTarget, .stubCell]
        ∧ cookieDelegate.toCall.Handed (cookieDelegate.toCall.flags.wrapperDelegate = true)
          cookieDelegateBuilt cookieDelegateFinalized base
        ∧ final.ownArgs.map Argument.unplaced = base.args.args
        ∧ ∃ shapes answer, cookieDelegate.toCall.args.args.mapM (argShape {}) = .ok shapes
          ∧ X86.classify (callShape cookieDelegate.toCall) shapes = .ok answer
          ∧ final.ownArgs.map Argument.placement = answer.placements := by
  have here : cookieDelegateBuilt.calls[1]? = some cookieDelegate.toCall := by decide +kernel
  have done : finalize onX86 1 cookieDelegateBuilt = .ok () cookieDelegateFinalized :=
    ok_of_answerOf _ _ (by decide +kernel)
  obtain ⟨final, base, atFinal, handed, own, _, _, alone⟩ := signature_outlasts_finalizing onX86
    ⟨.x86, .windows⟩ 1 _ _ _ rfl cookieDelegate.toCall_plain here done
  have roles : cookieDelegateFinalized.calls[1]?.map (fun data : Call => data.args.args.map Argument.role)
      = some [.thisPointer, .wrapperCell, .ordinary, .ordinary, .pinvokeCookie, .pinvokeTarget,
        .stubCell] := by decide +kernel
  rw [atFinal] at roles
  exact ⟨here, done, final, base, atFinal, Option.some.inj roles, handed, own, alone⟩

end AbiInfo

end CallLowering
