import CallLowering.Proofs.LawfulLists
import CallLowering.Proofs.Pinning
import CallLowering.Proofs.Scheduling

/-! What shaping, analysing, scheduling and materializing do to the list of a call, wherever they end. -/

namespace CallLowering

open List

variable {value addr start : NodeId} {index : Nat} {known : Option Settings} {settings : Settings}

-- Other nodes, temps and flags in a list whose stage and order stay.
structure Call.Recast (before after : Call) : Prop extends before.Frozen after where
  stage : after.args.stage = before.args.stage
  lateOrder : after.args.lateOrder = before.args.lateOrder

namespace Call

theorem Recast.refl (data : Call) : data.Recast data := ⟨.refl data, rfl, rfl⟩

theorem Recast.trans {a b c : Call} (first : a.Recast b) (second : b.Recast c) : a.Recast c :=
  ⟨first.toFrozen.trans second.toFrozen, second.stage.trans first.stage,
    second.lateOrder.trans first.lateOrder⟩

theorem recast_withArgs (data : Call) {args : List Argument}
    (fixed : args.map Argument.fixed = data.args.args.map Argument.fixed) : data.Recast (data.withArgs args) :=
  ⟨⟨rfl, rfl, fixed, rfl, rfl, rfl⟩, rfl, rfl⟩

theorem recast_set (data : Call) {arg after : Argument} (atIndex : data.args.args[index]? = some arg)
    (fixed : after.fixed = arg.fixed) : data.Recast (data.withArgs (data.args.args.set index after)) := by
  refine data.recast_withArgs ?_
  obtain ⟨bound, rfl⟩ := List.getElem?_eq_some_iff.mp atIndex
  apply List.ext_getElem (by simp)
  intro other _ _
  simp only [List.getElem_map, List.getElem_set]
  split
  · rename_i same
    subst same
    exact fixed
  · rfl

theorem LawfulIn.recast {before after : Call} (lawful : before.LawfulIn known settings)
    (recast : before.Recast after) (finalized : before.args.stage.isFinalized = true)
    (unsettled : before.args.stage ≠ .materialized) : after.LawfulIn known settings := by
  have isPlaced := Stage.isFinalized_iff.mp finalized
  refine ⟨lawful.law.frozen recast.toFrozen isPlaced (recast.stage ▸ isPlaced) (fun _ => ?_) fun isLast => ?_,
    fun fresh => absurd (recast.stage ▸ fresh) isPlaced⟩
  · rw [recast.lateOrder]
    exact lawful.law.unordered unsettled
  · exact absurd (recast.stage ▸ isLast) unsettled

end Call

namespace Site

variable {site : Site} {held : Call → Prop} {base : Call} {p : Procedure} {s : LoweringState}
  {allowed : Stop → Prop} {ty : ValueType}

open Call Edit

namespace Holds

theorem setSlot (holds : site.Holds base.Recast p) {step : Argument → Argument}
    (low : ∀ arg id, (step arg).early = some id ∨ (step arg).late = some id →
      arg.early = some id ∨ arg.late = some id ∨ site.Low p id) (fixed : ∀ arg, (step arg).fixed = arg.fixed) :
    Ends (Edit.modifyArg site.call index step p) (fun _ q => site.Holds base.Recast q) Spares :=
  holds.modifyArg low fun data arg recast atIndex => recast.trans (data.recast_set atIndex (fixed arg))

theorem setCopy (holds : site.Holds base.Recast p) {copy : LocalId} {early late : NodeId}
    (earlyLow : site.Low p early) (lateLow : site.Low p late) :
    Ends (Shape.setCopy site.call index copy early late p) (fun _ q => site.Holds base.Recast q) Spares := by
  refine holds.setSlot ?_ fun _ => rfl
  rintro arg id (⟨⟨⟩⟩ | ⟨⟨⟩⟩)
  · exact .inr (.inr earlyLow)
  · exact .inr (.inr lateLow)

theorem setEarly (holds : site.Holds base.Recast p) (low : site.Low p value) :
    Ends (Shape.setEarly site.call index value p) (fun _ q => site.Holds base.Recast q) Spares := by
  refine holds.setSlot ?_ fun _ => rfl
  rintro arg id (⟨⟨⟩⟩ | late)
  · exact .inr (.inr low)
  · exact .inr (.inl late)

section Fields

variable (holds : site.Holds held p)

include holds

theorem localFields (var : LocalId) (start : Nat) (pieces : List Piece) :
    Ends (Shape.localFields var start pieces p) (site.Makes held p) Spares := by
  refine Ends.bind (Ends.mapM (site.Grows held p) (fun use q => site.Low q use.node) ?_ (.refl holds)) ?_
  · intro piece _ m grown
    refine Ends.bind (ask_ends (Word.add_avoids)) ?_
    rintro offset _ ⟨rfl, _⟩
    refine Ends.bind (grown.holds.addLeaf rfl rfl) ?_
    rintro read n ⟨more, low, _⟩
    exact ⟨grown.trans more, low, fun _ known => more.low known⟩
  · rintro uses m ⟨grown, low, _⟩
    exact grown.makes (grown.holds.addList low)

theorem fieldAddr (low : site.Low p start) {offset : Nat} :
    Ends (Shape.fieldAddr start offset p) (site.Makes held p) Spares := by
  unfold Shape.fieldAddr
  split
  · exact ⟨.refl holds, low⟩
  · refine Ends.bind (holds.addLeaf rfl rfl) ?_
    rintro amount m ⟨first, amountLow, _⟩
    exact first.makes (first.holds.addPair (first.low low) amountLow rfl rfl)

theorem pieceBase (low : site.Low p start) (index : Nat) :
    Ends (Shape.pieceBase site.call start index p) (site.Makes held p) (Leaves allowed (site.Holds held)) := by
  unfold Shape.pieceBase
  split
  · exact ⟨.refl holds, low⟩
  · refine Ends.bind (Ends.edit (holds.cloneSimple low)) ?_
    rintro copy m ⟨grown, copyLow⟩
    cases copy with
    | none => exact Ends.refuse grown.holds
    | some clone => exact ⟨grown, copyLow clone rfl⟩

theorem loadPiece (low : site.Low p start) (nonFaulting : Bool) (index : Nat) (piece : Piece) :
    Ends (Shape.loadPiece site.call start nonFaulting index piece p)
      (fun use => site.Makes held p use.node) (Leaves allowed (site.Holds held)) := by
  refine Ends.bind (holds.pieceBase low index) ?_
  rintro addr m ⟨grown, addrLow⟩
  refine Ends.edit (Ends.bind (grown.holds.fieldAddr addrLow) ?_)
  rintro field n ⟨more, fieldLow⟩
  refine Ends.bind (more.holds.addOver fieldLow rfl rfl) ?_
  rintro load q ⟨last, loadLow⟩
  exact ⟨(grown.trans more).trans last, loadLow⟩

theorem hoistAddr (low : site.Low p addr) :
    Ends (Shape.hoistAddr addr p) (fun result q => site.Grows held p q ∧ site.Low q result.2
      ∧ ∀ store, result.1 = some store → site.Low q store) Spares := by
  refine Ends.bind (node_ends addr) ?_
  rintro node _ ⟨rfl, _⟩
  split
  · exact ⟨.refl holds, low, by simp⟩
  · refine Ends.bind (holds.addLocal _) fun temp m₁ first => ?_
    refine Ends.bind (first.holds.addOver (first.low low) rfl rfl) ?_
    rintro store m₂ ⟨second, storeLow⟩
    refine Ends.bind (second.holds.addLeaf rfl rfl) ?_
    rintro read m₃ ⟨third, readLow, _⟩
    refine ⟨(first.trans second).trans third, readLow, ?_⟩
    rintro _ ⟨⟩
    exact third.low storeLow

theorem loadFields (low : site.Low p addr) (nonFaulting : Bool) (pieces : List Piece) :
    Ends (Shape.loadFields site.call addr nonFaulting pieces p)
      (site.Makes held p) (Leaves allowed (site.Holds held)) := by
  refine Ends.bind (Ends.edit (holds.hoistAddr low)) ?_
  rintro ⟨hoisted, start⟩ m ⟨first, startLow, hoistedLow⟩
  refine Ends.bind (Ends.mapM (fun n => site.Grows held m n) (fun use q => site.Low q use.node) ?_
    (.refl first.holds)) ?_
  · rintro ⟨piece, index⟩ _ n grown
    refine (grown.holds.loadPiece (grown.low startLow) nonFaulting index piece).weaken ?_
    rintro use q ⟨more, useLow⟩
    exact ⟨grown.trans more, useLow, fun _ known => more.low known⟩
  · rintro uses n ⟨second, usesLow, _⟩
    refine Ends.bind (Ends.edit (second.holds.addList usesLow)) ?_
    rintro list q ⟨third, listLow⟩
    cases hoisted with
    | none => exact ⟨(first.trans second).trans third, listLow⟩
    | some store =>
      have storeLow := third.low (second.low (hoistedLow _ rfl))
      exact Ends.edit (((first.trans second).trans third).makes (third.holds.addPair storeLow listLow rfl rfl))

end Fields

theorem structCopy (holds : site.Holds held s.proc) (settings : Settings) (ty : ValueType)
    {left : LoweringState → Prop} :
    Ends (Step.structCopy settings ty s) (fun _ t => site.Grows held s.proc t.proc) (Leaves allowed left) := by
  have added := holds.addLocal { ty, kind := .structCopy }
  cases ran : Step.structCopy settings ty s with
  | ok var t =>
    change site.Grows held s.proc t.proc
    cases (Step.structCopy_ok ran).1 with
    | reused _ _ _ _ same _ =>
      rw [same]
      exact .refl holds
    | fresh _ _ made _ =>
      rw [made]
      exact added
  | error stop t =>
    cases Step.structCopy_error ran
    exact ⟨.inl rfl, fun _ isRefusal => by cases isRefusal⟩

section Shapes

variable (holds : site.Holds base.Recast s.proc) (settings : Settings)

include holds

theorem passCopy (index : Nat) (ty : ValueType) (low : site.Low s.proc value) {use : LocalId → Edit NodeId}
    (uses : ∀ copy p, site.Holds base.Recast p → Ends (use copy p) (site.Makes base.Recast p) Spares) :
    EndsIn allowed (fun t => site.Holds base.Recast t.proc)
      (Shape.passCopy settings site.call index ty value use s) := by
  refine Ends.bind (holds.structCopy settings ty) fun copy s₁ first => ?_
  refine Ends.bind (Ends.stepEdit (first.holds.addOver (first.low low) rfl rfl)) ?_
  rintro store s₂ ⟨second, storeLow⟩
  refine Ends.bind (Ends.stepEdit (uses copy s₂.proc second.holds)) ?_
  rintro late s₃ ⟨third, lateLow⟩
  exact Ends.stepEdit (third.holds.setCopy (third.low storeLow) lateLow)

theorem decompose (index : Nat) (low : site.Low s.proc value) (pieces : List Piece) :
    EndsIn allowed (fun t => site.Holds base.Recast t.proc)
      (Shape.decompose settings site.call index ty value pieces s) := by
  refine Ends.bind (Ends.stepEdit (node_ends value)) ?_
  rintro node t ⟨same, here⟩
  rw [← same] at holds low here
  have atKind := t.proc.kindAt_of here rfl
  have fromLocal : ∀ var start, EndsIn allowed (fun t => site.Holds base.Recast t.proc) ((do
      let list ← Shape.localFields var start pieces
      Shape.setEarly site.call index list : Step Unit) t) := by
    intro var start
    refine Ends.bind (Ends.stepEdit (holds.localFields var start pieces)) ?_
    rintro list u ⟨grown, listLow⟩
    exact Ends.stepEdit (grown.holds.setEarly listLow)
  cases kindEq : node.kind with
  | fieldList uses => exact holds
  | readLocal var => exact fromLocal var 0
  | readField var offset => exact fromLocal var offset
  | load addr nonFaulting =>
    rw [kindEq] at atKind
    have addrLow := holds.child_low low atKind (mem_singleton_self addr)
    refine Ends.bind (Ends.attempt (holds.loadFields addrLow nonFaulting pieces)) ?_
    rintro list u ⟨grown, listLow⟩
    exact Ends.stepEdit (grown.holds.setEarly listLow)
  | _ => exact holds.passCopy settings index ty low fun copy _ holds => holds.localFields copy 0 pieces

theorem shapeArg (index : Nat) :
    EndsIn allowed (fun t => site.Holds base.Recast t.proc) (Shape.shapeArg settings site.call index s) := by
  refine Ends.bind (Ends.stepEdit (arg_ends site.call index)) ?_
  rintro arg t ⟨same, data, here, atIndex⟩
  rw [← same] at holds here
  cases arg.ty with
  | struct struct =>
    cases early : arg.early with
    | none => exact holds
    | some value =>
      cases arg.late with
      | some late => exact holds
      | none =>
        have low := holds.arg_low here (mem_of_getElem? atIndex) (.inl early)
        refine Ends.bind (Ends.liftFault (settings.types.layoutAt_avoids struct)) ?_
        rintro layout _ ⟨rfl, _⟩
        split
        · exact holds.passCopy settings index _ low fun _ _ holds => (holds.addLeaf rfl rfl).weaken
            fun _ _ made => ⟨made.1, made.2.1⟩
        · split
          · refine Ends.bind (Ends.liftFault (Shape.pieces_avoids layout)) ?_
            rintro pieces _ ⟨rfl, _⟩
            exact holds.decompose settings index low pieces
          · exact holds
  | _ => exact holds

theorem shapeArgs :
    EndsIn allowed (fun t => site.Holds base.Recast t.proc) (Shape.shapeArgs settings site.call s) := by
  refine Ends.bind (Ends.stepEdit (call_ends site.call)) ?_
  rintro data t ⟨same, _⟩
  rw [← same] at holds
  exact Ends.forM (fun u : LoweringState => site.Holds base.Recast u.proc)
    (fun index _ _ reached => shapeArg reached settings index) holds

end Shapes

theorem fieldToTemp (holds : site.Holds held p) {field : FieldUse} (low : site.Low p field.node) :
    Ends (Materialize.fieldToTemp field p) (fun result q => site.Grows held p q ∧ site.Low q result.1
      ∧ site.origin.nodes.size ≤ result.2.node ∧ ∃ var, q.kindAt result.2.node = some (.readLocal var)) Spares := by
  refine Ends.bind (holds.addLocal _) fun temp m₁ first => ?_
  refine Ends.bind (first.holds.addOver (first.low low) rfl rfl) ?_
  rintro store m₂ ⟨second, storeLow⟩
  refine Ends.bind (second.holds.addLeaf rfl rfl) ?_
  rintro read m₃ ⟨third, _, isNew, isRead⟩
  exact ⟨(first.trans second).trans third, third.low storeLow, isNew, temp, isRead⟩

theorem sequence (holds : site.Holds held p) {nodes : List NodeId} (low : ∀ id ∈ nodes, site.Low p id) :
    Ends (Materialize.sequence nodes p) (site.Makes held p) Spares := by
  induction nodes with
  | nil =>
    refine (holds.addLeaf rfl rfl).weaken ?_
    rintro whole q ⟨grown, wholeLow, _⟩
    exact ⟨grown, wholeLow⟩
  | cons first rest ih =>
    obtain ⟨firstLow, restLow⟩ := forall_mem_cons.mp low
    cases rest with
    | nil => exact ⟨.refl holds, firstLow⟩
    | cons second others =>
      refine Ends.bind (ih restLow) ?_
      rintro chain m ⟨grown, chainLow⟩
      exact grown.makes (grown.holds.addPair (grown.low firstLow) chainLow rfl rfl)

theorem fieldsToTemps (holds : site.Holds held p) {value : Materialize.FieldValue}
    (here : p.kindAt value.list = some (.fieldList value.uses)) (listLow : site.Low p value.list)
    (hoistedLow : ∀ first, value.hoisted = some first → site.Low p first) :
    Ends (Materialize.fieldsToTemps value p) (fun early q => site.Holds held q ∧ site.Low q early
      ∧ site.Low q value.list) Spares := by
  have usesLow : ∀ use ∈ value.uses, site.Low p use.node := fun use mem =>
    holds.child_low listLow here (mem_map_of_mem mem)
  refine Ends.bind (Ends.mapM (site.Grows held p) (fun result q => site.Low q result.1
    ∧ site.origin.nodes.size ≤ result.2.node ∧ ∃ var, q.kindAt result.2.node = some (.readLocal var))
    ?_ (.refl holds)) ?_
  · intro use mem m grown
    refine (grown.holds.fieldToTemp (grown.low (usesLow use mem))).weaken ?_
    rintro result q ⟨more, storeLow, isNew, isRead⟩
    refine ⟨grown.trans more, ⟨storeLow, isNew, isRead⟩, ?_⟩
    rintro other ⟨otherLow, otherNew, var, otherRead⟩
    exact ⟨more.low otherLow, otherNew, var, more.kindAt otherRead⟩
  · rintro fields m ⟨grown, made, _⟩
    have reads : ∀ use ∈ fields.map Prod.snd, site.origin.nodes.size ≤ use.node
        ∧ ∃ var, m.kindAt use.node = some (.readLocal var) := by
      intro use mem
      obtain ⟨result, member, rfl⟩ := mem_map.mp mem
      exact (made result member).2
    refine Ends.bind (grown.holds.relist (grown.kindAt here) reads) ?_
    rintro _ n ⟨atN, size⟩
    have parts : ∀ id ∈ value.hoisted.toList ++ fields.map Prod.fst, site.Low n id := by
      intro id member
      rcases mem_append.mp member with first | store
      · exact (grown.low (hoistedLow id (Option.mem_toList.mp first))).mono size
      · obtain ⟨result, mem, rfl⟩ := mem_map.mp store
        exact (made result mem).1.mono size
    refine (atN.sequence parts).weaken ?_
    rintro early q ⟨more, earlyLow⟩
    exact ⟨more.holds, earlyLow, more.low ((grown.low listLow).mono size)⟩

theorem readTemp (holds : site.Holds held p) (settings : Settings) (arg : Argument) (temp : LocalId) :
    Ends (Materialize.readTemp settings arg temp ty p) (site.Makes held p) Spares := by
  have single : Ends (Edit.addNode (.readLocal temp) ty p) (site.Makes held p) Spares := by
    refine (holds.addLeaf rfl rfl).weaken ?_
    rintro read q ⟨grown, low, _⟩
    exact ⟨grown, low⟩
  refine Ends.bind (ask_ends (settings.types.layoutOf_avoids arg.ty)) ?_
  rintro layout _ ⟨rfl, _⟩
  cases layout with
  | none => exact single
  | some layout =>
    cases arg.placement.isMulti with
    | false => exact single
    | true =>
      refine Ends.bind (ask_ends (Shape.pieces_avoids layout)) ?_
      rintro pieces _ ⟨rfl, _⟩
      exact holds.localFields temp 0 pieces

section Settling

variable (holds : site.Holds base.Recast p) (settings : Settings)

include holds

theorem toTemps (index : Nat) (arg : Argument) (low : site.Low p value) :
    EndsIn allowed (site.Holds base.Recast) (Materialize.toTemps settings site.call index arg value p) := by
  refine Ends.bind (Ends.edit (ask_ends (Materialize.fieldValue_avoids p value))) ?_
  rintro spread q ⟨rfl, found⟩
  cases spread with
  | some fields =>
    obtain ⟨node, atList, isList, shape⟩ := Materialize.fieldValue_some found
    have here := Procedure.kindAt_of _ atList isList
    have lows : site.Low q fields.list ∧ ∀ first, fields.hoisted = some first → site.Low q first := by
      rcases shape with ⟨none, same⟩ | ⟨first, top, hoisted, atTop, isComma⟩
      · exact ⟨same ▸ low, by simp [none]⟩
      · have atValue := Procedure.kindAt_of _ atTop isComma
        refine ⟨holds.child_low low atValue (by simp [NodeKind.children]), ?_⟩
        intro other isOther
        cases hoisted.symm.trans isOther
        exact holds.child_low low atValue (by simp [NodeKind.children])
    refine Ends.bind (Ends.edit (holds.fieldsToTemps here lows.1 lows.2)) ?_
    rintro early r ⟨atEnd, earlyLow, listLow⟩
    refine Ends.edit (atEnd.setSlot ?_ fun _ => rfl)
    rintro arg id (⟨⟨⟩⟩ | ⟨⟨⟩⟩)
    · exact .inr (.inr earlyLow)
    · exact .inr (.inr listLow)
  | none =>
    refine Ends.bind (Ends.edit (node_ends value)) ?_
    rintro node _ ⟨rfl, _⟩
    dsimp only
    split
    · exact Ends.refuseFirst holds
    · refine Ends.bind (Ends.edit (holds.addLocal _)) fun temp m₁ first => ?_
      refine Ends.bind (Ends.edit (first.holds.addOver (first.low low) rfl rfl)) ?_
      rintro store m₂ ⟨second, storeLow⟩
      refine Ends.bind (Ends.edit (second.holds.readTemp settings arg temp)) ?_
      rintro read m₃ ⟨third, readLow⟩
      exact Ends.edit (third.holds.setCopy (third.low storeLow) readLow)

theorem materializeArg (retbufAsLocal : Bool) (index : Nat) :
    EndsIn allowed (site.Holds base.Recast) (Materialize.materializeArg settings site.call retbufAsLocal index p) := by
  refine Ends.bind (Ends.edit (arg_ends site.call index)) ?_
  rintro arg _ ⟨rfl, data, here, atIndex⟩
  split
  · exact holds
  · cases early : arg.early with
    | none => exact Ends.refuse holds
    | some value =>
      have low := holds.arg_low here (mem_of_getElem? atIndex) (.inl early)
      dsimp only
      split
      · split
        · exact Ends.refuseFirst holds
        · exact Ends.bind (holds.toTemps settings index arg low) fun _ q atQ => atQ
      · split
        · refine Ends.bind (Ends.edit (holds.setSlot ?_ fun _ => rfl)) fun _ q atQ => atQ
          rintro other id (⟨⟨⟩⟩ | ⟨⟨⟩⟩)
          exact .inr (.inr low)
        · exact holds

theorem materializeArgs (retbufAsLocal : Bool) (order : List Nat) :
    EndsIn allowed (site.Holds base.Recast) (Materialize.materializeArgs settings site.call retbufAsLocal order p) := by
  induction order generalizing p with
  | nil => exact holds
  | cons index rest ih =>
    refine Ends.bind (holds.materializeArg settings retbufAsLocal index) fun _ m atM => ?_
    exact Ends.bind (ih atM) fun _ q atQ => atQ

end Settling

theorem complete (holds : site.Holds (fun data => data.LawfulIn known settings ∧ data.args.stage = .finalized) p) :
    Ends (Interference.complete settings site.call p)
      (fun _ q => site.Holds (fun data => data.LawfulIn known settings ∧ data.args.stage = .completed) q)
      (Leaves allowed (site.Holds (LawfulIn known settings))) := by
  obtain ⟨_, data, here, lawful, finalized⟩ := id holds
  have left : site.Holds (LawfulIn known settings) p := holds.weaken fun _ both => both.1
  have ends : Ends (Interference.complete settings site.call p) (fun _ _ => True)
      (Leaves allowed (site.Holds (LawfulIn known settings))) := by
    refine Ends.bind (Ends.edit (call_ends site.call)) ?_
    rintro same q ⟨rfl, atSame⟩
    cases here.symm.trans atSame
    dsimp only
    rw [if_neg (not_not.mpr finalized)]
    have asked : Ends ((get : Attempt Procedure) q) (fun a t => a = q ∧ t = q)
        (Leaves allowed (site.Holds (LawfulIn known settings))) := ⟨rfl, rfl⟩
    refine Ends.bind asked ?_
    rintro _ _ ⟨rfl, rfl⟩
    refine Ends.bind (Ends.liftStop (Interference.analyse_avoids settings site.call data).raises left) ?_
    rintro marks _ ⟨rfl, _⟩
    refine Ends.edit ((modifyArgs_ends fun other there => ?_).weaken fun _ _ _ => trivial)
    cases here.symm.trans there
    rw [ArgList.markComplete, if_pos finalized]
    exact .ok _
  refine ends.ran.weaken ?_
  rintro _ q ⟨done, _⟩
  obtain ⟨marks, _, ⟨analysis⟩, rfl⟩ := Interference.complete_ok here done
  have nodes := analysis.marked_map (fun arg => (arg.early, arg.late)) fun _ _ => rfl
  refine holds.setArgs here (fun arg mem id isNode => ?_) ⟨⟨?_, fun fresh => by cases fresh⟩, rfl⟩
  · have paired : (arg.early, arg.late) ∈ data.args.args.map fun arg => (arg.early, arg.late) :=
      nodes ▸ mem_map_of_mem mem
    obtain ⟨before, member, same⟩ := mem_map.mp paired
    obtain ⟨early, late⟩ := Prod.mk.inj same
    exact holds.arg_low here member (early ▸ late ▸ isNode)
  · refine lawful.law.frozen ⟨rfl, rfl, analysis.marked_map _ fun _ _ => rfl, rfl, rfl, rfl⟩ ?_ ?_
      (fun _ => ?_) fun isLast => by cases isLast
    · simp [finalized]
    · simp
    · exact lawful.law.unordered (by simp [finalized])

theorem schedule (holds : site.Holds (fun data => data.LawfulIn known settings ∧ data.args.stage = .completed) p) :
    Ends (Schedule.place (Schedule.costModel settings) site.call p)
      (fun order q => site.Holds (fun data => (data.LawfulIn known settings ∧ data.args.stage = .completed)
        ∧ order.Perm (List.range data.args.args.length)) q) Spares := by
  obtain ⟨_, data, here, lawful, completed⟩ := id holds
  have ends : Ends (Schedule.place (Schedule.costModel settings) site.call p) (fun _ _ => True) Spares := by
    refine Ends.bind (call_ends site.call) ?_
    rintro same q ⟨rfl, _⟩
    refine Ends.bind (ask_ends (Schedule.sort_avoids (Schedule.costModel_avoids settings q) same.args)) ?_
    rintro last _ ⟨rfl, _⟩
    refine Ends.bind (modifyArgs_ends fun _ _ => .pure _) fun _ _ _ => trivial
  refine ends.ran.weaken ?_
  rintro order q ⟨done, _⟩
  obtain ⟨same, atSame, _, rfl, rfl⟩ := Schedule.schedule_ok (Schedule.schedule_eq _ ▸ lift_edit_ok_iff.mpr done)
  cases here.symm.trans atSame
  have everyone := Schedule.specified_perm (Schedule.costModel settings) p data.args
  refine holds.setArgs here (fun arg mem id isNode => ?_) ⟨⟨lawful.recast ?_ ?_ ?_, completed⟩, ?_⟩
  · obtain ⟨before, member, rfl⟩ := mem_map.mp mem
    exact holds.arg_low here member isNode
  · exact data.recast_withArgs (by simp [Argument.fixed])
  · rw [completed]
    rfl
  · simp [completed]
  · simpa [Schedule.markProcessed, ArgList.size] using everyone

-- Materialization visits every argument once, so that the late order lists each late node's argument
-- exactly once.
theorem materialize {order : List Nat}
    (holds : site.Holds (fun data => (data.LawfulIn known settings ∧ data.args.stage = .completed)
      ∧ order.Perm (List.range data.args.args.length)) p) :
    Ends (Materialize.materialize settings site.call order p)
      (fun _ q => site.Holds (fun data => data.LawfulIn known settings ∧ data.args.stage = .materialized) q)
      (Leaves allowed (site.Holds (LawfulIn known settings))) := by
  obtain ⟨work, data, here, ⟨lawful, completed⟩, everyone⟩ := id holds
  have recasts : site.Holds data.Recast p := ⟨work, data, here, .refl data⟩
  have left : ∀ q, site.Holds data.Recast q → site.Holds (LawfulIn known settings) q := by
    intro q reached
    refine reached.weaken fun after recast => lawful.recast recast ?_ ?_
    · rw [completed]
      rfl
    · simp [completed]
  have once : order.Nodup := everyone.nodup_iff.mpr nodup_range
  refine Ends.bind (Ends.edit (call_ends site.call)) ?_
  rintro same q ⟨rfl, atSame⟩
  cases here.symm.trans atSame
  dsimp only
  rw [if_neg (not_not.mpr completed)]
  refine Ends.bind ((materializeArgs recasts settings data.flags.retbufAsLocal order).ran.mono
    (fun _ _ ended => ended) fun _ _ => Leaves.mono left) ?_
  rintro late m ⟨ran, atM⟩
  obtain ⟨args, run⟩ := Materialize.materializeArgs_slots once here ran
  obtain ⟨_, after, there, recast⟩ := id atM
  cases run.here.symm.trans there
  refine Ends.edit ((modifyArgs_ends fun other atOther => ?_).weaken ?_)
  · cases there.symm.trans atOther
    rw [ArgList.markMaterialized, if_pos (by exact completed)]
    exact .ok _
  · rintro _ r ⟨other, list, atOther, stepped, rfl⟩
    cases there.symm.trans atOther
    rw [ArgList.markMaterialized, if_pos (by exact completed)] at stepped
    cases stepped
    refine atM.setArgs there (fun arg mem id isNode => atM.arg_low there mem isNode)
      ⟨⟨?_, fun fresh => by cases fresh⟩, rfl⟩
    refine lawful.law.frozen ⟨rfl, rfl, recast.args, rfl, rfl, rfl⟩ (by simp [completed]) (by simp)
      (fun isOpen => absurd rfl isOpen) fun _ => ⟨?_, fun index => ?_⟩
    · rw [run.listed]
      exact once.filter _
    · rw [run.listed, mem_filter, Materialize.hasLate, Option.any_eq_true]
      refine ⟨fun listed => listed.2, fun hasLate => ⟨?_, hasLate⟩⟩
      obtain ⟨arg, atIndex, _⟩ := hasLate
      have bound : index < data.args.args.length :=
        run.sameLength ▸ (lt_length atIndex)
      exact everyone.mem_iff.mpr (List.mem_range.mpr bound)

end Holds

end Site

end CallLowering
