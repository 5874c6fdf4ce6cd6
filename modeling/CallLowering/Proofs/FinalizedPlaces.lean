import CallLowering.Lowering.Shape
import CallLowering.Proofs.HiddenArguments
import CallLowering.Proofs.Verifying

/-! The places that finalizing hands out. -/

namespace CallLowering

open List

variable {arg : Argument} {settings : Settings} {shape : ArgShape} {id : CallId} {layout : Layout} {p q : Procedure}
  {placement : Placement} {triple : Triple} {pieces : List Piece} {pointerSize : Nat} {segment : Segment}
  {args : List Argument} {types : TypeTable}

theorem stableSort_of_sorted {α : Type} {le : α → α → Bool} {items : List α}
    (sorted : items.Pairwise fun a b => le a b = true) : stableSort le items = items := by
  induction items with
  | nil => rfl
  | cons head rest ih =>
    obtain ⟨first, later⟩ := pairwise_cons.mp sorted
    rw [stableSort, ih later]
    cases rest with
    | nil => rfl
    | cons second others => rw [insertStable, if_pos (first second mem_cons_self)]

namespace Adjoining

variable {start stop : Nat} {segments : List Segment}

variable (adjoining : Adjoining start stop segments)

include adjoining

theorem above (mem : segment ∈ segments) : start ≤ segment.start := by
  induction segments generalizing start with
  | nil => cases mem
  | cons first rest ih =>
    obtain ⟨rfl, later⟩ := adjoining
    rcases mem_cons.mp mem with rfl | behind
    · exact Nat.le_refl _
    · exact Nat.le_trans (Nat.le_add_right _ _) (ih later behind)

theorem sorted : segments.Pairwise fun a b => decide (a.start ≤ b.start) = true := by
  induction segments generalizing start with
  | nil => exact .nil
  | cons first rest ih =>
    obtain ⟨rfl, later⟩ := adjoining
    refine .cons (fun second behind => decide_eq_true ?_) (ih later)
    exact Nat.le_trans (Nat.le_add_right _ _) (later.above behind)

theorem filled (forward : start < stop) : ∃ segment ∈ segments, 0 < segment.size := by
  induction segments generalizing start with
  | nil => exact absurd adjoining (Nat.ne_of_lt forward)
  | cons first rest ih =>
    obtain ⟨_, later⟩ := adjoining
    by_cases empty : first.size = 0
    · rw [empty, Nat.add_zero] at later
      obtain ⟨segment, mem, positive⟩ := ih later forward
      exact ⟨segment, mem_cons_of_mem _ mem, positive⟩
    · exact ⟨first, mem_cons_self, Nat.pos_of_ne_zero empty⟩

end Adjoining

theorem Placement.byStart_adjoining {start stop : Nat} (adjoining : Adjoining start stop placement.segments) :
    placement.byStart = placement.segments :=
  stableSort_of_sorted adjoining.sorted

namespace Shape

theorem piecesOf_filled (positive : 0 < segment.size) (done : piecesOf layout pointerSize segment = .ok pieces) :
    pieces ≠ [] := by
  unfold piecesOf at done
  generalize (if segment.inFloatReg = true then segment.size else pointerSize) = unit at done
  by_cases zero : unit = 0
  · simp only [zero, if_true, except_bind_ok_iff] at done
    obtain ⟨_, thrown, _⟩ := done
    cases thrown
  · simp only [zero, if_false, except_bind_ok_iff] at done
    obtain ⟨_, _, cut⟩ := done
    have sameLength := mapM_except_ok_iff.mp cut |>.length_eq
    have covers := chunkCount_covers segment.size (Nat.pos_of_ne_zero zero)
    rintro rfl
    rw [length_chunks, length_nil] at sameLength
    rw [sameLength, Nat.zero_mul] at covers
    exact Nat.not_lt_of_le covers positive

theorem pieces_filled {size : Nat} (adjoining : Adjoining 0 size placement.segments) (positive : 0 < size)
    (done : Shape.pieces placement layout pointerSize = .ok pieces) : pieces ≠ [] := by
  simp only [Shape.pieces, except_bind_ok_iff, except_pure_ok_iff,
    Placement.byStart_adjoining adjoining] at done
  obtain ⟨parts, cut, rfl⟩ := done
  obtain ⟨segment, mem, filled⟩ := adjoining.filled positive
  obtain ⟨part, held, here⟩ := forall₂_partner (mapM_except_ok_iff.mp cut) mem
  rw [Ne, flatten_eq_nil_iff]
  exact fun empty => piecesOf_filled filled here (empty part held)

end Shape

namespace Target

theorem customReg_not_mem_bank {role : ArgRole} {reg : Reg}
    (own : (ofTriple triple).customReg role = some reg) : reg ∉ bank triple := by
  have apart : ((ofTriple triple).customReg role).all (fun reg => decide (reg ∉ bank triple)) = true := by
    obtain ⟨architecture, os⟩ := triple
    cases architecture <;> cases os <;> cases role <;> decide +kernel
  rw [own] at apart
  exact of_decide_eq_true apart

end Target

theorem Triple.pointerSize_pos (triple : Triple) : 0 < triple.pointerSize := by
  obtain ⟨architecture, os⟩ := triple
  cases architecture <;> exact Nat.succ_pos _

theorem TypeTable.layoutOf_some (types : TypeTable) {ty : ValueType}
    (found : types.layoutOf ty = .ok (some layout)) : ty.isStruct = true ∧ layout ∈ types.layouts := by
  cases ty with
  | struct index =>
    simp only [layoutOf, layoutAt, except_bind_ok_iff, except_pure_ok_iff,
      Option.some.injEq] at found
    obtain ⟨_, here, rfl⟩ := found
    split at here
    · cases here
      exact ⟨rfl, Array.mem_of_getElem? ‹_›⟩
    · cases here
  | _ => cases found

def Argument.Sized (settings : Settings) (arg : Argument) : Prop :=
  ∀ layout, settings.types.layoutOf arg.ty = .ok (some layout) → 0 < layout.size

instance (settings : Settings) (arg : Argument) : Decidable (arg.Sized settings) :=
  match found : settings.types.layoutOf arg.ty with
  | .ok (some layout) => decidable_of_iff (0 < layout.size)
    ⟨fun positive _ same => by cases found.symm.trans same; exact positive, fun sized => sized layout found⟩
  | .ok none => .isTrue fun _ same => nomatch found.symm.trans same
  | .error _ => .isTrue fun _ same => nomatch found.symm.trans same

-- An argument's placement holds something, has no gap, and cuts a struct into pieces.
structure Argument.Fits (settings : Settings) (arg : Argument) : Prop where
  present : arg.placement.segments ≠ []
  adjoining : arg.placement.byRef = false → ∃ size, Adjoining 0 size arg.placement.segments
  divided : ∀ layout pieces, settings.types.layoutOf arg.ty = .ok (some layout) →
    arg.placement.isMulti = true → Shape.pieces arg.placement layout settings.pointerSize = .ok pieces →
    pieces ≠ []

namespace AbiInfo

theorem argShape_ok (done : argShape types arg = .ok shape) :
    shape.ty = arg.ty ∧ shape.role = arg.role ∧ types.layoutOf arg.ty = .ok shape.layout := by
  simp only [argShape, except_bind_ok_iff, except_pure_ok_iff] at done
  obtain ⟨layout, found, rfl⟩ := done
  exact ⟨rfl, rfl, found⟩

theorem argShape_described (declared : ∀ layout ∈ types.layouts, layout.Natural)
    (done : argShape types arg = .ok shape) : shape.Described := by
  obtain ⟨sameTy, _, found⟩ := argShape_ok done
  refine ⟨fun known => ?_, fun layout here => ?_⟩
  · obtain ⟨layout, here⟩ := Option.isSome_iff_exists.mp known
    rw [sameTy]
    exact (types.layoutOf_some (here ▸ found)).1
  · exact declared layout (types.layoutOf_some (here ▸ found)).2

theorem argShape_size_pos {word size : Nat} (positive : 0 < word) (sized : arg.Sized settings)
    (done : argShape settings.types arg = .ok shape) (found : shape.size word = .ok size) : 0 < size := by
  obtain ⟨sameTy, _, layoutOf⟩ := argShape_ok done
  cases ty : shape.ty with
  | struct index =>
    cases isLayout : shape.layout with
    | some layout =>
      simp only [ArgShape.size, ty, isLayout, Except.ok.injEq] at found
      exact found ▸ sized layout (isLayout ▸ layoutOf)
    | none =>
      simp only [ArgShape.size, ty, isLayout] at found
      cases found
  | void =>
    simp only [ArgShape.size, ty] at found
    cases found
  | ptr | ref =>
    simp only [ArgShape.size, ty, Except.ok.injEq] at found
    exact found ▸ positive
  | _ =>
    simp only [ArgShape.size, ty, Except.ok.injEq] at found
    exact found ▸ Nat.succ_pos _

variable {settings : Settings}

theorem inReg_fits (arg : Argument) (reg : Reg) {size : Nat} :
    Argument.Fits settings { arg with placement := .inReg reg size } where
  present := cons_ne_nil _ _
  adjoining := fun _ => ⟨size, rfl, Nat.zero_add size⟩
  divided := fun _ _ _ several => by cases several

theorem covers_fits (positive : 0 < settings.pointerSize) (sized : arg.Sized settings)
    (shaped : argShape settings.types arg = .ok shape) (covers : placement.Covers settings.pointerSize shape) :
    Argument.Fits settings { arg with placement } := by
  cases byRef : placement.byRef with
  | true =>
    obtain ⟨_, place, single⟩ := covers.pointer byRef
    refine ⟨by simp [single], fun whole => ?_, fun _ _ _ several => ?_⟩
    · cases byRef.symm.trans whole
    · simp [Placement.isMulti, single] at several
  | false =>
    obtain ⟨size, found, adjoining⟩ := covers.whole byRef
    have filled := argShape_size_pos positive sized shaped found
    refine ⟨fun empty => ?_, fun _ => ⟨size, adjoining⟩, fun layout pieces _ _ cut => ?_⟩
    · obtain ⟨segment, mem, _⟩ := adjoining.filled filled
      rw [show placement.segments = [] from empty] at mem
      cases mem
    · exact Shape.pieces_filled adjoining filled cut

section Assigning

variable (target : Target) {placements : List Placement}

def byConvention (args : List Argument) : List Argument :=
  args.filter fun arg => (target.customReg arg.role).isNone

theorem assign_fits {fits : Argument → Placement → Prop} {out : List Argument}
    (own : ∀ arg ∈ args, ∀ reg, target.customReg arg.role = some reg →
      fits arg (.inReg reg target.pointerSize))
    (classified : List.Forall₂ fits (byConvention target args) placements)
    (done : assign target args placements = some out) :
    ∀ arg ∈ out, ∃ before ∈ args, arg = { before with placement := arg.placement }
      ∧ fits before arg.placement := by
  induction args generalizing placements out with
  | nil =>
    cases done
    exact fun arg mem => nomatch mem
  | cons arg rest ih =>
    obtain ⟨ownHere, ownLater⟩ := forall_mem_cons.mp own
    have among : ∀ later placements', assign target rest placements' = some later →
        List.Forall₂ fits (byConvention target rest) placements' → ∀ other ∈ later,
        ∃ before ∈ arg :: rest, other = { before with placement := other.placement }
          ∧ fits before other.placement := by
      intro later placements' found matched other mem
      obtain ⟨before, there, related⟩ := ih ownLater matched found other mem
      exact ⟨before, mem_cons_of_mem _ there, related⟩
    cases isOwn : target.customReg arg.role with
    | some reg =>
      rw [byConvention, filter_cons_of_neg (by simp [isOwn])] at classified
      simp only [assign, isOwn] at done
      obtain ⟨later, found, rfl⟩ := Option.map_eq_some_iff.mp done
      exact forall_mem_cons.mpr ⟨⟨arg, mem_cons_self, rfl, ownHere reg isOwn⟩,
        among later placements found classified⟩
    | none =>
      rw [byConvention, filter_cons_of_pos (by simp [isOwn])] at classified
      obtain ⟨placement, others, here, matched, rfl⟩ := List.forall₂_cons_left_iff.mp classified
      simp only [assign, isOwn] at done
      obtain ⟨later, found, rfl⟩ := Option.map_eq_some_iff.mp done
      exact forall_mem_cons.mpr ⟨⟨arg, mem_cons_self, rfl, here⟩,
        among later others found matched⟩

theorem assign_placements (counted : placements.length = (byConvention target args).length) :
    ∃ out, assign target args placements = some out ∧ (out.map Argument.placement).Perm
      (((args.map Argument.role).filterMap target.customReg).map (Placement.inReg · target.pointerSize)
        ++ placements) := by
  induction args generalizing placements with
  | nil =>
    rw [eq_nil_of_length_eq_zero counted]
    exact ⟨[], rfl, .refl _⟩
  | cons arg rest ih =>
    cases isOwn : target.customReg arg.role with
    | some reg =>
      rw [byConvention, filter_cons_of_neg (by simp [isOwn])] at counted
      obtain ⟨later, found, perm⟩ := ih counted
      refine ⟨{ arg with placement := .inReg reg target.pointerSize } :: later,
        by simp only [assign, isOwn, found, Option.map_some], ?_⟩
      simp only [map_cons, filterMap_cons, isOwn, cons_append]
      exact perm.cons _
    | none =>
      rw [byConvention, filter_cons_of_pos (by simp [isOwn])] at counted
      obtain ⟨placement, others, rfl⟩ := exists_cons_of_length_eq_add_one counted
      obtain ⟨later, found, perm⟩ := ih (Nat.succ.inj counted)
      refine ⟨{ arg with placement } :: later, by simp only [assign, isOwn, found, Option.map_some], ?_⟩
      simp only [map_cons, filterMap_cons, isOwn]
      exact (perm.cons placement).trans perm_middle.symm

end Assigning

end AbiInfo

namespace Verifier

theorem slots_eq (args : List Argument) :
    slots args = (args.map Argument.placement).zipIdx.flatMap fun entry => entry.1.segments.filterMap fun segment =>
        segment.stackOffset?.map fun offset => ⟨offset, offset + segment.size, entry.2⟩ := by
  rw [zipIdx_map, flatMap_map]
  rfl

theorem slots_stretches (args : List Argument) :
    (slots args).map (fun slot => (slot.start, slot.stop))
      = (args.map Argument.placement).flatMap Placement.stretches := by
  have each : ∀ entry : Argument × Nat, (entry.1.placement.segments.filterMap fun segment =>
      segment.stackOffset?.map fun offset => (⟨offset, offset + segment.size, entry.2⟩ : Slot)).map
        (fun slot => (slot.start, slot.stop)) = entry.1.placement.stretches := by
    intro entry
    rw [map_filterMap]
    simp only [Option.map_map]
    rfl
  conv_rhs => rw [← zipIdx_map_fst 0 args, map_map, flatMap_map]
  simp only [slots, map_flatMap, each]
  rfl

theorem slots_apart {stretches : List (Nat × Nat)}
    (perm : ((args.map Argument.placement).flatMap Placement.stretches).Perm stretches)
    (ascending : stretches.Pairwise fun first second => first.2 ≤ second.1) : (slots args).Pairwise Slot.Apart := by
  have either := ascending.imp fun {first second} behind =>
    (Or.inl behind : first.2 ≤ second.1 ∨ second.2 ≤ first.1)
  rw [← perm.pairwise_iff Or.symm, ← slots_stretches, pairwise_map] at either
  refine either.imp_of_mem fun {first second} inFirst inSecond behind => ?_
  have forward := slots_forward inFirst
  have forward' := slots_forward inSecond
  rw [Slot.Apart, Slot.le_iff, Slot.le_iff]
  omega

end Verifier

-- A list whose arguments have their places and fit them.
structure ArgList.Laid (settings : Settings) (list : ArgList) : Prop where
  apart : list.Apart
  fits : ∀ arg ∈ list.args, arg.Fits settings

def Argument.seat (arg : Argument) : ValueType × Placement := (arg.ty, arg.placement)

namespace ArgList.Laid

variable {settings : Settings} {list list' : ArgList}

theorem congr (laid : list.Laid settings) (seats : list'.args.map Argument.seat = list.args.map Argument.seat)
    (stackSize : list'.stackSize = list.stackSize) : list'.Laid settings := by
  have placements : list'.args.map Argument.placement = list.args.map Argument.placement := by
    have both := congrArg (List.map Prod.snd) seats
    rwa [map_map, map_map] at both
  have seated : ∀ arg ∈ list'.args, ∃ before ∈ list.args, before.seat = arg.seat := by
    intro arg mem
    have there : arg.seat ∈ list.args.map Argument.seat := seats ▸ mem_map_of_mem mem
    exact mem_map.mp there
  refine ⟨⟨fun arg mem => ?_, ?_, ?_⟩, fun arg mem => ?_⟩
  · obtain ⟨before, there, same⟩ := seated arg mem
    have placed := laid.apart.placed before there
    simp only [Argument.seat, Prod.mk.injEq] at same
    rw [stackSize]
    exact ⟨same.2 ▸ placed.present, same.2 ▸ placed.adjoining, same.2 ▸ placed.within⟩
  · rw [← flatMap_map, placements, flatMap_map]
    exact laid.apart.regs
  · rw [Verifier.slots_eq, placements, ← Verifier.slots_eq]
    exact laid.apart.slots
  · obtain ⟨before, there, same⟩ := seated arg mem
    have fits := laid.fits before there
    simp only [Argument.seat, Prod.mk.injEq] at same
    obtain ⟨sameTy, same⟩ := same
    exact ⟨same ▸ fits.present, same ▸ fits.adjoining, sameTy ▸ same ▸ fits.divided⟩

end ArgList.Laid

section InReg

variable (regs : List Reg) (size : Nat)

theorem regs_inReg : (regs.map (Placement.inReg · size)).flatMap Placement.regs = regs := by
  rw [flatMap_map]
  exact flatMap_singleton' regs

theorem stretches_inReg : (regs.map (Placement.inReg · size)).flatMap Placement.stretches = [] := by
  rw [flatMap_map]
  exact flatMap_eq_nil_iff.mpr fun _ _ => rfl

end InReg

theorem AbiInfo.Placed.laid (placed : Placed settings id p q) (shipped : settings.target = Target.ofTriple triple)
    (declared : ∀ layout ∈ settings.types.layouts, layout.Natural)
    (sized : ∀ arg ∈ placed.data.args.args, arg.Sized settings)
    (distinct : ((placed.data.args.args.map Argument.role).filterMap settings.target.customReg).Nodup)
    {list : ArgList} (sameArgs : list.args = placed.args) (sameSize : list.stackSize = placed.answer.stackSize) :
    list.Laid settings := by
  have word : settings.pointerSize = triple.pointerSize := by
    rw [Settings.pointerSize, shipped, Target.pointerSize_ofTriple]
  have sound := Target.classify_sound triple _ _ placed.answer (shipped ▸ placed.classified)
  have shaped := mapM_except_ok_iff.mp placed.shaped
  have fitting : List.Forall₂ (fun arg placement => Argument.Fits settings { arg with placement })
      (byConvention settings.target placed.data.args.args) placed.answer.placements := by
    refine forall₂_through shaped sound.covers fun arg mem shape placement isShape covers => ?_
    refine covers_fits (word ▸ triple.pointerSize_pos) ?_ isShape ?_
    · exact sized arg (mem_filter.mp mem).1
    · exact word ▸ covers (argShape_described declared isShape)
  have fits : ∀ arg ∈ list.args, arg.Fits settings := by
    intro arg mem
    obtain ⟨before, _, same, fits⟩ := assign_fits settings.target
      (fun arg _ reg _ => inReg_fits arg reg) fitting placed.assigned arg (sameArgs ▸ mem)
    exact same ▸ fits
  obtain ⟨out, assigned, perm⟩ := assign_placements settings.target fitting.length_eq.symm
  cases placed.assigned.symm.trans assigned
  rw [← sameArgs] at perm
  have stretches := perm.flatMap_right Placement.stretches
  have regs := perm.flatMap_right Placement.regs
  rw [flatMap_append, stretches_inReg, nil_append] at stretches
  rw [flatMap_append, regs_inReg, flatMap_map] at regs
  refine ⟨⟨fun arg mem => ⟨(fits arg mem).present, fun whole => ?_, ?_⟩, ?_, ?_⟩, fits⟩
  · obtain ⟨size, adjoining⟩ := (fits arg mem).adjoining whole
    exact ⟨size, by rwa [Placement.byStart_adjoining adjoining]⟩
  · intro segment held offset onStack
    have taken : (offset, offset + segment.size) ∈ arg.placement.stretches :=
      mem_filterMap.mpr ⟨segment, held, by rw [Segment.stretch?, onStack]; rfl⟩
    have among := mem_flatMap.mpr ⟨_, mem_map_of_mem mem, taken⟩
    rw [sameSize]
    exact (sound.stack.bounds (stretches.mem_iff.mp among)).2
  · rw [regs.nodup_iff]
    refine distinct.append (sound.regs_nodup (Target.bank_nodup triple)) fun reg own handed => ?_
    obtain ⟨role, _, isOwn⟩ := mem_filterMap.mp own
    exact Target.customReg_not_mem_bank (shipped ▸ isOwn) (sound.regs_mem_bank handed)
  · exact Verifier.slots_apart stretches sound.stack.apart

-- No struct among the arguments is empty, and no two hidden arguments go to one register.
structure Call.Admissible (settings : Settings) (data : Call) : Prop where
  sized : ∀ arg ∈ data.args.args, arg.Sized settings
  distinct : (data.hiddenRoles.filterMap settings.target.customReg).Nodup

instance (settings : Settings) (data : Call) : Decidable (data.Admissible settings) :=
  decidable_of_iff ((∀ arg ∈ data.args.args, arg.Sized settings)
      ∧ (data.hiddenRoles.filterMap settings.target.customReg).Nodup)
    ⟨fun both => ⟨both.1, both.2⟩, fun admissible => ⟨admissible.sized, admissible.distinct⟩⟩

theorem CallSpec.toCall_byConvention (spec : CallSpec) (triple : Triple) :
    (spec.toCall.args.args.map Argument.role).filterMap (Target.ofTriple triple).customReg = [] := by
  rw [filterMap_map, filterMap_eq_nil_iff]
  intro arg mem
  have given : arg.role = .thisPointer ∨ arg.role = .returnBuffer ∨ arg.role = .varargsCookie
      ∨ arg.role = .instParam ∨ arg.role = .ordinary := by
    simp only [CallSpec.toCall, CallSpec.arguments, mem_append, Option.mem_toList,
      Option.map_eq_some_iff, mem_map] at mem
    rcases mem with (((⟨_, _, rfl⟩ | ⟨_, _, rfl⟩) | ⟨_, _, rfl⟩) | ⟨_, _, rfl⟩) | ⟨_, _, rfl⟩ <;>
      simp [Argument.ofValue]
  obtain ⟨architecture, os⟩ := triple
  rcases given with role | role | role | role | role <;> cases architecture <;> cases os <;>
    simp only [Function.comp_apply, role] <;> rfl

namespace AbiInfo

theorem Placed.joined {data : Call} {roles : List ArgRole} (placed : Placed settings id p q)
    (joined : data.Joined roles placed.data) {list : ArgList} (sameArgs : list.args = placed.args) :
    data.Joined roles { placed.data with args := list } := by
  refine ⟨joined.flags, joined.wrapperOffset, ?_⟩
  have same : placed.args.map Argument.parameter = placed.data.args.args.map Argument.parameter :=
    assign_map _ (fun _ _ => rfl) placed.assigned
  simp only [sameArgs, same]
  exact joined.parameters

theorem finalize_laid {spec : CallSpec} (shipped : settings.target = Target.ofTriple triple)
    (declared : ∀ layout ∈ settings.types.layouts, layout.Natural)
    (admissible : spec.toCall.Admissible settings) (here : p.calls[id]? = some spec.toCall)
    (done : finalize settings id p = .ok () q) :
    ∃ data, q.calls[id]? = some data ∧ data.args.Laid settings
      ∧ spec.toCall.Joined spec.toCall.hiddenRoles data := by
  obtain ⟨same, atSame, ⟨finalized, _⟩ | ⟨_, m, added, _, placing⟩⟩ := finalize_ok done
  · cases here.symm.trans atSame
    cases finalized
  · obtain ⟨placed⟩ := placeArgs_ok placing
    obtain ⟨grown, atGrown, joined⟩ := addHiddenArgs_joined here added
    have joined : spec.toCall.Joined spec.toCall.hiddenRoles placed.data :=
      Option.some.inj (atGrown.symm.trans placed.here) ▸ joined
    refine ⟨_, placed.last ▸ Procedure.setCall_here m _ placed.here, ?_, placed.joined joined rfl⟩
    refine placed.laid shipped declared (fun arg mem layout isLayout => ?_) ?_ rfl rfl
    · rcases (joined.mem_iff arg.parameter).mp ⟨arg, mem, rfl⟩ with ⟨given, there, same⟩ | ⟨_, isPtr⟩
      · have sameTy : given.ty = arg.ty := congrArg Prod.snd same
        exact admissible.sized given there layout (sameTy ▸ isLayout)
      · rw [show arg.ty = .ptr from isPtr] at isLayout
        cases isLayout
    · rw [(joined.roles_perm.filterMap _).nodup_iff, filterMap_append, shipped,
        spec.toCall_byConvention, ← shipped]
      exact admissible.distinct

end AbiInfo

end CallLowering
