import CallLowering.Proofs.SegmentCuts

/-!
Where declarations put the fields of a struct, and what that means for the eightbytes it is passed in. No field
reaches into a second eightbyte, and none of them is all padding.
-/

namespace CallLowering

open List

-- The first multiple of `unit` that is not before `next`.
def FirstMultiple (unit next offset : Nat) : Prop :=
  unit ∣ offset ∧ next ≤ offset ∧ ∀ other, unit ∣ other → next ≤ other → offset ≤ other

theorem roundUp_first (next : Nat) {unit : Nat} (positive : 0 < unit) :
    FirstMultiple unit next (roundUp next unit) := by
  refine ⟨⟨_, Nat.mul_comm _ _⟩, le_roundUp next positive, ?_⟩
  rintro _ ⟨count, rfl⟩ above
  rw [Nat.mul_comm] at above ⊢
  exact roundUp_mul count positive ▸ roundUp_mono unit above

namespace Field

def width (pointerSize : Nat) (field : Field) : Nat := (field.ty.scalarSize pointerSize).getD 0

def Overlaps (pointerSize : Nat) (field : Field) (piece : Chunk) : Prop :=
  field.offset < piece.offset + piece.len ∧ piece.offset < field.offset + field.width pointerSize

def Plain (pointerSize : Nat) (field : Field) : Prop :=
  field.ty.scalarSize pointerSize = some (field.width pointerSize)
    ∧ (field.width pointerSize = 1 ∨ field.width pointerSize = 2 ∨ field.width pointerSize = 4
      ∨ field.width pointerSize = 8)

end Field

namespace Layout

variable {name : String} {pointerSize next last : Nat} {types : List ValueType} {fields : List Field}
  {layout : Layout}

-- Fields from byte `next` to byte `last`, each as early as its own size allows.
def Laid (pointerSize : Nat) : Nat → List Field → Nat → Prop
  | next, [], last => last = next
  | next, field :: rest, last =>
    FirstMultiple (field.width pointerSize) next field.offset
      ∧ Laid pointerSize (field.offset + field.width pointerSize) rest last

theorem place_laid (pointers : pointerSize = 4 ∨ pointerSize = 8) (solid : ∀ ty ∈ types, ty ≠ .void)
    (done : place name pointerSize next types = .ok (fields, last)) :
    Laid pointerSize next fields last ∧ ∀ field ∈ fields, field.Plain pointerSize := by
  induction types generalizing next fields with
  | nil =>
    cases done
    exact ⟨rfl, by simp⟩
  | cons ty rest ih =>
    obtain ⟨isSolid, solid⟩ := forall_mem_cons.mp solid
    unfold place at done
    split at done
    · cases done
    · rename_i size sized
      simp only [except_bind_ok_iff, Word.roundUp, Word.add, Word.check_ok_iff, except_pure_ok_iff,
        Prod.mk.injEq] at done
      obtain ⟨_, ⟨_, rfl⟩, _, ⟨_, rfl⟩, ⟨others, _⟩, placed, rfl, rfl⟩ := done
      obtain ⟨laid, plain⟩ := ih solid placed
      have positive : 0 < size := by
        cases ty <;> cases sized <;> first | exact absurd rfl isSolid | omega
      have wide (offset : Nat) : Field.width pointerSize ⟨offset, ty⟩ = size := by simp [Field.width, sized]
      have cases := scalarSize_cases sized
      rw [Nat.max_eq_left positive] at laid ⊢
      refine ⟨?_, forall_mem_cons.mpr ⟨?_, plain⟩⟩
      · simp only [Laid, wide]
        exact ⟨roundUp_first next positive, laid⟩
      · rw [Field.Plain, wide]
        exact ⟨sized, by omega⟩

section Plain

variable {field : Field} (plain : field.Plain pointerSize) (aligned : field.width pointerSize ∣ field.offset)

include plain aligned

theorem on_one_side (count : Nat) :
    8 * count ≤ field.offset ∨ field.offset + field.width pointerSize ≤ 8 * count := by
  rcases plain.2 with wide | wide | wide | wide <;> rw [wide] at aligned ⊢ <;> omega

theorem within_eightbyte : field.offset / 8 = (field.offset + field.width pointerSize - 1) / 8 := by
  have side := on_one_side plain aligned (field.offset / 8 + 1)
  rcases plain.2 with wide | wide | wide | wide <;> omega

end Plain

namespace Laid

variable (laid : Laid pointerSize next fields last)

include laid

theorem aligned {field : Field} (mem : field ∈ fields) : field.width pointerSize ∣ field.offset := by
  induction fields generalizing next with
  | nil => cases mem
  | cons first rest ih =>
    rcases mem_cons.mp mem with rfl | later
    · exact laid.1.1
    · exact ih laid.2 later

-- The next multiple of eight is free for any field, so one of them is put there.
theorem starts_at (plain : ∀ field ∈ fields, field.Plain pointerSize) {count : Nat} (behind : next ≤ 8 * count)
    (before : 8 * count < last) : ∃ field ∈ fields, field.offset = 8 * count := by
  induction fields generalizing next with
  | nil =>
    rw [Laid] at laid
    omega
  | cons field rest ih =>
    obtain ⟨isPlain, plain⟩ := forall_mem_cons.mp plain
    obtain ⟨⟨divides, _, least⟩, later⟩ := laid
    rcases on_one_side isPlain divides count with after | ahead
    · have free : field.width pointerSize ∣ 8 * count := by
        rcases isPlain.2 with wide | wide | wide | wide <;> rw [wide] <;> omega
      exact ⟨field, mem_cons_self, Nat.le_antisymm (least _ free behind) after⟩
    · obtain ⟨other, mem, here⟩ := ih later plain ahead
      exact ⟨other, mem_cons_of_mem _ mem, here⟩

end Laid

section Declared

variable (pointers : pointerSize = 4 ∨ pointerSize = 8) (solid : ∀ ty ∈ types, ty ≠ .void)
  (made : ofFields name types pointerSize = .ok layout)

include pointers solid made

theorem ofFields_laid :
    ∃ last widest, Laid pointerSize 0 layout.fields last ∧ (∀ field ∈ layout.fields, field.Plain pointerSize)
      ∧ widest ∈ layout.fields.map (Field.width pointerSize)
      ∧ (∀ field ∈ layout.fields, field.width pointerSize ≤ widest) ∧ FirstMultiple widest last layout.size := by
  obtain ⟨last, placed, sized, _⟩ := ofFields_ok made
  obtain ⟨laid, plain⟩ := place_laid pointers solid placed
  have widths : types.filterMap (ValueType.scalarSize pointerSize)
      = layout.fields.map (Field.width pointerSize) := by
    rw [← place_types placed, filterMap_map, ← filterMap_eq_map]
    exact filterMap_congr fun field mem => (plain field mem).1
  have bounds := le_foldl_max (layout.fields.map (Field.width pointerSize)) 1
  have reached := foldl_max_mem (layout.fields.map (Field.width pointerSize)) 1
  rw [alignment, widths] at sized
  generalize (layout.fields.map (Field.width pointerSize)).foldl max 1 = widest at sized bounds reached
  have atMost : ∀ field ∈ layout.fields, field.width pointerSize ≤ widest := fun field mem =>
    bounds.2 _ (mem_map_of_mem mem)
  refine ⟨last, widest, laid, plain, ?_, atMost, sized ▸ roundUp_first last bounds.1⟩
  rcases reached with one | mem
  · cases all : layout.fields with
    | nil =>
      have none := place_types placed
      rw [all, map_nil] at none
      simp [ofFields, ← none] at made
    | cons first rest =>
      have isFirst : first ∈ layout.fields := all ▸ mem_cons_self
      have narrow := atMost first isFirst
      have filled := (plain first isFirst).2
      exact mem_map.mpr ⟨first, mem_cons_self, by omega⟩
  · exact mem

theorem eightbyte_class {piece : Chunk} (mem : piece ∈ chunks layout.size 8) :
    ∃ isFloat, layout.isFloatRange piece.offset piece.len = .ok isFloat
      ∧ (isFloat = true ↔ ∀ field ∈ layout.fields, field.Overlaps pointerSize piece → field.ty.isFloat = true) := by
  obtain ⟨last, widest, laid, plain, reached, _, _, _, least⟩ := ofFields_laid pointers solid made
  obtain ⟨_, _, _, small⟩ := ofFields_ok made
  obtain ⟨index, bound, rfl⟩ := mem_map.mp mem
  have begins := chunk_starts layout.size index (by omega) (mem_range.mp bound)
  have fits : index * 8 + min 8 (layout.size - index * 8) < Word.limit := by omega
  have before : 8 * index < last := by
    obtain ⟨field, isField, rfl⟩ := mem_map.mp reached
    by_contra done
    have wide : field.width pointerSize ∣ 8 * index := by
      rcases (plain field isField).2 with wide | wide | wide | wide <;> rw [wide] <;> omega
    have short := least (8 * index) wide (by omega)
    omega
  have starts : ∀ field ∈ layout.fields, field.Overlaps pointerSize ⟨index * 8, min 8 (layout.size - index * 8)⟩
      ↔ index * 8 ≤ field.offset ∧ field.offset < index * 8 + min 8 (layout.size - index * 8) := by
    intro field isField
    have side := on_one_side (plain field isField) (laid.aligned isField) index
    have filled := (plain field isField).2
    simp only [Field.Overlaps]
    omega
  obtain ⟨first, isFirst, here⟩ := laid.starts_at plain (Nat.zero_le _) before
  cases range : layout.isFloatRange (index * 8) (min 8 (layout.size - index * 8)) with
  | error raised =>
    simp [isFloatRange, Word.add, Word.check, fits, bind, Except.bind, pure, Except.pure] at range
  | ok isFloat =>
    refine ⟨isFloat, rfl, ?_⟩
    have exact_ := @isFloatRange_ok_iff layout (index * 8) (min 8 (layout.size - index * 8))
    rw [range, Except.ok.injEq] at exact_
    rw [exact_]
    constructor
    · rintro ⟨_, _, floats⟩ field isField overlaps
      obtain ⟨after, ahead⟩ := (starts field isField).mp overlaps
      exact floats field isField after ahead
    · intro floats
      refine ⟨fits, ⟨first, isFirst, by omega, by omega⟩, fun field isField after ahead => ?_⟩
      exact floats field isField ((starts field isField).mpr ⟨after, ahead⟩)

end Declared

end Layout

namespace SystemV

theorem place_class {state next : State} {arg : ArgShape} {placement : Placement} {layout : Layout}
    (left : placer.Left state) (done : place state arg = .ok (placement, next))
    (hasLayout : arg.layout = some layout) (isStruct : arg.ty.isStruct = true) {piece : Chunk}
    (mem : piece ∈ chunks layout.size 8) :
    (∃ segment ∈ placement.segments, segment.chunk = piece ∧ segment.inFloatReg = true)
      ↔ placement.hasReg = true ∧ layout.isFloatRange piece.offset piece.len = .ok true := by
  obtain ⟨size, sized, placed⟩ := place_ok done
  cases placed with
  | eightbytes other parts segments _ same _ cut taken =>
    cases hasLayout.symm.trans same
    cases arg.size_struct isStruct hasLayout sized
    obtain ⟨_, _, _, _, seated⟩ := takeEightbytes_ok (eightbyte_narrow cut) taken
    have pieces := (seated_chunks seated).trans (eightbytes_pieces cut)
    have class_ : ∀ segment ∈ segments, layout.isFloatRange segment.start segment.size = .ok segment.inFloatReg := by
      intro segment isSegment
      obtain ⟨part, isPart, isSeated⟩ := forall₂_partner seated isSegment
      rw [isSeated.inFloatReg left, ← eightbytes_ranges cut isPart, ← isSeated.1]
      rfl
    constructor
    · rintro ⟨segment, isSegment, rfl, inFloat⟩
      refine ⟨any_eq_true.mpr ⟨segment, isSegment, ?_⟩, inFloat ▸ class_ segment isSegment⟩
      cases inReg : segment.reg? with
      | none => simp [Segment.inFloatReg, inReg] at inFloat
      | some reg => simp [Segment.isReg, inReg]
    · rintro ⟨_, range⟩
      rw [← pieces] at mem
      obtain ⟨segment, isSegment, rfl⟩ := mem_map.mp mem
      exact ⟨segment, isSegment, rfl, Except.ok.inj ((class_ segment isSegment).symm.trans range)⟩
  | scalar _ _ scalar => cases hasLayout.symm.trans scalar
  | stack _ _ put =>
    simp only [StackArea.put, except_bind_ok_iff, except_pure_ok_iff, Prod.mk.injEq] at put
    obtain ⟨⟨offset, _⟩, _, rfl, rfl⟩ := put
    refine iff_of_false ?_ fun inRegs => Bool.false_ne_true inRegs.1
    rintro ⟨segment, isSegment, _, inFloat⟩
    cases mem_singleton.mp isSegment
    cases inFloat

end SystemV

theorem float_eightbytes_in_float_registers (name : String) (types : List ValueType) (pointerSize : Nat)
    (layout : Layout) (pointers : pointerSize = 4 ∨ pointerSize = 8) (solid : ∀ ty ∈ types, ty ≠ .void)
    (made : Layout.ofFields name types pointerSize = .ok layout) :
    layout.fields.map Field.ty = types
      ∧ (∃ last widest, Layout.Laid pointerSize 0 layout.fields last
        ∧ widest ∈ layout.fields.map (Field.width pointerSize)
        ∧ (∀ field ∈ layout.fields, field.width pointerSize ≤ widest)
        ∧ FirstMultiple widest last layout.size)
      ∧ (∀ field ∈ layout.fields, field.offset / 8 = (field.offset + field.width pointerSize - 1) / 8)
      ∧ (∀ piece ∈ chunks layout.size 8, ∃ isFloat, layout.isFloatRange piece.offset piece.len = .ok isFloat
        ∧ (isFloat = true
          ↔ ∀ field ∈ layout.fields, field.Overlaps pointerSize piece → field.ty.isFloat = true))
      ∧ ∀ call args answer, SystemV.classify call args = .ok answer →
        List.Forall₂ (fun arg placement => arg.layout = some layout → arg.ty.isStruct = true →
          ∀ piece ∈ chunks layout.size 8,
            (∃ segment ∈ placement.segments, segment.chunk = piece ∧ segment.inFloatReg = true)
              ↔ placement.hasReg = true
                ∧ ∀ field ∈ layout.fields, field.Overlaps pointerSize piece → field.ty.isFloat = true)
          args answer.placements := by
  obtain ⟨last, widest, laid, plain, reached, atMost, ends⟩ := Layout.ofFields_laid pointers solid made
  obtain ⟨_, placed, _⟩ := Layout.ofFields_ok made
  refine ⟨Layout.place_types placed, ⟨last, widest, laid, reached, atMost, ends⟩,
    fun field isField => Layout.within_eightbyte (plain field isField) (laid.aligned isField),
    fun piece inside => Layout.eightbyte_class pointers solid made inside, fun call args answer done => ?_⟩
  have handed : SystemV.placer.classify args = .ok answer := done
  obtain ⟨last, placed, _⟩ := Placer.classify_ok handed
  refine placeAll_related SystemV.placer.Left _ (fun state arg placement next left done =>
    ⟨SystemV.conforms.left left done, fun hasLayout isStruct piece inside => ?_⟩)
    (Placer.left_start _) placed
  obtain ⟨isFloat, range, floats⟩ := Layout.eightbyte_class pointers solid made inside
  rw [SystemV.place_class left done hasLayout isStruct inside, range, ← floats, Except.ok.injEq]

-- An integer and a float in the first eightbyte, a double in the second.
def mixedFields : Layout := ⟨"Mixed", 16, [⟨0, .i8⟩, ⟨4, .f32⟩, ⟨8, .f64⟩]⟩

theorem double_behind_mixed_eightbyte :
    Layout.ofFields "Mixed" [.i8, .f32, .f64] 8 = .ok mixedFields
      ∧ ∃ answer : Classification,
        SystemV.classify {} [{ ty := .struct 0, layout := some mixedFields }] = .ok answer
          ∧ answer.placements.map (fun placement : Placement => placement.segments.map Segment.inFloatReg)
            = [[false, true]]
          ∧ ∀ placement ∈ answer.placements, ∃ segment ∈ placement.segments, segment.chunk = ⟨8, 8⟩ := by
  have made : Layout.ofFields "Mixed" [.i8, .f32, .f64] 8 = .ok mixedFields := by decide +kernel
  obtain ⟨answer, done, banks⟩ := except_ok_of_any
    (SystemV.classify {} [{ ty := .struct 0, layout := some mixedFields }])
    (fun answer => answer.placements.map (fun placement => placement.segments.map Segment.inFloatReg)
      == [[false, true]] && answer.placements.all Placement.hasReg) (by decide +kernel)
  simp only [Bool.and_eq_true, beq_iff_eq, List.all_eq_true] at banks
  refine ⟨made, answer, done, banks.1, fun placement inside => ?_⟩
  obtain ⟨_, _, _, _, classes⟩ := float_eightbytes_in_float_registers "Mixed" [.i8, .f32, .f64] 8 mixedFields
    (.inr rfl) (by decide) made
  obtain ⟨arg, isArg, holds⟩ := forall₂_partner (classes {} _ answer done).flip inside
  cases List.mem_singleton.mp isArg
  have double : ∀ field ∈ mixedFields.fields, field.Overlaps 8 ⟨8, 8⟩ → field.ty.isFloat = true := by
    simp [mixedFields, Field.Overlaps, Field.width, ValueType.scalarSize, ValueType.isFloat]
  obtain ⟨segment, isSegment, same, _⟩ := (holds rfl rfl ⟨8, 8⟩ (by decide +kernel)).mpr
    ⟨banks.2 placement inside, double⟩
  exact ⟨segment, isSegment, same⟩

end CallLowering
