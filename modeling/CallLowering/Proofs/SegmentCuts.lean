import CallLowering.Proofs.Placements

/-! How a convention cuts the structs that it spreads over several places. -/

namespace CallLowering

open List

variable {size pointerSize align word : Nat} {placement : Placement} {layout : Layout} {piece : Chunk}
  {free free' : List Reg} {parts : List SystemV.Eightbyte} {regs : List Reg} {segments : List Segment} {bank : RegBank}
  {segment : Segment} {area area' : StackArea} {member : ValueType} {part : Eightbyte} {isVarargs : Bool}

theorem le_foldl_max (sizes : List Nat) (init : Nat) :
    init ≤ sizes.foldl max init ∧ ∀ size ∈ sizes, size ≤ sizes.foldl max init := by
  induction sizes generalizing init with
  | nil => exact ⟨Nat.le_refl _, by simp⟩
  | cons first rest ih =>
    obtain ⟨above, others⟩ := ih (max init first)
    rw [foldl_cons]
    refine ⟨Nat.le_trans (Nat.le_max_left _ _) above, forall_mem_cons.mpr ⟨?_, others⟩⟩
    exact Nat.le_trans (Nat.le_max_right _ _) above

theorem foldl_max_mem (sizes : List Nat) (init : Nat) :
    sizes.foldl max init = init ∨ sizes.foldl max init ∈ sizes := by
  induction sizes generalizing init with
  | nil => exact .inl rfl
  | cons first rest ih =>
    rw [foldl_cons]
    rcases ih (max init first) with same | later
    · rcases Nat.le_total first init with less | more
      · exact .inl (same.trans (Nat.max_eq_left less))
      · exact .inr (mem_cons.mpr (.inl (same.trans (Nat.max_eq_right more))))
    · exact .inr (mem_cons_of_mem _ later)

theorem roundUp_mod (n unit : Nat) : roundUp n unit % unit = 0 := Nat.mul_mod_left _ unit

namespace Layout

-- A layout as declarations make it for a target with 32-bit or 64-bit pointers.
def Declared (layout : Layout) : Prop :=
  ∃ name types pointerSize, (pointerSize = 4 ∨ pointerSize = 8)
    ∧ ofFields name types pointerSize = .ok layout

variable {layout : Layout} {field : Field}

theorem Declared.natural (declared : layout.Declared) : layout.Natural := by
  obtain ⟨name, types, pointerSize, _, made⟩ := declared
  exact ⟨name, types, pointerSize, made⟩

theorem ofFields_ok {name : String} {types : List ValueType} (made : ofFields name types pointerSize = .ok layout) :
    ∃ last, place name pointerSize 0 types = .ok (layout.fields, last)
      ∧ layout.size = roundUp last (alignment pointerSize types) ∧ layout.size < Word.limit := by
  by_cases none : types.isEmpty = true
  · simp only [ofFields, none, if_true] at made
    cases made
  · simp only [ofFields, none, Bool.false_eq_true, if_false, except_bind_ok_iff, Word.roundUp,
      Word.check_ok_iff, except_pure_ok_iff] at made
    obtain ⟨⟨fields, last⟩, placed, size, ⟨small, rfl⟩, rfl⟩ := made
    exact ⟨last, placed, rfl, small⟩

theorem Natural.size_lt (natural : layout.Natural) : layout.size < Word.limit := by
  obtain ⟨name, types, pointerSize, made⟩ := natural
  obtain ⟨_, _, _, small⟩ := ofFields_ok made
  exact small

theorem scalarSize_cases {ty : ValueType} (sized : ty.scalarSize pointerSize = some size) :
    size = 0 ∨ size = 1 ∨ size = 2 ∨ size = 4 ∨ size = 8 ∨ size = pointerSize := by
  cases ty with
  | struct index => cases sized
  | _ =>
    cases sized
    simp

theorem Declared.float_size (declared : layout.Declared) (mem : field ∈ layout.fields)
    (isFloat : field.ty.isFloat = true) : layout.size % 4 = 0 := by
  obtain ⟨name, types, pointerSize, pointers, made⟩ := declared
  obtain ⟨last, placed, sized, _⟩ := ofFields_ok made
  have inTypes : field.ty ∈ types := by
    rw [← place_types placed]
    exact mem_map_of_mem mem
  have atLeast : 4 ≤ alignment pointerSize types := by
    have bounds := (le_foldl_max (types.filterMap (ValueType.scalarSize pointerSize)) 1).2
    cases ty : field.ty with
    | f32 => exact bounds 4 (mem_filterMap.mpr ⟨field.ty, inTypes, by rw [ty]; rfl⟩)
    | f64 =>
      exact Nat.le_trans (by omega)
        (bounds 8 (mem_filterMap.mpr ⟨field.ty, inTypes, by rw [ty]; rfl⟩))
    | _ => simp [ty, ValueType.isFloat] at isFloat
  have aligned : alignment pointerSize types = 4 ∨ alignment pointerSize types = 8 := by
    rcases foldl_max_mem (types.filterMap (ValueType.scalarSize pointerSize)) 1 with one | member
    · rw [alignment, one] at atLeast
      omega
    · obtain ⟨ty, _, size⟩ := mem_filterMap.mp member
      have cases := scalarSize_cases size
      rw [alignment] at atLeast ⊢
      omega
  have rounded := roundUp_mod last (alignment pointerSize types)
  rw [← sized] at rounded
  rcases aligned with same | same <;> rw [same] at rounded <;> omega

theorem isFloatRange_ok_iff {start len : Nat} :
    layout.isFloatRange start len = .ok true ↔ start + len < Word.limit
      ∧ (∃ field ∈ layout.fields, start ≤ field.offset ∧ field.offset < start + len)
      ∧ ∀ field ∈ layout.fields, start ≤ field.offset → field.offset < start + len → field.ty.isFloat = true := by
  simp only [isFloatRange, Word.add, except_bind_ok_iff, Word.check_ok_iff, except_pure_ok_iff, Bool.and_eq_true,
    Bool.not_eq_true', isEmpty_eq_false_iff_exists_mem,
    mem_filter, decide_eq_true_eq, all_eq_true]
  constructor
  · rintro ⟨_, ⟨fits, rfl⟩, ⟨field, mem⟩, floats⟩
    exact ⟨fits, ⟨field, mem⟩, fun other member above below => floats other ⟨member, above, below⟩⟩
  · rintro ⟨fits, ⟨field, mem⟩, floats⟩
    exact ⟨_, ⟨fits, rfl⟩, ⟨field, mem⟩, fun other within => floats other within.1 within.2.1 within.2.2⟩

theorem Natural.aggregate_range (natural : layout.Natural)
    (isAggregate : layout.floatAggregate = some member) (mem : field ∈ layout.fields) :
    ∃ width, (width = if member == .f64 then 8 else 4) ∧ field.ty = member
      ∧ (∀ pointerSize, member.scalarSize pointerSize = some width)
      ∧ layout.isFloatRange field.offset width = .ok true := by
  obtain ⟨width, wide, scalar, long, laid⟩ := natural.aggregate isAggregate
  have small := natural.size_lt
  have positive : 0 < width := by
    rw [wide]
    split <;> omega
  have isFloat : member.isFloat = true := by
    cases fields : layout.fields with
    | nil => simp [floatAggregate, fields] at isAggregate
    | cons first rest =>
      simp only [floatAggregate, fields, Option.ite_none_right_eq_some, Bool.and_eq_true,
        Option.some.injEq] at isAggregate
      exact isAggregate.2 ▸ isAggregate.1.1.1
  have each : ∀ other ∈ layout.fields, other.ty = member := by
    rw [laid]
    intro other there
    obtain ⟨_, _, rfl⟩ := mem_map.mp there
    rfl
  have fits : field.offset + width ≤ layout.size := by
    have there := mem
    rw [laid] at there
    obtain ⟨index, bound, rfl⟩ := mem_map.mp there
    rw [long, ← Nat.succ_mul]
    exact Nat.mul_le_mul_right width (mem_range.mp bound)
  refine ⟨width, wide, each field mem, scalar, isFloatRange_ok_iff.mpr ⟨by omega, ?_, ?_⟩⟩
  · exact ⟨field, mem, Nat.le_refl _, by omega⟩
  · intro other there _ _
    rw [each other there, isFloat]

-- The places that a struct is spread over: what a float register holds, and what all but the last hold.
structure Cuts (layout : Layout) (word : Nat) (segments : List Segment) : Prop where
  filled : ∀ segment ∈ segments, 0 < segment.size
  floats : ∀ segment ∈ segments, segment.inFloatReg = true →
    (segment.size = 4 ∨ segment.size = 8) ∧ layout.isFloatRange segment.start segment.size = .ok true
  words : ∀ segment ∈ segments.dropLast, segment.inFloatReg = true ∨ segment.size = word

end Layout

section Chunks

variable {size unit word : Nat}

theorem chunk_filled (positive : 0 < unit) (mem : piece ∈ chunks size unit) : 0 < piece.len := by
  obtain ⟨index, bound, rfl⟩ := mem_map.mp mem
  have starts := chunk_starts size index positive (mem_range.mp bound)
  simp only [Nat.lt_min]
  omega

theorem chunk_whole (positive : 0 < unit) (mem : piece ∈ (chunks size unit).dropLast) : piece.len = unit := by
  rw [chunks, ← map_dropLast, dropLast_eq_take, length_range, take_range] at mem
  obtain ⟨index, bound, rfl⟩ := mem_map.mp mem
  have bound := mem_range.mp bound
  have starts := chunk_starts size (index + 1) positive (by omega)
  rw [Nat.succ_mul] at starts
  exact Nat.min_eq_left (by omega)

theorem chunk_multiple (multiple : size % 4 = 0) (mem : piece ∈ chunks size 8) :
    piece.len = 4 ∨ piece.len = 8 := by
  have filled := chunk_filled (by omega) mem
  obtain ⟨index, _, rfl⟩ := mem_map.mp mem
  simp only at filled ⊢
  omega

theorem inRegs_bank {pieces : List Chunk} (ofBank : ∀ reg ∈ regs, reg.bank = bank)
    (mem : segment ∈ (Placement.inRegs regs pieces).segments) : segment.inFloatReg = (bank == .float) := by
  obtain ⟨index, bound, rfl⟩ := getElem_of_mem mem
  simp only [Placement.inRegs, length_zipWith] at bound
  simp [Placement.inRegs, Segment.inFloatReg, Segment.reg?, ofBank regs[index] (getElem_mem _)]

end Chunks

namespace Layout.Cuts

variable {layout : Layout} {word : Nat}

theorem of_chunks (positive : 0 < word)
    (same : segments.map Segment.chunk = chunks size word)
    (floats : ∀ segment ∈ segments, segment.inFloatReg = true →
      (segment.size = 4 ∨ segment.size = 8)
        ∧ layout.isFloatRange segment.start segment.size = .ok true) : layout.Cuts word segments where
  filled := fun segment mem =>
    chunk_filled positive (same ▸ mem_map_of_mem mem)
  floats := floats
  words := fun segment mem => .inr (chunk_whole positive (by
    rw [← same, ← map_dropLast]
    exact mem_map_of_mem mem))

theorem of_inRegs (layout : Layout) (positive : 0 < word)
    (ints : ∀ reg ∈ regs, reg.bank = .int) (enough : regs.length = chunkCount size word) :
    layout.Cuts word (Placement.inRegs regs (chunks size word)).segments := by
  rw [← length_chunks] at enough
  refine of_chunks positive (inRegs_chunks enough) fun segment mem inFloat => ?_
  rw [inRegs_bank ints mem] at inFloat
  cases inFloat

theorem of_members (natural : layout.Natural)
    (isAggregate : layout.floatAggregate = some member)
    (each : ∀ segment ∈ segments, segment.inFloatReg = true ∧ ∃ field ∈ layout.fields,
      segment.start = field.offset ∧ segment.size = if member == .f64 then 8 else 4) :
    layout.Cuts word segments where
  filled := by
    intro segment mem
    obtain ⟨_, field, _, _, long⟩ := each segment mem
    rw [long]
    split <;> omega
  floats := by
    intro segment mem _
    obtain ⟨_, field, isField, starts, long⟩ := each segment mem
    obtain ⟨width, wide, _, _, range⟩ := natural.aggregate_range isAggregate isField
    rw [starts, long, ← wide]
    refine ⟨?_, range⟩
    rw [wide]
    split <;> simp
  words := fun segment mem => .inl (each segment (dropLast_subset _ mem)).1

end Layout.Cuts

def Layout.SpreadBy (layout : Layout) (word : Nat) (placement : Placement) : Prop :=
  layout.Declared → placement.isMulti = true → layout.Cuts word placement.segments

theorem Layout.SpreadBy.of_single (single : placement.isMulti = false) : layout.SpreadBy word placement := by
  intro _ multi
  rw [single] at multi
  cases multi

theorem Through.cuts {splits : Prop}
    (passed : Through word align splits (chunks size word) free area size placement free' area')
    (layout : Layout) (positive : 0 < word) (ints : ∀ reg ∈ free, reg.bank = .int) :
    layout.SpreadBy word placement := by
  cases passed with
  | inRegs regs _ taken enough =>
    rw [length_chunks] at enough
    exact fun _ _ => .of_inRegs layout positive (fun reg mem => ints reg (by simp [taken, mem])) enough
  | split offset _ _ _ more _ =>
    have counted := (chunkCount_mul free.length positive).symm
    have front := Layout.Cuts.of_inRegs layout positive ints counted
    have same := inRegs_chunks (by rw [length_chunks, ← counted])
    refine fun _ _ => ⟨?_, ?_, fun segment mem => .inr ?_⟩
    · exact forall_mem_append.mpr ⟨front.filled, forall_mem_singleton.mpr (by simp only; omega)⟩
    · exact forall_mem_append.mpr ⟨front.floats, forall_mem_singleton.mpr Bool.noConfusion⟩
    · rw [dropLast_concat] at mem
      have chunk := mem_map_of_mem (f := Segment.chunk) mem
      rw [same, chunks_mul _ positive] at chunk
      obtain ⟨_, _, chunkEq⟩ := mem_map.mp chunk
      exact (congrArg Chunk.len chunkEq).symm
  | onStack => exact .of_single rfl

-- A convention that cuts what it spreads, as long as its registers are those that it starts with.
def Placer.Cuts (word : Nat) (placer : Placer) : Prop :=
  ∀ state arg placement next, placer.Left state → placer.place state arg = .ok (placement, next) →
    ∀ layout, arg.layout = some layout → arg.ty.isStruct = true → layout.SpreadBy word placement

theorem ofBank {seq later : RegSequence} (all : ∀ reg ∈ seq.regs, reg.bank = bank) (follows : later.Follows seq)
    (reg : Reg) (mem : reg ∈ later.free) : reg.bank = bank :=
  all reg (RegSequence.free_subset follows mem)

theorem ArgShape.size_struct (arg : ArgShape) (isStruct : arg.ty.isStruct = true)
    (hasLayout : arg.layout = some layout) (done : arg.size pointerSize = .ok size) : size = layout.size := by
  obtain ⟨ty, _, role⟩ := arg
  cases hasLayout
  cases ty with
  | struct index =>
    cases done
    rfl
  | _ => cases isStruct

theorem StackArea.put_single {slot : Nat}
    (done : area.put size slot align = .ok (placement, area')) : placement.isMulti = false := by
  simp only [put, except_bind_ok_iff, except_pure_ok_iff, Prod.mk.injEq] at done
  obtain ⟨⟨offset, _⟩, _, rfl, _⟩ := done
  rfl

namespace SystemV

variable {state : State}

theorem banked (left : placer.Left state) {float : Bool} {reg : Reg}
    (mem : reg ∈ state.bank float) : reg.bank = if float then .float else .int := by
  simp only [Placer.Left, placer, List.forall₂_cons, List.forall₂_nil_left_iff, and_true] at left
  cases float with
  | false => exact ofBank (by decide) left.1 reg mem
  | true => exact ofBank (by decide) left.2 reg mem

theorem eightbytes_ranges (done : eightbytes layout size = .ok parts) (mem : part ∈ parts) :
    layout.isFloatRange part.piece.offset part.piece.len = .ok part.float := by
  obtain ⟨piece, _, here⟩ := forall₂_partner (mapM_except_ok_iff.mp done).flip mem
  obtain ⟨isFloat, found, same⟩ := except_bind_ok_iff.mp here
  cases same
  exact found

theorem Seated.inFloatReg (left : placer.Left state)
    (seated : Seated state segment part) : segment.inFloatReg = part.float := by
  obtain ⟨_, reg, inBank, inReg⟩ := seated
  have ofBank := banked left inBank
  cases isFloat : part.float <;> simp [Segment.inFloatReg, Segment.reg?, inReg, ofBank, isFloat]

theorem eightbytes_cuts (declared : layout.Declared) (left : placer.Left state)
    (cut : eightbytes layout layout.size = .ok parts) (seated : List.Forall₂ (Seated state) segments parts) :
    layout.Cuts 8 segments := by
  have same := (seated_chunks seated).trans (eightbytes_pieces cut)
  refine .of_chunks (by omega) same fun segment mem inFloat => ?_
  obtain ⟨part, inParts, isSeated⟩ := forall₂_partner seated mem
  have range := eightbytes_ranges cut inParts
  rw [← isSeated.1, ← isSeated.inFloatReg left, inFloat] at range
  obtain ⟨_, ⟨field, isField, above, below⟩, floats⟩ := Layout.isFloatRange_ok_iff.mp range
  have multiple := declared.float_size isField (floats field isField above below)
  exact ⟨chunk_multiple multiple (same ▸ mem_map_of_mem mem), range⟩

theorem cuts : placer.Cuts 8 := by
  intro (state : State) arg placement (next : State) left done layout hasLayout isStruct
  obtain ⟨size, sized, placed⟩ := place_ok done
  cases placed with
  | eightbytes other parts segments _ same _ cut taken =>
    cases hasLayout.symm.trans same
    cases arg.size_struct isStruct hasLayout sized
    obtain ⟨_, _, _, _, seated⟩ := takeEightbytes_ok (eightbyte_narrow cut) taken
    exact fun declared _ => eightbytes_cuts declared left cut seated
  | scalar _ _ scalar => cases hasLayout.symm.trans scalar
  | stack _ _ put => exact .of_single (StackArea.put_single put)

end SystemV

namespace Arm64

theorem members_cuts (passed : Through 8 8 False (layout.fields.map fieldChunk) free area size placement free' area')
    (isAggregate : layout.floatAggregate = some member) (floats : ∀ reg ∈ free, reg.bank = .float) :
    layout.SpreadBy 8 placement := by
  cases passed with
  | inRegs regs _ taken enough =>
    refine fun declared _ => .of_members declared.natural isAggregate fun segment mem => ?_
    refine ⟨inRegs_bank (fun reg there => floats reg (by simp [taken, there])) mem, ?_⟩
    have chunk := mem_map_of_mem (f := Segment.chunk) mem
    rw [inRegs_chunks enough] at chunk
    obtain ⟨field, isField, same⟩ := mem_map.mp chunk
    obtain ⟨width, wide, sameType, scalar, _⟩ :=
      declared.natural.aggregate_range isAggregate isField
    simp only [fieldChunk, Segment.chunk, Chunk.mk.injEq, sameType, scalar, Option.getD_some] at same
    exact ⟨field, isField, same.1.symm, same.2.symm.trans wide⟩
  | split _ _ impossible => exact impossible.elim
  | onStack => exact .of_single rfl

theorem cuts (winVarargs : Bool) : (placer winVarargs).Cuts 8 := by
  intro (state : State) arg placement (next : State) left done layout hasLayout _
  simp only [Placer.Left, placer, List.forall₂_cons, List.forall₂_nil_left_iff, and_true] at left
  obtain ⟨size, _, placed⟩ := place_ok done
  cases placed with
  | direct _ passed => exact passed.2.through.cuts layout (by omega) (ofBank (by decide) left.1)
  | pointer pointer same _ _ passed =>
    obtain ⟨place, single⟩ := passed.2.through.single (by omega) (Nat.le_refl 8)
    exact .of_single (by rw [same, Placement.isMulti, single]; rfl)
  | float floating passed =>
    have isAggregate := (Bool.and_eq_true_iff.mp floating).1
    rw [ArgShape.isFloating, hasLayout] at isAggregate
    obtain ⟨member, isAggregate⟩ := Option.isSome_iff_exists.mp isAggregate
    rw [floatPieces, hasLayout] at passed
    exact members_cuts passed.2.through isAggregate (ofBank (by decide) left.2)

end Arm64

namespace Arm32

theorem cuts : (placer isVarargs).Cuts 4 := by
  intro (state : State) arg placement (next : State) left done layout hasLayout _
  simp only [Placer.Left, placer, List.forall₂_cons, List.forall₂_nil_left_iff, and_true] at left
  obtain ⟨size, _, placed⟩ := place_ok done
  cases placed with
  | core _ passed =>
    exact passed.2.through.cuts layout (by omega) (ofBank (by decide) ((usable_follows state.core _).trans left))
  | float _ scalar => cases scalar.symm.trans hasLayout
  | aggregate other member _ same isAggregate passed =>
    cases hasLayout.symm.trans same
    cases passed with
    | taken start left _ held _ =>
      subst held
      refine fun declared _ => .of_members declared.natural isAggregate fun segment mem => ?_
      obtain ⟨⟨field, index⟩, there, rfl⟩ := mem_map.mp mem
      refine ⟨rfl, field, fst_mem_of_mem_zipIdx there, rfl, ?_⟩
      simp only [memberWidth]
      split <;> rfl
    | stack _ _ _ put _ => exact .of_single (StackArea.put_single put)

end Arm32

theorem WindowsX64.cuts : (placer isVarargs).Cuts 8 := by
  intro state arg placement next _ done layout _ _
  refine .of_single ?_
  simp only [placer, place, except_bind_ok_iff] at done
  obtain ⟨size, _, done⟩ := done
  split at done
  all_goals
    obtain ⟨_, _, same⟩ := except_bind_ok_iff.mp done
    cases same
    rfl

theorem X86.cuts (call : CallShape) : (placer call).Cuts 4 := by
  intro state arg placement next _ done layout hasLayout _
  refine .of_single ?_
  simp only [placer, place, except_bind_ok_iff] at done
  obtain ⟨size, _, done⟩ := done
  split at done
  · rename_i small
    simp [hasLayout] at small
  · simp only [except_bind_ok_iff, lift_except_ok_iff, except_pure_ok_iff] at done
    obtain ⟨⟨_, _⟩, put, rfl, _⟩ := done
    exact StackArea.put_single put

namespace Target

theorem classify_cuts {triple : Triple} {call : CallShape} {args : List ArgShape}
    {answer : Classification} (done : (ofTriple triple).classify call args = .ok answer) :
    List.Forall₂ (fun arg placement => ∀ layout, arg.layout = some layout → arg.ty.isStruct = true →
      layout.SpreadBy triple.pointerSize placement) args answer.placements := by
  rw [classify_eq] at done
  obtain ⟨last, placed, _⟩ := Placer.classify_ok done
  have cuts := placer_cases triple (WindowsX64.cuts) SystemV.cuts (X86.cuts call) Arm64.cuts (Arm32.cuts)
  exact placeAll_related _ _ (fun state arg placement next left done =>
    ⟨(placer_conforms triple call).left left done, cuts state arg placement next left done⟩)
    (Placer.left_start _) placed

end Target

end CallLowering
