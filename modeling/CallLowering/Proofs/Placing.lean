import CallLowering.Placement.Target
import CallLowering.Proofs.RegSequences
import Mathlib.Data.List.Basic
import Mathlib.Data.List.Forall2
import Mathlib.Data.List.Nodup
import Mathlib.Data.List.Perm.Subperm

/-! What a convention hands out. -/

namespace CallLowering

open List

variable {size align count pointerSize slot unit : Nat} {area area' : StackArea} {placement : Placement}
  {arg : ArgShape} {answer : Classification} {args : List ArgShape} {placements : List Placement}
  {free free' : List Reg} {stop : Stop} {member : ValueType} {name : String} {width last : Nat}

theorem roundUp_mul (count : Nat) (positive : 0 < unit) : roundUp (count * unit) unit = count * unit := by
  simp only [roundUp]
  rw [Nat.add_comm, Nat.add_mul_div_right _ _ positive, Nat.div_eq_of_lt (by omega), Nat.zero_add]

theorem roundUp_mono {n m : Nat} (unit : Nat) (below : n ≤ m) : roundUp n unit ≤ roundUp m unit :=
  Nat.mul_le_mul_right unit (Nat.div_le_div_right (by omega))

namespace Layout

def Natural (layout : Layout) : Prop :=
  ∃ name types pointerSize, ofFields name types pointerSize = .ok layout

variable {types : List ValueType}

theorem place_types {next : Nat} {fields : List Field}
    (done : place name pointerSize next types = .ok (fields, last)) : fields.map Field.ty = types := by
  induction types generalizing next fields with
  | nil =>
    cases done
    rfl
  | cons ty rest ih =>
    unfold place at done
    split at done
    · cases done
    · simp only [except_bind_ok_iff, except_pure_ok_iff, Prod.mk.injEq] at done
      obtain ⟨offset, _, fieldEnd, _, ⟨others, _⟩, placed, rfl, rfl⟩ := done
      rw [map_cons, ih placed]

theorem place_equal (count : Nat) (member : ValueType) (sized : member.scalarSize pointerSize = some width)
    (positive : 0 < width) (types : List ValueType) (fields : List Field) (same : ∀ ty ∈ types, ty = member)
    (done : place name pointerSize (count * width) types = .ok (fields, last)) :
    fields = (List.range' count types.length).map (fun index => ⟨index * width, member⟩)
      ∧ last = (count + types.length) * width := by
  induction types generalizing count fields with
  | nil =>
    cases done
    exact ⟨rfl, rfl⟩
  | cons ty rest ih =>
    cases same ty (by simp)
    unfold place at done
    simp only [sized, except_bind_ok_iff, Word.roundUp, Word.add, Word.check_ok_iff, except_pure_ok_iff,
      Prod.mk.injEq] at done
    obtain ⟨offset, ⟨_, rfl⟩, fieldEnd, ⟨_, rfl⟩, ⟨others, _⟩, placed, rfl, rfl⟩ := done
    rw [Nat.max_eq_left positive, roundUp_mul count positive] at placed ⊢
    rw [← Nat.succ_mul] at placed
    obtain ⟨laid, ends⟩ := ih (count + 1) others (fun other mem => same other (by simp [mem])) placed
    rw [laid, ends, length_cons, range'_succ, map_cons, Nat.add_assoc, Nat.add_comm 1]
    exact ⟨rfl, rfl⟩

theorem alignment_equal (sized : member.scalarSize pointerSize = some width) (positive : 0 < width)
    (some_ : types ≠ []) (same : ∀ ty ∈ types, ty = member) : alignment pointerSize types = width := by
  have sizes : types.filterMap (ValueType.scalarSize pointerSize) = List.replicate types.length width := by
    rw [eq_replicate_of_mem same, filterMap_replicate_of_some sized, length_replicate]
  have widest : ∀ count, (List.replicate count width).foldl max width = width := fun count => by
    induction count with
    | zero => rfl
    | succ count ih => rw [replicate_succ, foldl_cons, Nat.max_self, ih]
  obtain ⟨first, rest, rfl⟩ := exists_cons_of_ne_nil some_
  rw [alignment, sizes, length_cons, replicate_succ, foldl_cons, Nat.max_eq_right positive,
    widest]

theorem Natural.aggregate {layout : Layout} (natural : layout.Natural)
    (isAggregate : layout.floatAggregate = some member) :
    ∃ width, (width = if member == .f64 then 8 else 4)
      ∧ (∀ pointerSize, member.scalarSize pointerSize = some width)
      ∧ layout.size = layout.fields.length * width
      ∧ layout.fields = (List.range layout.fields.length).map fun index => ⟨index * width, member⟩ := by
  obtain ⟨name, types, pointerSize, made⟩ := natural
  by_cases none : types.isEmpty = true
  · simp only [ofFields, none, if_true] at made
    cases made
  · simp only [ofFields, none, Bool.false_eq_true, if_false, except_bind_ok_iff, Word.roundUp,
      Word.check_ok_iff, except_pure_ok_iff] at made
    obtain ⟨⟨fields, last⟩, placed, size, ⟨_, rfl⟩, rfl⟩ := made
    have sameTypes := place_types placed
    cases fields with
    | nil => cases isAggregate
    | cons first rest =>
      simp only [floatAggregate, Option.ite_none_right_eq_some, Bool.and_eq_true, all_eq_true,
        beq_iff_eq, Option.some.injEq] at isAggregate
      obtain ⟨⟨⟨isFloat, _⟩, others⟩, rfl⟩ := isAggregate
      have same : ∀ ty ∈ types, ty = first.ty := by
        intro ty mem
        rw [← sameTypes] at mem
        obtain ⟨field, isField, rfl⟩ := mem_map.mp mem
        rcases mem_cons.mp isField with rfl | later
        · rfl
        · exact others field later
      have width : ∀ pointerSize, first.ty.scalarSize pointerSize
          = some (if first.ty == .f64 then 8 else 4) := by
        intro pointerSize
        cases ty : first.ty <;> simp_all [ValueType.isFloat, ValueType.scalarSize]
      have positive : 0 < if first.ty == .f64 then 8 else 4 := by
        split <;> omega
      obtain ⟨laid, ends⟩ := place_equal 0 first.ty (width pointerSize) positive
        types (first :: rest) same (by rwa [Nat.zero_mul])
      have aligned := alignment_equal (width pointerSize) positive
        (by simpa using none) same
      have count : types.length = (first :: rest).length := by rw [← sameTypes, length_map]
      refine ⟨_, rfl, width, ?_, ?_⟩
      · simp only [ends, aligned]
        rw [roundUp_mul _ positive, Nat.zero_add, count]
      · rw [range_eq_range', ← count]
        exact laid

end Layout

-- Segments one behind the other, from byte `start` of the argument to byte `stop`.
def Adjoining (start stop : Nat) : List Segment → Prop
  | [] => start = stop
  | segment :: rest => segment.start = start ∧ Adjoining (start + segment.size) stop rest

theorem Adjoining.append {start middle stop : Nat} {front back : List Segment}
    (first : Adjoining start middle front) (second : Adjoining middle stop back) :
    Adjoining start stop (front ++ back) := by
  induction front generalizing start with
  | nil =>
    cases first
    exact second
  | cons segment rest ih => exact ⟨first.1, ih first.2⟩

def Ascending (low high : Nat) : List (Nat × Nat) → Prop
  | [] => low ≤ high
  | (start, stop) :: rest => low ≤ start ∧ start ≤ stop ∧ Ascending stop high rest

namespace Ascending

variable {low middle high : Nat} {stretches front back : List (Nat × Nat)}

theorem append (first : Ascending low middle front) (second : Ascending middle high back) :
    Ascending low high (front ++ back) := by
  induction front generalizing low with
  | nil =>
    cases back with
    | nil => exact Nat.le_trans first second
    | cons stretch rest => exact ⟨Nat.le_trans first second.1, second.2⟩
  | cons stretch rest ih => exact ⟨first.1, first.2.1, ih first.2.2⟩

theorem to_above (ascending : Ascending low middle stretches) (above : middle ≤ high) :
    Ascending low high stretches := by
  have both : Ascending low high (stretches ++ []) := ascending.append above
  rwa [append_nil] at both

section Ascending

variable (ascending : Ascending low high stretches)

include ascending

theorem low_le_high : low ≤ high := by
  induction stretches generalizing low with
  | nil => exact ascending
  | cons first rest ih => exact Nat.le_trans ascending.1 (Nat.le_trans ascending.2.1 (ih ascending.2.2))

theorem bounds {stretch : Nat × Nat} (mem : stretch ∈ stretches) : low ≤ stretch.1 ∧ stretch.2 ≤ high := by
  induction stretches generalizing low with
  | nil => cases mem
  | cons first rest ih =>
    obtain ⟨above, forward, later⟩ := ascending
    rcases mem_cons.mp mem with rfl | below
    · exact ⟨above, later.low_le_high⟩
    · obtain ⟨higher, within⟩ := ih later below
      exact ⟨Nat.le_trans above (Nat.le_trans forward higher), within⟩

theorem apart : stretches.Pairwise fun first second => first.2 ≤ second.1 := by
  induction stretches generalizing low with
  | nil => exact .nil
  | cons first rest ih =>
    exact .cons (fun second mem => (ascending.2.2.bounds mem).1) (ih ascending.2.2)

end Ascending

end Ascending

namespace Segment

def stretch? (segment : Segment) : Option (Nat × Nat) :=
  segment.stackOffset?.map fun offset => (offset, offset + segment.size)

-- The registers that a segment takes: one of its bank for each word, and at least one.
def held (word : Nat) (segment : Segment) : List Reg :=
  match segment.place with
  | .reg reg => (List.range' reg.num (max 1 (segment.size / word))).map (Reg.mk reg.bank)
  | .stack _ => []

theorem held_narrow {word : Nat} (start : Nat) (reg : Reg) (positive : 0 < word) (narrow : size ≤ word) :
    held word ⟨.reg reg, start, size⟩ = [reg] := by
  have atMost : size / word ≤ 1 := by
    rw [← Nat.div_self positive]
    exact Nat.div_le_div_right narrow
  simp [held, Nat.max_eq_left atMost]

theorem mem_held {word : Nat} (segment : Segment) {reg : Reg} (inReg : segment.reg? = some reg) :
    reg ∈ segment.held word := by
  cases here : segment.place with
  | reg own =>
    simp only [reg?, here, Option.some.injEq] at inReg
    subst inReg
    simp only [held, here]
    exact mem_map.mpr ⟨own.num, mem_range'_1.mpr (by omega), rfl⟩
  | stack offset => simp [reg?, here] at inReg

end Segment

namespace Placement

def stretches (placement : Placement) : List (Nat × Nat) := placement.segments.filterMap Segment.stretch?

def held (word : Nat) (placement : Placement) : List Reg := placement.segments.flatMap (Segment.held word)

-- The segments hold the argument without a gap, or a pointer to a struct that is elsewhere.
structure Covers (placement : Placement) (pointerSize : Nat) (arg : ArgShape) : Prop where
  whole : placement.byRef = false →
    ∃ size, arg.size pointerSize = .ok size ∧ Adjoining 0 size placement.segments
  pointer : placement.byRef = true →
    arg.ty.isStruct = true ∧ ∃ place, placement.segments = [⟨place, 0, pointerSize⟩]

end Placement

-- A layout comes with structs only, and as declarations make it.
structure ArgShape.Described (arg : ArgShape) : Prop where
  ofStruct : arg.layout.isSome = true → arg.ty.isStruct = true
  natural : ∀ layout, arg.layout = some layout → layout.Natural

namespace ArgShape

-- Without a size there is nothing to place.
def isUnsized (arg : ArgShape) : Bool := arg.ty == .void || arg.ty.isStruct && arg.layout.isNone

def complaint (arg : ArgShape) : PlacementError :=
  if arg.ty == .void then .voidArgument arg.role else .noLayout arg.role arg.ty

theorem size_unsized (arg : ArgShape) (pointerSize : Nat) (isUnsized : arg.isUnsized = true) :
    arg.size pointerSize = .error (.refusal (.unplaceable arg.complaint)) := by
  obtain ⟨ty, layout, role⟩ := arg
  cases ty <;> cases layout <;> first | rfl | cases isUnsized

theorem size_sized (arg : ArgShape) (pointerSize : Nat) (isSized : arg.isUnsized = false) :
    ∃ size, arg.size pointerSize = .ok size := by
  obtain ⟨ty, layout, role⟩ := arg
  cases ty <;> cases layout <;> first | exact ⟨_, rfl⟩ | cases isSized

theorem unsized_of_size (failed : arg.size pointerSize = .error stop) :
    arg.isUnsized = true ∧ stop = .refusal (.unplaceable arg.complaint) := by
  cases isUnsized : arg.isUnsized with
  | false =>
    obtain ⟨size, sized⟩ := arg.size_sized pointerSize isUnsized
    cases sized.symm.trans failed
  | true =>
    cases (arg.size_unsized pointerSize isUnsized).symm.trans failed
    exact ⟨rfl, rfl⟩

end ArgShape

-- What one argument takes of the free registers and of the outgoing area.
structure Handed (word : Nat) (free free' : List Reg) (area area' : StackArea) (placement : Placement) :
    Prop where
  regs : (placement.held word ++ free').Subperm free
  stack : Ascending area.next area'.next placement.stretches

-- Every error but that a quantity leaves 32 bits.
def Fault.isUnexpected (raised : Fault) : Bool := raised != .wordOverflow

def Stop.isUnexpected : Stop → Bool
  | .fault raised => raised.isUnexpected
  | .refusal _ => true

-- A convention at work: what it keeps from one argument to the next, and how it places the next one.
structure Placer where
  State : Type
  place : State → ArgShape → Except Stop (Placement × State)
  start : State
  area : State → StackArea
  align : Nat
  free : State → List Reg
  -- the registers that are handed out in order
  sequences : State → List RegSequence

-- No cursor is past the end of its registers.
def Placer.Within (placer : Placer) (state : placer.State) : Prop := ∀ seq ∈ placer.sequences state, seq.Within

-- A convention that hands out what is free, each sequence from its front, and that stops where an argument
-- has no size or a quantity leaves 32 bits.
structure Placer.Conforms (placer : Placer) (word : Nat) : Prop where
  aligned : 0 < placer.align
  started : placer.Within placer.start
  hands : ∀ state arg placement next, placer.place state arg = .ok (placement, next) →
    Handed word (placer.free state) (placer.free next) (placer.area state) (placer.area next) placement
      ∧ List.Forall₂ RegSequence.Follows (placer.sequences next) (placer.sequences state)
      ∧ (arg.Described → placement.Covers word arg)
  sizes : ∀ state arg stop, arg.size word = .error stop → placer.place state arg = .error stop
  stops : ∀ state arg stop, placer.Within state → placer.place state arg = .error stop →
    arg.size word = .error stop ∨ stop.isUnexpected = false

-- The placements of a call: nothing is handed out twice, and each argument has its own.
structure Classification.Sound (answer : Classification) (word : Nat) (bank : List Reg) (bottom : Nat)
    (args : List ArgShape) : Prop where
  regs : (answer.placements.flatMap (Placement.held word)).Subperm bank
  stack : Ascending bottom answer.stackSize (answer.placements.flatMap Placement.stretches)
  covers : List.Forall₂ (fun arg placement => arg.Described → placement.Covers word arg) args
    answer.placements

section Conforming

variable {σ : Type} {place : σ → ArgShape → Except Stop (Placement × σ)} {state : σ}

theorem placeAll_take {last : σ} (count : Nat) (done : placeAll place state args = .ok (placements, last)) :
    ∃ middle, placeAll place state (args.take count) = .ok (placements.take count, middle)
      ∧ placeAll place middle (args.drop count) = .ok (placements.drop count, last) := by
  induction args generalizing state placements count with
  | nil =>
    cases done
    exact ⟨last, by simp [placeAll], by simp [placeAll]⟩
  | cons arg rest ih =>
    cases count with
    | zero => exact ⟨state, rfl, done⟩
    | succ count =>
      simp only [placeAll, except_bind_ok_iff, except_pure_ok_iff, Prod.mk.injEq] at done
      obtain ⟨⟨placement, next⟩, first, ⟨others, _⟩, later, rfl, rfl⟩ := done
      obtain ⟨middle, front, back⟩ := ih count later
      refine ⟨middle, ?_, back⟩
      simp only [take_succ_cons, placeAll, except_bind_ok_iff]
      exact ⟨(placement, next), first, (others.take count, middle), front, rfl⟩

theorem placeAll_related (inv : σ → Prop) (fact : ArgShape → Placement → Prop)
    (step : ∀ state arg placement next, inv state → place state arg = .ok (placement, next) →
      inv next ∧ fact arg placement) {last : σ} (started : inv state)
    (done : placeAll place state args = .ok (placements, last)) : List.Forall₂ fact args placements := by
  induction args generalizing state placements with
  | nil =>
    cases done
    exact .nil
  | cons arg rest ih =>
    simp only [placeAll, except_bind_ok_iff, except_pure_ok_iff, Prod.mk.injEq] at done
    obtain ⟨⟨placement, next⟩, first, ⟨others, _⟩, later, rfl, rfl⟩ := done
    obtain ⟨kept, holds⟩ := step state arg placement next started first
    exact .cons holds (ih kept later)

end Conforming

namespace Placer

variable {placer : Placer} {word : Nat}

def classify (placer : Placer) (args : List ArgShape) : Except Stop Classification := do
  let (placements, state) ← placeAll placer.place placer.start args
  pure { placements, stackSize := ← (placer.area state).size placer.align }

def Left (placer : Placer) (state : placer.State) : Prop :=
  List.Forall₂ RegSequence.Follows (placer.sequences state) (placer.sequences placer.start)

theorem left_start (placer : Placer) : placer.Left placer.start :=
  List.forall₂_same.mpr fun seq _ => .refl seq

theorem classify_ok (done : placer.classify args = .ok answer) :
    ∃ last, placeAll placer.place placer.start args = .ok (answer.placements, last)
      ∧ answer.stackSize = roundUp (placer.area last).next placer.align ∧ answer.stackSize < Word.limit := by
  simp only [classify, except_bind_ok_iff, lift_except_ok_iff, StackArea.size, Word.roundUp,
    Word.check_ok_iff, except_pure_ok_iff] at done
  obtain ⟨⟨placements, last⟩, placed, _, ⟨small, rfl⟩, rfl⟩ := done
  exact ⟨last, placed, rfl, small⟩

namespace Conforms

variable (conforms : placer.Conforms word) {state : placer.State}

include conforms

theorem left {next : placer.State} (left : placer.Left state)
    (done : placer.place state arg = .ok (placement, next)) : placer.Left next :=
  forall₂_through (conforms.hands state arg placement next done).2.1 left
    fun _ _ _ _ => RegSequence.Follows.trans

theorem within (left : placer.Left state) : placer.Within state := by
  intro seq mem
  obtain ⟨first, inStart, follows⟩ := forall₂_partner left mem
  exact follows.within (conforms.started first inStart)

theorem placeAll {last : placer.State}
    (done : CallLowering.placeAll placer.place state args = .ok (placements, last)) :
    (placements.flatMap (Placement.held word) ++ placer.free last).Subperm (placer.free state)
      ∧ Ascending (placer.area state).next (placer.area last).next (placements.flatMap Placement.stretches)
      ∧ (placer.Left state → placer.Left last)
      ∧ List.Forall₂ (fun arg placement => arg.Described → placement.Covers word arg) args placements := by
  induction args generalizing state placements with
  | nil =>
    cases done
    exact ⟨List.Subperm.refl _, Nat.le_refl _, id, .nil⟩
  | cons arg rest ih =>
    simp only [CallLowering.placeAll, except_bind_ok_iff, except_pure_ok_iff,
      Prod.mk.injEq] at done
    obtain ⟨⟨placement, next⟩, first, ⟨others, _⟩, later, rfl, rfl⟩ := done
    obtain ⟨handed, _, covered⟩ := conforms.hands state arg placement next first
    obtain ⟨regs, stack, ends, covers⟩ := ih later
    refine ⟨?_, ?_, fun left => ends (conforms.left left first), .cons covered covers⟩
    · rw [flatMap_cons, append_assoc]
      exact ((subperm_append_left _).mpr regs).trans handed.regs
    · rw [flatMap_cons]
      exact handed.stack.append stack

theorem sound (done : placer.classify args = .ok answer) :
    answer.Sound word (placer.free placer.start) (placer.area placer.start).next args := by
  obtain ⟨last, placed, size, _⟩ := classify_ok done
  obtain ⟨regs, stack, _, covers⟩ := conforms.placeAll placed
  exact ⟨(sublist_append_left _ _).subperm.trans regs,
    stack.to_above (size ▸ le_roundUp _ conforms.aligned), covers⟩

theorem take (count : Nat) (done : placer.classify args = .ok answer) :
    ∃ stackSize, placer.classify (args.take count)
      = .ok { placements := answer.placements.take count, stackSize } := by
  obtain ⟨last, placed, size, small⟩ := classify_ok done
  obtain ⟨middle, front, back⟩ := placeAll_take count placed
  obtain ⟨_, stack, _⟩ := conforms.placeAll back
  have smaller := Nat.lt_of_le_of_lt (roundUp_mono placer.align stack.low_le_high) (size ▸ small)
  simp only [classify, except_bind_ok_iff, lift_except_ok_iff, StackArea.size, Word.roundUp,
    Word.check_ok_iff, except_pure_ok_iff]
  exact ⟨_, _, front, _, ⟨smaller, rfl⟩, rfl⟩

theorem fails (left : placer.Left state) (failed : placer.place state arg = .error stop) :
    stop = .fault .wordOverflow ∨ arg.isUnsized = true ∧ stop = .refusal (.unplaceable arg.complaint) := by
  rcases conforms.stops state arg stop (conforms.within left) failed with sizeless | expected
  · exact .inr (ArgShape.unsized_of_size sizeless)
  · cases stop with
    | fault raised => exact .inl (congrArg Stop.fault (by simpa [Stop.isUnexpected, Fault.isUnexpected] using expected))
    | refusal => cases expected

theorem placeAll_outcome (left : placer.Left state) (args : List ArgShape) :
    (∀ result, CallLowering.placeAll placer.place state args = .ok result → args.find? ArgShape.isUnsized = none)
      ∧ ∀ stop, CallLowering.placeAll placer.place state args = .error stop → stop = .fault .wordOverflow
        ∨ ∃ arg, args.find? ArgShape.isUnsized = some arg ∧ stop = .refusal (.unplaceable arg.complaint) := by
  have isSized {state : placer.State} {arg : ArgShape} {placed : Placement × placer.State}
      (here : placer.place state arg = .ok placed) : ¬ arg.isUnsized = true := fun isUnsized => by
    cases here.symm.trans (conforms.sizes state arg _ (arg.size_unsized word isUnsized))
  induction args generalizing state with
  | nil => exact ⟨fun _ _ => rfl, fun stop failed => by cases failed⟩
  | cons arg rest ih =>
    refine ⟨fun result done => ?_, fun stop failed => ?_⟩
    · simp only [CallLowering.placeAll, except_bind_ok_iff] at done
      obtain ⟨⟨placement, next⟩, here, others, later, _⟩ := done
      rw [find?_cons_of_neg (isSized here)]
      exact (ih (conforms.left left here)).1 others later
    · simp only [CallLowering.placeAll, except_bind_error_iff] at failed
      rcases failed with here | ⟨⟨placement, next⟩, here, later | ⟨_, _, impossible⟩⟩
      · exact (conforms.fails left here).imp_right fun sizeless =>
          ⟨arg, find?_cons_of_pos sizeless.1, sizeless.2⟩
      · rw [find?_cons_of_neg (isSized here)]
        exact (ih (conforms.left left here)).2 stop later
      · cases impossible

theorem classify_outcome (args : List ArgShape) :
    (∀ answer, placer.classify args = .ok answer → args.find? ArgShape.isUnsized = none)
      ∧ ∀ stop, placer.classify args = .error stop → stop = .fault .wordOverflow
        ∨ ∃ arg, args.find? ArgShape.isUnsized = some arg ∧ stop = .refusal (.unplaceable arg.complaint) := by
  have placed := conforms.placeAll_outcome placer.left_start args
  refine ⟨fun answer done => ?_, fun stop failed => ?_⟩
  · obtain ⟨last, done, _⟩ := classify_ok done
    exact placed.1 _ done
  · simp only [classify, except_bind_error_iff, StackArea.size, Word.roundUp, Word.check] at failed
    rcases failed with here | ⟨_, _, tooLarge | ⟨_, _, impossible⟩⟩
    · exact placed.2 stop here
    · split at tooLarge <;> cases tooLarge
      exact .inl rfl
    · cases impossible

end Conforms

end Placer

section Allocation

variable {word : Nat} {regs : List Reg}

theorem bind_failed {ε α β : Type} {x : Except ε α} {f : α → Except ε β} {e : ε} (failed : x = .error e) :
    (x >>= f) = .error e := by
  rw [failed]
  rfl

theorem Word.check_avoids {bad : Fault → Bool} (harmless : bad .wordOverflow = false) {n : Nat} :
    Avoids bad (Word.check n) := by
  unfold Word.check
  split
  · exact .ok n
  · exact .error harmless

theorem StackArea.alloc_avoids (area : StackArea) (size slot align : Nat) :
    Avoids Fault.isUnexpected (area.alloc size slot align) :=
  (Word.check_avoids rfl).bind fun _ => (Word.check_avoids rfl).bind fun _ =>
    (Word.check_avoids rfl).bind fun _ => .pure _

theorem StackArea.put_avoids {α : Type} (area : StackArea) {result : Placement × StackArea → α} :
    Avoids Stop.isUnexpected (do
      let put ← liftM (area.put size slot align)
      pure (result put) : Except Stop α) :=
  ((area.alloc_avoids size slot align).bind fun _ => .pure _).lift.bind fun _ => .pure _

def Placement.Whole (placement : Placement) (size : Nat) : Prop :=
  placement.byRef = false ∧ Adjoining 0 size placement.segments

theorem Placement.Whole.covers (whole : placement.Whole size)
    (sized : arg.size word = .ok size) : placement.Covers word arg :=
  ⟨fun _ => ⟨size, sized, whole.2⟩, fun byRef => by rw [whole.1] at byRef; cases byRef⟩

theorem Handed.fewer {some_ : List Reg} (handed : Handed word some_ free' area area' placement)
    (less : some_.Subperm free) : Handed word free free' area area' placement :=
  ⟨handed.regs.trans less, handed.stack⟩

theorem Handed.beside (others : List Reg) (handed : Handed word free free' area area' placement) :
    Handed word (free ++ others) (free' ++ others) area area' placement :=
  ⟨by rw [← append_assoc]; exact (subperm_append_right others).mpr handed.regs, handed.stack⟩

theorem Handed.behind (others : List Reg) (handed : Handed word free free' area area' placement) :
    Handed word (others ++ free) (others ++ free') area area' placement :=
  ⟨(perm_append_comm_assoc _ _ _).subperm.trans ((subperm_append_left others).mpr handed.regs),
    handed.stack⟩

theorem StackArea.alloc_ascending {used offset : Nat} (within : used ≤ size) (slotted : 0 < slot)
    (aligned : 0 < align) (done : area.alloc size slot align = .ok (offset, area')) :
    Ascending area.next area'.next [(offset, offset + used)] := by
  simp only [alloc, except_bind_ok_iff, Word.roundUp, Word.add, Word.check_ok_iff, except_pure_ok_iff,
    Prod.mk.injEq] at done
  obtain ⟨start, ⟨_, rfl⟩, padded, ⟨_, rfl⟩, next, ⟨_, rfl⟩, rfl, rfl⟩ := done
  have above := le_roundUp area.next aligned
  have fits := le_roundUp size slotted
  exact ⟨above, by omega, by simp only [Ascending]; omega⟩

theorem StackArea.put_handed (free : List Reg) (slotted : 0 < slot) (aligned : 0 < align)
    (done : area.put size slot align = .ok (placement, area')) :
    Handed word free free area area' placement ∧ placement.Whole size := by
  simp only [put, except_bind_ok_iff, except_pure_ok_iff, Prod.mk.injEq] at done
  obtain ⟨⟨offset, _⟩, allocated, rfl, rfl⟩ := done
  have stack := alloc_ascending (Nat.le_refl _) slotted aligned allocated
  exact ⟨⟨List.Subperm.refl _, stack⟩, rfl, rfl, Nat.zero_add size⟩

theorem handed_inReg (reg : Reg) (free : List Reg) (area : StackArea) (byRef : Bool) (positive : 0 < word)
    (narrow : size ≤ word) : Handed word (reg :: free) free area area { Placement.inReg reg size with byRef } := by
  refine ⟨?_, Nat.le_refl _⟩
  have takes : Placement.held word { Placement.inReg reg size with byRef } = [reg] := by
    simp [Placement.held, Placement.inReg, Placement.single,
      Segment.held_narrow 0 reg positive narrow]
  rw [takes]
  exact List.Subperm.refl _

theorem whole_inReg (reg : Reg) (size : Nat) : (Placement.inReg reg size).Whole size :=
  ⟨rfl, rfl, Nat.zero_add size⟩

theorem chunk_starts (size : Nat) (index : Nat) (positive : 0 < unit) (bound : index < chunkCount size unit) :
    index * unit < size := by
  have enough := (Nat.le_div_iff_mul_le positive).mp bound
  rw [Nat.succ_mul] at enough
  omega

theorem chunkCount_covers (size : Nat) (positive : 0 < unit) : size ≤ chunkCount size unit * unit :=
  le_roundUp size positive

theorem chunkCount_mul (count : Nat) (positive : 0 < unit) : chunkCount (count * unit) unit = count := by
  simp only [chunkCount]
  rw [Nat.add_comm, Nat.add_mul_div_right _ _ positive, Nat.div_eq_of_lt (by omega), Nat.zero_add]

theorem length_chunks (size unit : Nat) : (chunks size unit).length = chunkCount size unit := by
  simp [chunks]

theorem chunk_narrow (size unit : Nat) (piece : Chunk) (mem : piece ∈ chunks size unit) : piece.len ≤ unit := by
  obtain ⟨index, _, rfl⟩ := mem_map.mp mem
  exact Nat.min_le_left _ _

theorem chunks_mul (count : Nat) (positive : 0 < unit) :
    chunks (count * unit) unit = (List.range count).map fun index => ⟨index * unit, unit⟩ := by
  rw [chunks, chunkCount_mul count positive]
  apply map_congr_left
  intro index mem
  have below : (index + 1) * unit ≤ count * unit := Nat.mul_le_mul_right unit (mem_range.mp mem)
  rw [Nat.succ_mul] at below
  rw [Nat.min_eq_left (by omega)]

def Segment.chunk (segment : Segment) : Chunk := ⟨segment.start, segment.size⟩

theorem chunks_adjoin_from (size unit index count : Nat) (segments : List Segment) (positive : 0 < unit)
    (bound : index + count ≤ chunkCount size unit) (pieces : segments.map Segment.chunk
      = (List.range' index count).map fun index => ⟨index * unit, min unit (size - index * unit)⟩) :
    Adjoining (min size (index * unit)) (min size ((index + count) * unit)) segments := by
  induction count generalizing index segments with
  | zero =>
    rw [range'_zero, map_nil, map_eq_nil_iff] at pieces
    subst pieces
    rfl
  | succ count ih =>
    rw [range'_succ, map_cons, map_eq_cons_iff] at pieces
    obtain ⟨segment, rest, rfl, piece, others⟩ := pieces
    simp only [Segment.chunk, Chunk.mk.injEq] at piece
    obtain ⟨begins, long⟩ := piece
    have starts := chunk_starts size index positive (by omega)
    have further : min size (index * unit) + min unit (size - index * unit)
        = min size ((index + 1) * unit) := by
      rw [Nat.succ_mul]
      omega
    refine ⟨by omega, ?_⟩
    rw [long, further, Nat.add_comm count, ← Nat.add_assoc]
    exact ih (index + 1) rest (by omega) others

theorem chunks_adjoin {segments : List Segment} (positive : 0 < unit)
    (pieces : segments.map Segment.chunk = chunks size unit) : Adjoining 0 size segments := by
  have whole := chunks_adjoin_from size unit 0 (chunkCount size unit) segments positive (by omega)
    (by rw [pieces, chunks, range_eq_range'])
  rwa [Nat.zero_mul, Nat.min_zero, Nat.zero_add,
    Nat.min_eq_left (chunkCount_covers size positive)] at whole

theorem inRegs_chunks {pieces : List Chunk} (enough : regs.length = pieces.length) :
    (Placement.inRegs regs pieces).segments.map Segment.chunk = pieces := by
  simp only [Placement.inRegs, map_zipWith, Segment.chunk]
  induction regs generalizing pieces with
  | nil => rw [zipWith_nil_left, eq_nil_of_length_eq_zero enough.symm]
  | cons reg rest ih =>
    cases pieces with
    | nil => cases enough
    | cons piece others => rw [zipWith_cons_cons, ih (by simpa using enough)]

theorem inRegs_takes {pieces : List Chunk} (enough : regs.length = pieces.length)
    (positive : 0 < word) (narrow : ∀ piece ∈ pieces, piece.len ≤ word) :
    (Placement.inRegs regs pieces).held word = regs ∧ (Placement.inRegs regs pieces).stretches = [] := by
  simp only [Placement.inRegs, Placement.held, Placement.stretches]
  induction regs generalizing pieces with
  | nil => exact ⟨rfl, rfl⟩
  | cons reg rest ih =>
    cases pieces with
    | nil => cases enough
    | cons piece others =>
      obtain ⟨regs, stack⟩ := ih (by simpa using enough) fun other mem =>
        narrow other (by simp [mem])
      rw [zipWith_cons_cons, flatMap_cons, regs,
        Segment.held_narrow piece.offset reg positive (narrow piece (by simp))]
      exact ⟨rfl, stack⟩

-- The loop of a split, where the registers do not hold all of the chunks.
theorem fillRegs_runs_out (size unit : Nat) {count index : Nat} {seq : RegSequence} (few : seq.free.length < count) :
    ∃ later, fillRegs size unit count index seq
        = ((Placement.inRegs seq.free ((List.range' index seq.free.length).map fun index =>
            ⟨index * unit, min unit (size - index * unit)⟩)).segments,
          some ((index + seq.free.length) * unit), later)
      ∧ later.free = [] ∧ later.Follows seq := by
  induction count generalizing index seq with
  | zero => exact absurd few (Nat.not_lt_zero _)
  | succ count ih =>
    rw [fillRegs]
    cases popped : seq.pop with
    | mk reg later =>
      cases reg with
      | none =>
        obtain ⟨rfl, none⟩ := RegSequence.pop_none popped
        exact ⟨later, by simp [none, Placement.inRegs], none, .refl later⟩
      | some reg =>
        obtain ⟨free, follows⟩ := RegSequence.pop_some popped
        rw [free, length_cons] at few
        obtain ⟨last, filled, none, further⟩ := @ih (index + 1) later (by omega)
        refine ⟨last, ?_, none, further.trans follows⟩
        simp only [filled, free, length_cons, range'_succ, map_cons, Placement.inRegs, zipWith_cons_cons]
        rw [Nat.add_right_comm, Nat.add_assoc]

theorem splitArg_eq {seq : RegSequence} (area : StackArea) (align : Nat) (positive : 0 < unit)
    (few : seq.free.length < chunkCount size unit) :
    ∃ later, later.free = [] ∧ later.Follows seq ∧ splitArg seq area size unit align = (do
      let (offset, area) ← area.alloc (size - seq.free.length * unit) unit align
      pure ({ segments := (Placement.inRegs seq.free (chunks (seq.free.length * unit) unit)).segments
        ++ [⟨.stack offset, seq.free.length * unit, size - seq.free.length * unit⟩] }, later, area)) := by
  obtain ⟨later, filled, none, follows⟩ := @fillRegs_runs_out size unit (chunkCount size unit) 0 seq few
  have more := chunk_starts size seq.free.length positive few
  have whole : (List.range' 0 seq.free.length).map
      (fun index => (⟨index * unit, min unit (size - index * unit)⟩ : Chunk))
      = chunks (seq.free.length * unit) unit := by
    rw [chunks_mul _ positive, range_eq_range']
    refine map_congr_left fun index mem => ?_
    have below := Nat.mul_le_mul_right unit (mem_range'_1.mp mem).2
    rw [Nat.zero_add, Nat.succ_mul] at below
    rw [Nat.min_eq_left (by omega)]
  refine ⟨later, none, follows, ?_⟩
  rw [splitArg, filled, whole, Nat.zero_add]

-- How an argument of `size` bytes goes through a list of registers: its pieces in one each, or as much of it
-- as they hold and the rest on the stack where that is allowed, or all of it on the stack. What reaches the
-- stack leaves no register behind.
inductive Through (word align : Nat) (splits : Prop) (pieces : List Chunk) (free : List Reg)
    (area : StackArea) (size : Nat) : Placement → List Reg → StackArea → Prop
  | inRegs (regs rest : List Reg) (taken : free = regs ++ rest) (enough : regs.length = pieces.length) :
      Through word align splits pieces free area size (.inRegs regs pieces) rest area
  | split (offset : Nat) (area' : StackArea) (allowed : splits) (usable : free ≠ [])
      (more : free.length * word < size)
      (put : area.alloc (size - free.length * word) word align = .ok (offset, area')) :
      Through word align splits pieces free area size
        { segments := (Placement.inRegs free (chunks (free.length * word) word)).segments
            ++ [⟨.stack offset, free.length * word, size - free.length * word⟩] } [] area'
  | onStack (offset : Nat) (area' : StackArea) (put : area.alloc size word align = .ok (offset, area')) :
      Through word align splits pieces free area size (.onStack offset size) [] area'

theorem chunks_narrow (positive : 0 < size) (fits : size ≤ word) : chunks size word = [⟨0, size⟩] := by
  have one : chunkCount size word = 1 := Nat.div_eq_of_lt_le (by omega) (by omega)
  simp [chunks, one, Nat.min_eq_right fits]

namespace Through

variable {splits : Prop} {pieces : List Chunk} {free free' : List Reg}

theorem narrow (reg : Reg) (rest : List Reg) (area : StackArea) (positive : 0 < size) (fits : size ≤ word) :
    Through word align splits (chunks size word) (reg :: rest) area size (.inReg reg size) rest area := by
  rw [chunks_narrow positive fits]
  exact .inRegs [reg] rest rfl rfl

theorem of_put (done : area.put size word align = .ok (placement, area')) :
    Through word align splits pieces free area size placement [] area' := by
  simp only [StackArea.put, except_bind_ok_iff, except_pure_ok_iff, Prod.mk.injEq] at done
  obtain ⟨⟨offset, _⟩, allocated, rfl, rfl⟩ := done
  exact .onStack offset _ allocated

section Passing

variable (passed : Through word align splits pieces free area size placement free' area')
include passed

theorem suffix : free' <:+ free := by
  cases passed with
  | inRegs regs _ taken _ => exact taken ▸ suffix_append regs free'
  | split | onStack => exact nil_suffix

theorem handed (positive : 0 < word) (aligned : 0 < align) (narrow : ∀ piece ∈ pieces, piece.len ≤ word) :
    Handed word free free' area area' placement := by
  cases passed with
  | inRegs regs _ taken enough =>
    obtain ⟨sameRegs, noStack⟩ := inRegs_takes enough positive narrow
    exact ⟨by rw [sameRegs, taken], by rw [noStack]; exact Nat.le_refl _⟩
  | split offset _ _ _ more put =>
    obtain ⟨sameRegs, noStack⟩ := inRegs_takes
      (by rw [length_chunks, chunkCount_mul free.length positive]) positive (chunk_narrow _ word)
    refine ⟨?_, ?_⟩
    · rw [Placement.held, flatMap_append, ← Placement.held, sameRegs, append_nil]
      exact (append_nil free).symm ▸ List.Subperm.refl _
    · rw [Placement.stretches, filterMap_append, ← Placement.stretches, noStack]
      exact StackArea.alloc_ascending (Nat.le_refl _) positive aligned put
  | onStack offset _ put =>
    exact ⟨nil_subperm, StackArea.alloc_ascending (Nat.le_refl _) positive aligned put⟩

theorem whole (positive : 0 < word) (units : 0 < unit) (cut : pieces = chunks size unit) : placement.Whole size := by
  cases passed with
  | inRegs regs _ _ enough =>
    exact ⟨rfl, chunks_adjoin units ((inRegs_chunks enough).trans cut)⟩
  | split offset _ _ _ more _ =>
    have adjoining := chunks_adjoin positive (inRegs_chunks
      (by rw [length_chunks, chunkCount_mul free.length positive]))
    exact ⟨rfl, adjoining.append ⟨rfl, by simp only [Adjoining]; omega⟩⟩
  | onStack => exact ⟨rfl, rfl, Nat.zero_add size⟩

end Passing

theorem single (positive : 0 < size) (fits : size ≤ word)
    (passed : Through word align splits (chunks size word) free area size placement free' area') :
    ∃ place, placement.segments = [⟨place, 0, size⟩] := by
  rw [chunks_narrow positive fits] at passed
  cases passed with
  | inRegs regs _ _ enough =>
    obtain ⟨reg, rfl⟩ := length_eq_one_iff.mp enough
    exact ⟨.reg reg, rfl⟩
  | split _ _ _ usable more =>
    have some_ := Nat.mul_le_mul_right word (length_pos_iff.mpr usable)
    omega
  | onStack offset => exact ⟨.stack offset, rfl⟩

end Through

-- The same of a register sequence, which moves on by what was taken.
structure Passes (word align : Nat) (splits : Prop) (pieces : List Chunk) (seq : RegSequence) (area : StackArea)
    (size : Nat) (placement : Placement) (later : RegSequence) (area' : StackArea) : Prop where
  follows : later.Follows seq
  through : Through word align splits pieces seq.free area size placement later.free area'

variable {splits : Prop} {pieces : List Chunk} {seq later : RegSequence}

theorem Passes.of_put (follows : later.Follows seq) (none : later.free = [])
    (done : area.put size word align = .ok (placement, area')) :
    Passes word align splits pieces seq area size placement later area' :=
  ⟨follows, none ▸ .of_put done⟩

theorem passWord_passes (positive : 0 < size) (fits : size ≤ word)
    (done : passWord size word seq area = .ok (placement, later, area')) :
    Passes word word splits (chunks size word) seq area size placement later area' := by
  unfold passWord at done
  split at done
  · rename_i reg _ popped
    cases done
    obtain ⟨free, follows⟩ := RegSequence.pop_some popped
    exact ⟨follows, free ▸ .narrow reg later.free area positive fits⟩
  · rename_i popped
    obtain ⟨rfl, none⟩ := RegSequence.pop_none popped
    simp only [except_bind_ok_iff, lift_except_ok_iff, except_pure_ok_iff, Prod.mk.injEq] at done
    obtain ⟨⟨_, _⟩, put, rfl, rfl, rfl⟩ := done
    exact .of_put (.refl _) none put

theorem passWord_avoids (size word : Nat) : Avoids Stop.isUnexpected (passWord size word seq area) := by
  unfold passWord
  split
  · exact .pure _
  · exact area.put_avoids

section Pieces

variable {flag : Bool} {count : Nat} (counted : pieces.length = count)
  (chunked : flag = true → pieces = chunks size word)

include counted chunked

theorem passPieces_passes (positive : 0 < word) (allowed : flag = true → splits)
    (done : passPieces count (.inRegs · pieces) flag size word align seq area = .ok (placement, later, area')) :
    Passes word align splits pieces seq area size placement later area' := by
  subst counted
  simp only [passPieces, except_bind_ok_iff, lift_except_ok_iff] at done
  obtain ⟨⟨found, left⟩, taken, done⟩ := done
  cases found with
  | some regs =>
    obtain ⟨parts, enough, follows⟩ := RegSequence.take_some taken
    cases done
    exact ⟨follows, .inRegs regs later.free parts enough⟩
  | none =>
    obtain ⟨rfl, few⟩ := RegSequence.take_none taken
    obtain ⟨asked, answer, done⟩ := except_bind_ok_iff.mp done
    cases asked with
    | true =>
      obtain ⟨usable, isFlag⟩ := except_and_true answer
      have isFlag := Except.ok.inj isFlag
      rw [chunked isFlag, length_chunks] at few
      obtain ⟨last, none, follows, same⟩ := splitArg_eq area align positive few
      simp only [if_true, same, except_bind_ok_iff, lift_except_ok_iff, except_pure_ok_iff, Prod.mk.injEq] at done
      obtain ⟨⟨offset, _⟩, allocated, rfl, rfl, rfl⟩ := done
      refine ⟨follows, ?_⟩
      rw [none]
      exact .split offset _ (allowed isFlag)
        (ne_nil_of_length_pos (RegSequence.has_true ((lift_except_ok_iff).mp usable)))
        (chunk_starts size _ positive few) allocated
    | false =>
      simp only [Bool.false_eq_true, if_false, except_bind_ok_iff, lift_except_ok_iff, except_pure_ok_iff,
        Prod.mk.injEq] at done
      obtain ⟨⟨_, _⟩, put, rfl, rfl, rfl⟩ := done
      exact .of_put left.exhaust_follows left.exhaust_free put

theorem passPieces_avoids (align : Nat) (positive : 0 < word) (within : seq.Within) :
    Avoids Stop.isUnexpected (passPieces count (.inRegs · pieces) flag size word align seq area) := by
  subst counted
  obtain ⟨found, left, taken⟩ := RegSequence.take_ok within pieces.length
  rw [passPieces, taken]
  cases found with
  | some regs => exact .pure _
  | none =>
    obtain ⟨rfl, few⟩ := RegSequence.take_none taken
    have asked : ((liftM (left.has 1) : Except Stop Bool) <&&> pure flag) = .ok _ :=
      except_and_ok ((lift_except_ok_iff).mpr (RegSequence.has_ok within 1)) rfl
    dsimp only [liftM, monadLift, MonadLift.monadLift, bind, Except.bind] at asked ⊢
    rw [asked]
    dsimp only
    split
    · rename_i both
      rw [chunked (Bool.and_eq_true_iff.mp both).2, length_chunks] at few
      obtain ⟨_, _, _, same⟩ := splitArg_eq area align positive few
      rw [same]
      exact (area.alloc_avoids _ _ _).lift.bind fun _ => .pure _
    · exact area.put_avoids

end Pieces

end Allocation

end CallLowering
