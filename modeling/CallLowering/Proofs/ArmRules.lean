import CallLowering.Proofs.ArmConventions
import Mathlib.Data.List.Infix

/-!
What the conventions of ARM keep to along a list of arguments. Each class of arguments has its own registers,
and a class that has reached the stack gets no further register.
-/

namespace CallLowering

open Placement

open List

variable {isVarargs : Bool} {fields : List Field} {bytes offset width : Nat} {segment : Segment}

section Runs

variable {σ : Type} {place : σ → ArgShape → Except Stop (Placement × σ)} {state last : σ}
  {args : List ArgShape} {placements : List Placement}

theorem placeAll_pairwise {κ : Type} (closed : κ → σ → Prop) (closes finds : κ → ArgShape → Placement → Prop)
    (step : ∀ key state arg placement next, place state arg = .ok (placement, next) →
      (closes key arg placement → closed key next) ∧ (closed key state → closed key next ∧ finds key arg placement))
    (done : placeAll place state args = .ok (placements, last)) :
    (args.zip placements).Pairwise fun first second =>
      ∀ key, closes key first.1 first.2 → finds key second.1 second.2 := by
  induction args generalizing state placements with
  | nil => exact .nil
  | cons arg rest ih =>
    simp only [placeAll, except_bind_ok_iff, except_pure_ok_iff, Prod.mk.injEq] at done
    obtain ⟨⟨placement, next⟩, first, ⟨others, _⟩, later, rfl, rfl⟩ := done
    refine .cons (fun second mem key isClosing => ?_) (ih later)
    have found := placeAll_related (closed key) (finds key) (fun state arg placement next isClosed done =>
      (step key state arg placement next done).2 isClosed) ((step key state arg placement next first).1 isClosing)
      later
    exact (List.forall₂_iff_zip.mp found).2 mem

end Runs

theorem mem_inRegs {regs : List Reg} {pieces : List Chunk}
    (mem : segment ∈ (inRegs regs pieces).segments) : ∃ reg, segment.place = .reg reg := by
  rw [inRegs, ← map_uncurry_zip_eq_zipWith] at mem
  obtain ⟨pair, _, rfl⟩ := mem_map.mp mem
  exact ⟨pair.1, rfl⟩

theorem hasStack_iff {placement : Placement} :
    placement.hasStack = true ↔ ∃ segment ∈ placement.segments, ∃ offset, segment.place = .stack offset := by
  simp only [hasStack, any_eq_true, Segment.isStack, Segment.stackOffset?]
  refine exists_congr fun segment => and_congr_right fun _ => ?_
  cases segment.place <;> simp

theorem StackArea.alloc_offset {area area' : StackArea} {size slot align : Nat}
    (done : area.alloc size slot align = .ok (offset, area')) : offset = roundUp area.next align := by
  simp only [alloc, except_bind_ok_iff, Word.roundUp, Word.check_ok_iff, except_pure_ok_iff,
    Prod.mk.injEq] at done
  obtain ⟨_, ⟨_, rfl⟩, _, _, _, _, rfl, _⟩ := done
  rfl

namespace Through

variable {word align size : Nat} {splits : Prop} {pieces : List Chunk} {free free' : List Reg}
  {area area' : StackArea} {placement : Placement}
  (passed : Through word align splits pieces free area size placement free' area')

include passed

theorem closes (onStack : placement.hasStack = true) : free' = [] := by
  cases passed with
  | inRegs regs =>
    obtain ⟨segment, mem, offset, stacked⟩ := hasStack_iff.mp onStack
    obtain ⟨reg, isReg⟩ := mem_inRegs mem
    cases stacked.symm.trans isReg
  | split | onStack => rfl

theorem exhausted (none : free = []) : free' = [] ∧ placement.hasReg = false := by
  refine ⟨suffix_nil.mp (none ▸ passed.suffix), ?_⟩
  cases passed with
  | inRegs regs _ taken =>
    rw [(append_eq_nil_iff.mp (taken.symm.trans none)).1]
    rfl
  | split _ _ _ usable => exact absurd none usable
  | onStack => rfl

theorem starts (positive : 0 < word) {first : Segment} {others : List Segment}
    (segments : placement.segments = first :: others) :
    (∃ reg rest, free = reg :: rest ∧ first.place = .reg reg)
      ∨ first.place = .stack (roundUp area.next align) ∧ others = [] := by
  cases passed with
  | inRegs regs _ taken =>
    cases regs with
    | nil => cases segments
    | cons reg rest =>
      cases pieces with
      | nil => cases segments
      | cons piece pieces =>
        cases segments
        exact .inl ⟨reg, _, taken, rfl⟩
  | split _ _ _ usable =>
    obtain ⟨reg, rest, rfl⟩ := exists_cons_of_ne_nil usable
    rw [chunks_mul _ positive, length_cons, range_succ_eq_map] at segments
    cases segments
    exact .inl ⟨reg, rest, rfl, rfl⟩
  | onStack offset _ put =>
    cases segments
    exact .inr ⟨congrArg Place.stack (StackArea.alloc_offset put), rfl⟩

theorem split_at (isSplit : placement.isSplit = true) (mem : segment ∈ placement.segments)
    (onStack : segment.place = .stack offset) : splits ∧ offset = roundUp area.next align := by
  cases passed with
  | inRegs regs =>
    obtain ⟨reg, isReg⟩ := mem_inRegs mem
    cases onStack.symm.trans isReg
  | split start _ allowed _ _ put =>
    rcases mem_append.mp mem with inRegs | last
    · obtain ⟨reg, isReg⟩ := mem_inRegs inRegs
      cases onStack.symm.trans isReg
    · cases mem_singleton.mp last
      cases onStack
      exact ⟨allowed, StackArea.alloc_offset put⟩
  | onStack => cases isSplit

theorem allowed (isSplit : placement.isSplit = true) : splits := by
  obtain ⟨segment, mem, offset, onStack⟩ := hasStack_iff.mp (Bool.and_eq_true_iff.mp isSplit).2
  exact (passed.split_at isSplit mem onStack).1

end Through

-- What holds for an argument behind another one, where those that use float registers are a class of their own.
structure Behind (floats : ArgShape → Bool) (first second : ArgShape × Placement) : Prop where
  filled : floats second.1 = floats first.1 → first.2.hasStack = true → second.2.hasReg = false
  split : first.2.isSplit = true → second.2.isSplit = false

-- A step with a lane for each class. What goes on the stack shuts the lane of its class, and only arguments
-- that use no float registers are split.
def Laned {σ : Type} (floats : ArgShape → Bool) (shut : Bool → σ → Prop)
    (place : σ → ArgShape → Except Stop (Placement × σ)) : Prop :=
  ∀ state arg placement next, place state arg = .ok (placement, next) →
    (placement.hasStack = true → shut (floats arg) next)
      ∧ (∀ lane, shut lane state → shut lane next ∧ (floats arg = lane → placement.hasReg = false))
      ∧ (placement.isSplit = true → floats arg = false)

theorem Laned.behind {σ : Type} {floats : ArgShape → Bool} {shut : Bool → σ → Prop}
    {place : σ → ArgShape → Except Stop (Placement × σ)} (laned : Laned floats shut place) {state last : σ}
    {args : List ArgShape} {placements : List Placement} (done : placeAll place state args = .ok (placements, last)) :
    (args.zip placements).Pairwise (Behind floats) := by
  have inLane := placeAll_pairwise shut (fun lane arg placement => floats arg = lane ∧ placement.hasStack = true)
    (fun lane arg placement => floats arg = lane → placement.hasReg = false)
    (fun lane state arg placement next placed => by
      obtain ⟨shuts, stays, _⟩ := laned state arg placement next placed
      exact ⟨fun closing => closing.1 ▸ shuts closing.2, stays lane⟩) done
  have unsplit := List.forall₂_iff_zip.mp (placeAll_related (fun _ => True)
    (fun arg placement => placement.isSplit = true → floats arg = false)
    (fun state arg placement next _ placed => ⟨trivial, (laned state arg placement next placed).2.2⟩)
    trivial done)
  refine inLane.imp_of_mem fun {first second} isFirst isSecond found => ?_
  have filled : floats second.1 = floats first.1 → first.2.hasStack = true → second.2.hasReg = false :=
    fun same onStack => found _ ⟨rfl, onStack⟩ same
  refine ⟨filled, fun isSplit => Bool.eq_false_iff.mpr fun splitToo => ?_⟩
  have same : floats second.1 = floats first.1 :=
    (unsplit.2 isSecond splitToo).trans (unsplit.2 isFirst isSplit).symm
  have inReg := filled same (Bool.and_eq_true_iff.mp isSplit).2
  rw [(Bool.and_eq_true_iff.mp splitToo).1] at inReg
  cases inReg

namespace Arm64

def Shut (lane : Bool) (state : State) : Prop := (if lane then state.floats.free else state.ints.free) = []

theorem laned {winVarargs : Bool} : Laned (fun arg => arg.isFloating && !winVarargs) Shut (place winVarargs) := by
  have inInts : ∀ {splits : Prop} {state next : State} {size : Nat} {placement : Placement},
      ViaInts splits state size placement next → (placement.hasStack = true → Shut false next)
        ∧ ∀ lane, Shut lane state → Shut lane next ∧ (false = lane → placement.hasReg = false) := by
    intro splits state next size placement passed
    obtain ⟨sameFloats, passed⟩ := passed
    refine ⟨passed.through.closes, fun lane isShut => ?_⟩
    cases lane with
    | false => exact (passed.through.exhausted isShut).imp_right fun none _ => none
    | true => exact ⟨(congrArg RegSequence.free sameFloats).trans isShut, Bool.noConfusion⟩
  intro state arg placement next done
  obtain ⟨size, _, placed⟩ := place_ok done
  dsimp only
  cases placed with
  | direct plain passed =>
    rw [plain]
    exact ⟨(inInts passed).1, (inInts passed).2, fun _ => rfl⟩
  | pointer pointer same plain _ passed =>
    rw [plain, same]
    exact ⟨(inInts passed).1, (inInts passed).2, fun _ => rfl⟩
  | float floating passed =>
    obtain ⟨sameInts, passed⟩ := passed
    rw [floating]
    refine ⟨passed.through.closes, fun lane isShut => ?_, fun isSplit => (passed.through.allowed isSplit).elim⟩
    cases lane with
    | false => exact ⟨(congrArg RegSequence.free sameInts).trans isShut, Bool.noConfusion⟩
    | true => exact (passed.through.exhausted isShut).imp_right fun none _ => none

end Arm64

namespace Arm32

variable {state next : State} {size : Nat} {placement : Placement} {arg : ArgShape}

def Shut (lane : Bool) (state : State) : Prop :=
  if lane then state.singles.closed = true else state.core.free = []

theorem Singles.take_closed {singles left : Singles} {members : Nat} {start : Option Nat}
    (done : singles.take members width = (start, left)) :
    (start = none → left.closed = true) ∧ (singles.closed = true → start = none) := by
  unfold take at done
  split at done
  · rename_i closed
    cases done
    exact ⟨fun _ => closed, fun _ => rfl⟩
  · rename_i isOpen
    refine ⟨fun none => ?_, fun closed => absurd closed isOpen⟩
    split at done
    · cases done
      cases none
    · cases done
      rfl

theorem ViaSingles.laned (passed : ViaSingles fields width bytes state placement next) :
    (placement.hasStack = true → next.singles.closed = true)
      ∧ (state.singles.closed = true → next.singles.closed = true ∧ placement.hasReg = false)
      ∧ placement.isSplit = false := by
  cases passed with
  | taken start left took held after =>
    obtain ⟨_, shut⟩ := Singles.take_closed took
    subst held after
    have inRegs : Placement.hasStack { segments := memberSegments start width fields 0 } = false := by
      simp [Placement.hasStack, memberSegments, Segment.isStack, Segment.stackOffset?]
    refine ⟨fun onStack => ?_, fun closed => ?_, ?_⟩
    · rw [inRegs] at onStack
      cases onStack
    · cases shut closed
    · rw [Placement.isSplit, inRegs, Bool.and_false]
  | stack left stack took put after =>
    have closed := (Singles.take_closed took).1 rfl
    have passed : Through 4 (width * 4) False [] [] state.stack bytes placement [] stack := .of_put put
    subst after
    exact ⟨fun _ => closed, fun _ => ⟨closed, (passed.exhausted rfl).2⟩, Bool.eq_false_iff.mpr passed.allowed⟩

theorem laned (isVarargs : Bool) : Laned (fun arg => arg.isFloating && !isVarargs) Shut (place isVarargs) := by
  have inSingles : ∀ {fields : List Field} {width bytes : Nat} {state next : State} {placement : Placement},
      ViaSingles fields width bytes state placement next → (placement.hasStack = true → Shut true next)
        ∧ (∀ lane, Shut lane state → Shut lane next ∧ (true = lane → placement.hasReg = false))
        ∧ (placement.isSplit = true → true = false) := by
    intro fields width bytes state next placement passed
    obtain ⟨closes, stays, unsplit⟩ := passed.laned
    refine ⟨closes, fun lane isShut => ?_, fun isSplit => isSplit.symm.trans unsplit⟩
    cases lane with
    | false => exact ⟨(congrArg RegSequence.free passed.core).trans isShut, Bool.noConfusion⟩
    | true => exact (stays isShut).imp_right fun none _ => none
  intro state arg placement next done
  obtain ⟨size, _, placed⟩ := place_ok done
  dsimp only
  cases placed with
  | core plain passed =>
    obtain ⟨sameSingles, passed⟩ := passed
    rw [plain]
    refine ⟨passed.through.closes, fun lane isShut => ?_, fun _ => rfl⟩
    cases lane with
    | false =>
      have none : state.core.free = [] := isShut
      have unusable := suffix_nil.mp (none ▸ (usable_follows state.core (coreAlign arg size)).left)
      exact (passed.through.exhausted unusable).imp_right fun none _ => none
    | true => exact ⟨(congrArg Singles.closed sameSingles).trans isShut, Bool.noConfusion⟩
  | float floating _ _ passed =>
    rw [floating]
    exact inSingles passed
  | aggregate _ _ floating _ _ passed =>
    rw [floating]
    exact inSingles passed

def IsWide (arg : ArgShape) : Prop :=
  match arg.layout with
  | some layout => layout.fields.any (fun field => field.ty == .i64 || field.ty == .f64) = true
  | none => arg.size 4 = .ok 8

-- Where an argument is placed: what is split goes on at the bottom of the stack, and what is wide starts at
-- an even register or at a multiple of eight.
structure Aligned (isVarargs : Bool) (arg : ArgShape) (placement : Placement) : Prop where
  split : placement.isSplit = true → ∀ segment ∈ placement.segments, ∀ offset, segment.place = .stack offset →
    offset = 0
  even : IsWide arg → (arg.isFloating && !isVarargs) = false → placement.hasReg = true →
    ∃ num first others, placement.segments = first :: others ∧ first.place = .reg (.int num) ∧ num % 2 = 0
  stack : IsWide arg → ∀ first others offset, placement.segments = first :: others →
    first.place = .stack offset → offset % 8 = 0

theorem coreAlign_wide (isWide : IsWide arg) (sized : arg.size 4 = .ok size) : coreAlign arg size = 8 := by
  cases hasLayout : arg.layout with
  | some layout =>
    simp only [IsWide, hasLayout] at isWide
    simp only [coreAlign, hasLayout, structAlign, if_pos isWide]
  | none =>
    simp only [IsWide, hasLayout] at isWide
    cases sized.symm.trans isWide
    simp only [coreAlign, hasLayout, if_true]

theorem even_head {core : RegSequence} (same : core.regs = (List.range 4).map Reg.int) {reg : Reg}
    {rest : List Reg} (starts : (usable core 8).free = reg :: rest) : ∃ num, reg = .int num ∧ num % 2 = 0 := by
  have head := congrArg List.head? starts
  simp only [usable, if_true, RegSequence.alignEven, RegSequence.free, same, head?_drop, head?_cons, getElem?_map,
    Option.map_eq_some_iff, getElem?_eq_some_iff, length_map, length_range, getElem_range] at head
  obtain ⟨num, ⟨_, rfl⟩, rfl⟩ := head
  exact ⟨_, rfl, by rw [roundUp]; omega⟩

theorem core_aligned (sized : arg.size 4 = .ok size) (same : state.core.regs = (List.range 4).map Reg.int)
    (passed : ViaCore (coreAlign arg size) state size placement next) : Aligned isVarargs arg placement where
  split := by
    intro isSplit segment mem offset onStack
    obtain ⟨unused, rfl⟩ := passed.2.through.split_at isSplit mem onStack
    have bottom : state.stack.next = 0 := by simpa [StackArea.isUsed] using unused
    have rounded := roundUp_mul 0 (coreAlign_pos arg size)
    rw [Nat.zero_mul] at rounded
    rw [bottom, rounded]
  even := by
    intro isWide _ inReg
    rw [coreAlign_wide isWide sized] at passed
    cases segments : placement.segments with
    | nil =>
      rw [Placement.hasReg, segments] at inReg
      cases inReg
    | cons first others =>
      rcases passed.2.through.starts (by omega) segments with ⟨reg, rest, isFirst, isReg⟩ | ⟨stacked, rfl⟩
      · obtain ⟨num, rfl, even⟩ := even_head same isFirst
        exact ⟨num, first, others, rfl, isReg, even⟩
      · simp [Placement.hasReg, segments, Segment.isReg, Segment.reg?, stacked] at inReg
  stack := by
    intro isWide first others offset segments onStack
    rw [coreAlign_wide isWide sized] at passed
    rcases passed.2.through.starts (by omega) segments with ⟨_, _, _, isReg⟩ | ⟨stacked, _⟩
    · cases onStack.symm.trans isReg
    · cases onStack.symm.trans stacked
      exact Nat.mul_mod_left _ _

theorem singles_aligned (floating : (arg.isFloating && !isVarargs) = true) (wide : IsWide arg → width = 2)
    (passed : ViaSingles fields width bytes state placement next) : Aligned isVarargs arg placement where
  split := by
    intro isSplit
    rw [passed.laned.2.2] at isSplit
    cases isSplit
  even := by
    intro _ plain
    cases floating.symm.trans plain
  stack := by
    intro isWide first others offset segments onStack
    cases wide isWide
    cases passed with
    | taken start left took held after =>
      subst held
      cases fields with
      | nil => cases segments
      | cons field rest =>
        cases segments
        cases onStack
    | stack left stack took put after =>
      have passed : Through 4 8 False [] [] state.stack bytes placement [] stack := .of_put put
      rcases passed.starts (by omega) segments with ⟨_, _, none, _⟩ | ⟨stacked, _⟩
      · cases none
      · cases onStack.symm.trans stacked
        exact Nat.mul_mod_left _ _

theorem aggregate_wide {layout : Layout} {member : ValueType} (isAggregate : layout.floatAggregate = some member)
    (isWide : layout.fields.any (fun field => field.ty == .i64 || field.ty == .f64) = true) :
    memberWidth member = 2 := by
  obtain ⟨field, mem, wide⟩ := any_eq_true.mp isWide
  unfold Layout.floatAggregate at isAggregate
  cases fields : layout.fields with
  | nil =>
    rw [fields] at mem
    cases mem
  | cons first rest =>
    simp only [fields, Option.ite_none_right_eq_some, Bool.and_eq_true, all_eq_true, beq_iff_eq,
      Option.some.injEq] at isAggregate
    obtain ⟨⟨⟨isFloat, _⟩, others⟩, rfl⟩ := isAggregate
    have same : field.ty = first.ty := by
      rcases mem_cons.mp (fields ▸ mem) with rfl | later
      · rfl
      · exact others field later
    rw [same, Bool.or_eq_true, beq_iff_eq, beq_iff_eq] at wide
    rcases wide with isInt | isDouble
    · rw [isInt] at isFloat
      cases isFloat
    · rw [isDouble]
      rfl

theorem place_aligned (isVarargs : Bool) (state : State) (arg : ArgShape) (placement : Placement) (next : State)
    (same : state.core.regs = (List.range 4).map Reg.int) (done : place isVarargs state arg = .ok (placement, next)) :
    next.core.regs = (List.range 4).map Reg.int ∧ Aligned isVarargs arg placement := by
  obtain ⟨size, sized, placed⟩ := place_ok done
  cases placed with
  | core _ passed =>
    have follows := passed.2.follows.trans (usable_follows state.core (coreAlign arg size))
    exact ⟨follows.regs.trans same, core_aligned sized same passed⟩
  | float floating scalar wide passed =>
    refine ⟨passed.core ▸ same, singles_aligned floating (fun isWide => ?_) passed⟩
    rw [IsWide, scalar] at isWide
    cases sized.symm.trans isWide
    omega
  | aggregate layout member floating hasLayout isAggregate passed =>
    refine ⟨passed.core ▸ same, singles_aligned floating (fun isWide => ?_) passed⟩
    rw [IsWide, hasLayout] at isWide
    exact aggregate_wide isAggregate isWide

end Arm32

-- The arguments of a class take registers until one of them reaches the stack, and at most one argument is
-- split: on 32-bit ARM at the bottom of the stack, on 64-bit ARM for varargs on Windows only.
theorem arm_lanes_fill_in_order (call : CallShape) (args : List ArgShape) :
    (∀ answer, Arm32.classify call args = .ok answer →
      (args.zip answer.placements).Pairwise (Behind fun arg => arg.isFloating && !call.isVarargs)
        ∧ List.Forall₂ (Arm32.Aligned call.isVarargs) args answer.placements)
      ∧ ∀ isWindows answer, Arm64.classify isWindows call args = .ok answer →
        (args.zip answer.placements).Pairwise
            (Behind fun arg => arg.isFloating && !(isWindows && call.isVarargs))
          ∧ List.Forall₂ (fun _ placement => placement.isSplit = true →
            isWindows = true ∧ call.isVarargs = true) args answer.placements := by
  refine ⟨fun answer done => ?_, fun isWindows answer done => ?_⟩
  · simp only [Arm32.classify, except_bind_ok_iff, except_pure_ok_iff] at done
    obtain ⟨⟨placements, last⟩, placed, _, _, rfl⟩ := done
    exact ⟨(Arm32.laned call.isVarargs).behind placed,
      placeAll_related _ _ (Arm32.place_aligned call.isVarargs) rfl placed⟩
  · simp only [Arm64.classify, except_bind_ok_iff, except_pure_ok_iff] at done
    obtain ⟨⟨placements, last⟩, placed, _, _, rfl⟩ := done
    refine ⟨(Arm64.laned).behind placed, placeAll_related (fun _ => True) _ ?_ trivial placed⟩
    intro state arg placement next _ done
    refine ⟨trivial, fun isSplit => ?_⟩
    obtain ⟨size, _, placed⟩ := Arm64.place_ok done
    rw [← Bool.and_eq_true]
    cases placed with
    | direct _ passed => exact passed.2.through.allowed isSplit
    | pointer _ same _ _ passed =>
      subst same
      exact passed.2.through.allowed isSplit
    | float _ passed => exact (passed.2.through.allowed isSplit).elim

def twoWords : Layout := ⟨"TwoWords", 16, [⟨0, .i64⟩, ⟨8, .i64⟩]⟩

-- A number, a struct of two numbers that is split, and a number and a double behind it.
def aroundSplit : List ArgShape :=
  [{ ty := .i32 }, { ty := .struct 0, layout := some twoWords }, { ty := .i32 }, { ty := .f64 }]

theorem number_behind_split_on_stack :
    ∃ answer, Arm32.classify {} aroundSplit = .ok answer
      ∧ answer.placements.map Placement.isSplit = [false, true, false, false]
      ∧ (aroundSplit.zip answer.placements).Pairwise (Behind fun arg => arg.isFloating && true)
      ∧ List.Forall₂ (Arm32.Aligned false) aroundSplit answer.placements := by
  obtain ⟨answer, done, split⟩ := except_ok_of_any (Arm32.classify {} aroundSplit)
    (fun answer => answer.placements.map Placement.isSplit == [false, true, false, false]) (by decide +kernel)
  exact ⟨answer, done, by simpa using split, (arm_lanes_fill_in_order {} aroundSplit).1 answer done⟩

end CallLowering
