import CallLowering.Proofs.Conventions

/-!
The conventions of ARM hand out what is free. The fields of a float aggregate take registers of their
own, on 32-bit ARM as many singles as they have words.
-/

namespace CallLowering

open List

variable {arg : ArgShape} {layout : Layout} {members width : Nat} {member : ValueType}

-- A float, or a struct of nothing but equal floats.
def ArgShape.isFloating (arg : ArgShape) : Bool :=
  match arg.layout with
  | some layout => layout.floatAggregate.isSome
  | none => arg.ty.isFloat

theorem scalarSize_narrow (ty : ValueType) : (ty.scalarSize 8).getD 0 ≤ 8 := by
  cases ty <;> simp [ValueType.scalarSize]

namespace Arm64

def State.free (state : State) : List Reg := state.ints.free ++ state.floats.free

def floatPieces (arg : ArgShape) (size : Nat) : List Chunk :=
  match arg.layout with
  | some layout => layout.fields.map fieldChunk
  | none => chunks size 8

-- An argument that goes through the integer registers and leaves the others alone.
def ViaInts (splits : Prop) (state : State) (size : Nat) (placement : Placement) (next : State) : Prop :=
  next.floats = state.floats
    ∧ Passes 8 8 splits (chunks size 8) state.ints state.stack size placement next.ints next.stack

def ViaFloats (pieces : List Chunk) (state : State) (size : Nat) (placement : Placement) (next : State) :
    Prop :=
  next.ints = state.ints
    ∧ Passes 8 8 False pieces state.floats state.stack size placement next.floats next.stack

inductive Placed (winVarargs : Bool) (state : State) (arg : ArgShape) (size : Nat) (placement : Placement)
    (next : State) : Prop
  | direct (plain : (arg.isFloating && !winVarargs) = false)
      (passed : ViaInts (winVarargs = true) state size placement next)
  | pointer (pointer : Placement) (same : placement = { pointer with byRef := true })
      (plain : (arg.isFloating && !winVarargs) = false) (ofStruct : arg.layout.isSome = true)
      (passed : ViaInts (winVarargs = true) state 8 pointer next)
  | float (floating : (arg.isFloating && !winVarargs) = true)
      (passed : ViaFloats (floatPieces arg size) state size placement next)

variable {state next : State} {size : Nat} {placement : Placement} {splits : Prop} {winVarargs : Bool}

section Banks

variable {pass : RegSequence → StackArea → Except Stop (Placement × RegSequence × StackArea)}

theorem viaInts_ok (done : viaInts state pass = .ok (placement, next)) :
    next.floats = state.floats ∧ pass state.ints state.stack = .ok (placement, next.ints, next.stack) := by
  simp only [viaInts, except_bind_ok_iff, except_pure_ok_iff, Prod.mk.injEq] at done
  obtain ⟨⟨_, _⟩, passed, rfl, rfl⟩ := done
  exact ⟨rfl, passed⟩

theorem viaFloats_ok (done : viaFloats state pass = .ok (placement, next)) :
    next.ints = state.ints ∧ pass state.floats state.stack = .ok (placement, next.floats, next.stack) := by
  simp only [viaFloats, except_bind_ok_iff, except_pure_ok_iff, Prod.mk.injEq] at done
  obtain ⟨⟨_, _⟩, passed, rfl, rfl⟩ := done
  exact ⟨rfl, passed⟩

end Banks

theorem place_ok (done : place winVarargs state arg = .ok (placement, next)) :
    ∃ size, arg.size 8 = .ok size ∧ Placed winVarargs state arg size placement next := by
  simp only [place, except_bind_ok_iff] at done
  obtain ⟨size, sized, done⟩ := done
  refine ⟨size, sized, ?_⟩
  cases hasLayout : arg.layout with
  | some layout =>
    have same : (arg.isFloating && !winVarargs) = (!winVarargs && layout.floatAggregate.isSome) := by
      rw [ArgShape.isFloating, hasLayout, Bool.and_comm]
    simp only [hasLayout] at done
    split at done
    · rename_i aggregate
      refine .float (same.trans aggregate) ?_
      rw [floatPieces, hasLayout]
      exact (viaFloats_ok done).imp_right (passPieces_passes (length_map _) (by simp) (by omega) (by simp))
    · rename_i plain
      have plain := same.trans (Bool.eq_false_iff.mpr plain)
      split at done
      · simp only [except_bind_ok_iff, except_pure_ok_iff, Prod.mk.injEq] at done
        obtain ⟨⟨pointer, _⟩, placed, rfl, rfl⟩ := done
        exact .pointer pointer rfl plain (by rw [hasLayout]; rfl)
          ((viaInts_ok placed).imp_right (passWord_passes (by omega) (Nat.le_refl 8)))
      · exact .direct plain ((viaInts_ok done).imp_right (passPieces_passes (length_chunks _ _) (fun _ => rfl)
          (by omega) id))
  | none =>
    have same : (arg.isFloating && !winVarargs) = (arg.ty.isFloat && !winVarargs) := by
      rw [ArgShape.isFloating, hasLayout]
    have narrow := arg.size_scalar hasLayout sized
    simp only [hasLayout] at done
    split at done
    · rename_i isFloat
      refine .float (same.trans isFloat) ?_
      rw [floatPieces, hasLayout]
      exact (viaFloats_ok done).imp_right (passWord_passes (by omega) (by omega))
    · rename_i plain
      exact .direct (same.trans (Bool.eq_false_iff.mpr plain))
        ((viaInts_ok done).imp_right (passWord_passes (by omega) (by omega)))

theorem floatPieces_narrow (arg : ArgShape) (size : Nat) (piece : Chunk)
    (mem : piece ∈ floatPieces arg size) : piece.len ≤ 8 := by
  simp only [floatPieces] at mem
  split at mem
  · obtain ⟨field, _, rfl⟩ := mem_map.mp mem
    exact scalarSize_narrow field.ty
  · exact chunk_narrow size 8 piece mem

theorem floatPieces_chunks (described : arg.Described) (sized : arg.size 8 = .ok size)
    (floating : arg.isFloating = true) : ∃ unit, 0 < unit ∧ floatPieces arg size = chunks size unit := by
  cases hasLayout : arg.layout with
  | none => exact ⟨8, by omega, by rw [floatPieces, hasLayout]⟩
  | some layout =>
    rw [ArgShape.isFloating, hasLayout] at floating
    obtain ⟨member, isAggregate⟩ := Option.isSome_iff_exists.mp floating
    obtain ⟨width, rfl, wide, long, laid⟩ := (described.natural layout hasLayout).aggregate isAggregate
    have positive : 0 < if member == .f64 then 8 else 4 := by split <;> omega
    refine ⟨_, positive, ?_⟩
    simp only [floatPieces, hasLayout]
    rw [← arg.size_layout described 8 size layout hasLayout sized, long, chunks_mul _ positive]
    conv_lhs => rw [laid, map_map]
    exact map_congr_left fun index _ => by simp only [Function.comp, fieldChunk, wide, Option.getD_some]

def placer (winVarargs : Bool) : Placer where
  State := State
  place := place winVarargs
  start := {}
  area := State.stack
  align := 8
  free := State.free
  sequences := fun state => [state.ints, state.floats]

theorem conforms (winVarargs : Bool) : (placer winVarargs).Conforms 8 where
  aligned := Nat.succ_pos 7
  started := by
    intro seq mem
    rcases mem_pair.mp mem with rfl | rfl
    all_goals exact Nat.zero_le _
  hands := by
    intro (state : State) arg placement (next : State) done
    obtain ⟨size, sized, placed⟩ := place_ok done
    cases placed with
    | direct _ passed =>
      obtain ⟨sameFloats, passed⟩ := passed
      simp only [placer, State.free, sameFloats]
      exact ⟨(passed.through.handed (by omega) (by omega) (chunk_narrow size 8)).beside state.floats.free,
        .cons passed.follows (.cons (.refl _) .nil),
        fun _ => (passed.through.whole (by omega) (by omega) rfl).covers sized⟩
    | pointer pointer same _ ofStruct passed =>
      obtain ⟨sameFloats, passed⟩ := passed
      subst same
      simp only [placer, State.free, sameFloats]
      have handed := (passed.through.handed (by omega) (by omega) (chunk_narrow 8 8)).beside state.floats.free
      have single := passed.through.single (by omega) (Nat.le_refl 8)
      exact ⟨⟨handed.regs, handed.stack⟩, .cons passed.follows (.cons (.refl _) .nil),
        fun described => ⟨Bool.noConfusion, fun _ => ⟨described.ofStruct ofStruct, single⟩⟩⟩
    | float floating passed =>
      obtain ⟨sameInts, passed⟩ := passed
      simp only [placer, State.free, sameInts]
      refine ⟨(passed.through.handed (by omega) (by omega) (floatPieces_narrow arg size)).behind state.ints.free,
        .cons (.refl _) (.cons passed.follows .nil), fun described => ?_⟩
      obtain ⟨unit, positive, cut⟩ := floatPieces_chunks described sized (Bool.and_eq_true_iff.mp floating).1
      exact (passed.through.whole (by omega) positive cut).covers sized
  sizes := fun _ _ _ => bind_failed
  stops := by
    refine fun (state : State) arg stop within => Avoids.first_of_bind fun size _ => ?_
    split
    · split
      · exact (passPieces_avoids (length_map _) (by simp) 8 (by omega)
          (within state.floats (mem_cons_of_mem _ mem_cons_self))).bind fun _ => .pure _
      · split
        · exact ((passWord_avoids 8 8).bind fun _ => .pure _).bind fun _ => .pure _
        · exact (passPieces_avoids (length_chunks _ _) (fun _ => rfl) 8 (by omega)
            (within state.ints mem_cons_self)).bind
            fun _ => .pure _
    · split <;> exact (passWord_avoids size 8).bind fun _ => .pure _

end Arm64

namespace Arm32

namespace Singles

def free (singles : Singles) : List Reg :=
  ((List.range count).filter fun single => !singles.taken.contains single).map Reg.float

theorem take_some (singles : Singles) {next : Singles} {start : Nat}
    (done : singles.take members width = (some start, next)) :
    ((List.range' start (members * width)).map Reg.float ++ next.free).Subperm singles.free := by
  by_cases closed : singles.closed = true
  · simp [take, closed] at done
  · simp only [take, closed, Bool.false_eq_true, if_false] at done
    split at done
    · rename_i found first
      simp only [Prod.mk.injEq, Option.some.injEq] at done
      obtain ⟨rfl, rfl⟩ := done
      have fits := find?_some first
      simp only [Bool.and_eq_true, decide_eq_true_eq, isFree, all_eq_true] at fits
      obtain ⟨⟨_, below⟩, unused⟩ := fits
      simp only [free]
      rw [← map_append]
      refine (subperm_of_subset ?_ ?_).map fun _ _ same => congrArg Reg.num same
      · refine nodup_append.mpr ⟨nodup_range', nodup_range.filter _, ?_⟩
        rintro single mem _ outside rfl
        simp only [mem_filter, Bool.not_eq_true', contains_eq_mem, mem_append,
          decide_eq_false_iff_not, not_or] at outside
        exact outside.2.1 mem
      · intro single mem
        rcases mem_append.mp mem with taken | left
        · have bounds := mem_range'_1.mp taken
          exact mem_filter.mpr ⟨mem_range.mpr (by omega), unused single taken⟩
        · obtain ⟨bound, untaken⟩ := mem_filter.mp left
          refine mem_filter.mpr ⟨bound, ?_⟩
          simp only [Bool.not_eq_true', contains_eq_mem, mem_append,
            decide_eq_false_iff_not, not_or] at untaken ⊢
          exact untaken.2
    · simp at done

theorem take_none (singles next : Singles)
    (done : singles.take members width = (none, next)) : next.free = singles.free := by
  by_cases closed : singles.closed = true
  · simp only [take, closed, if_true, Prod.mk.injEq] at done
    rw [done.2]
  · simp only [take, closed, Bool.false_eq_true, if_false] at done
    split at done
    · simp at done
    · simp only [Prod.mk.injEq] at done
      obtain ⟨_, rfl⟩ := done
      rfl

end Singles

def State.free (state : State) : List Reg := state.core.free ++ state.singles.free

theorem structAlign_pos : 0 < structAlign layout := by
  by_cases wide : layout.fields.any (fun field => field.ty == .i64 || field.ty == .f64) = true
  · simp [structAlign, wide]
  · simp [structAlign, wide]

def memberSegments (start width : Nat) (fields : List Field) (index : Nat) : List Segment :=
  (fields.zipIdx index).map fun (field, index) =>
    ⟨.reg (.float (start + index * width)), field.offset, width * 4⟩

theorem memberSegments_held (start : Nat) (fields : List Field) (index : Nat) (positive : 0 < width) :
    (memberSegments start width fields index).flatMap (Segment.held 4)
      = (List.range' (start + index * width) (fields.length * width)).map Reg.float := by
  induction fields generalizing index with
  | nil => simp [memberSegments]
  | cons field rest ih =>
    have here : Segment.held 4 ⟨.reg (.float (start + index * width)), field.offset, width * 4⟩
        = (List.range' (start + index * width) width).map Reg.float := by
      simp only [Segment.held, Nat.mul_div_cancel width (by omega : 0 < 4), Nat.max_eq_right positive]
      rfl
    have later : start + index * width + width = start + (index + 1) * width := by
      rw [Nat.succ_mul]
      omega
    have count : (field :: rest).length * width = width + rest.length * width := by
      rw [length_cons, Nat.succ_mul, Nat.add_comm]
    rw [count, ← range'_append_1, map_append, later, ← ih (index + 1), ← here]
    rfl

theorem memberSegments_chunks (start width : Nat) (fields : List Field) (index : Nat) :
    (memberSegments start width fields index).map Segment.chunk
      = fields.map fun field => ⟨field.offset, width * 4⟩ := by
  rw [memberSegments, map_map]
  conv_rhs => rw [← zipIdx_map_fst index fields, map_map]
  rfl

theorem memberSegments_stretches (start width : Nat) (fields : List Field) (index : Nat) :
    (memberSegments start width fields index).filterMap Segment.stretch? = [] := by
  simp [memberSegments, filterMap_map, Function.comp_def, Segment.stretch?, Segment.stackOffset?]

def coreAlign (arg : ArgShape) (size : Nat) : Nat :=
  match arg.layout with
  | some layout => structAlign layout
  | none => if size = 8 then 8 else 4

def ViaCore (align : Nat) (state : State) (size : Nat) (placement : Placement) (next : State) : Prop :=
  next.singles = state.singles ∧ Passes 4 align (state.stack.isUsed = false) (chunks size 4)
    (usable state.core align) state.stack size placement next.core next.stack

inductive ViaSingles (fields : List Field) (width bytes : Nat) (state : State) (placement : Placement)
    (next : State) : Prop
  | taken (start : Nat) (left : Singles) (took : state.singles.take fields.length width = (some start, left))
      (held : placement = { segments := memberSegments start width fields 0 })
      (after : next = { state with singles := left })
  | stack (left : Singles) (stack : StackArea) (took : state.singles.take fields.length width = (none, left))
      (put : state.stack.put bytes 4 (width * 4) = .ok (placement, stack))
      (after : next = { state with singles := left, stack })

inductive Placed (isVarargs : Bool) (state : State) (arg : ArgShape) (size : Nat) (placement : Placement)
    (next : State) : Prop
  | core (plain : (arg.isFloating && !isVarargs) = false)
      (passed : ViaCore (coreAlign arg size) state size placement next)
  | float (floating : (arg.isFloating && !isVarargs) = true) (scalar : arg.layout = none)
      (wide : size = memberWidth arg.ty * 4)
      (passed : ViaSingles [⟨0, arg.ty⟩] (memberWidth arg.ty) size state placement next)
  | aggregate (layout : Layout) (member : ValueType) (floating : (arg.isFloating && !isVarargs) = true)
      (hasLayout : arg.layout = some layout) (isAggregate : layout.floatAggregate = some member)
      (passed : ViaSingles layout.fields (memberWidth member) layout.size state placement next)

variable {state next : State} {size : Nat} {placement : Placement} {isVarargs : Bool} {arg : ArgShape}
  {align : Nat}

theorem placeFloats_passed {fields : List Field}
    (done : placeFloats state fields width size = .ok (placement, next)) :
    ViaSingles fields width size state placement next := by
  unfold placeFloats at done
  split at done
  · rename_i start left took
    cases done
    exact .taken start left took rfl rfl
  · rename_i left took
    simp only [except_bind_ok_iff, lift_except_ok_iff, except_pure_ok_iff, Prod.mk.injEq] at done
    obtain ⟨⟨_, stack⟩, put, rfl, rfl⟩ := done
    exact .stack left stack took put rfl

theorem viaCore_ok {pass : RegSequence → StackArea → Except Stop (Placement × RegSequence × StackArea)}
    (done : viaCore state align pass = .ok (placement, next)) : next.singles = state.singles
      ∧ pass (usable state.core align) state.stack = .ok (placement, next.core, next.stack) := by
  simp only [viaCore, except_bind_ok_iff, except_pure_ok_iff, Prod.mk.injEq] at done
  obtain ⟨⟨_, _⟩, passed, rfl, rfl⟩ := done
  exact ⟨rfl, passed⟩

theorem struct_passed (done : viaCore state align
      (passPieces (chunkCount size 4) (.inRegs · (chunks size 4)) (!state.stack.isUsed) size 4 align)
        = .ok (placement, next)) :
    ViaCore align state size placement next :=
  (viaCore_ok done).imp_right (passPieces_passes (length_chunks _ _) (fun _ => rfl) (by omega) (by simp))

theorem float_width (isFloat : arg.ty.isFloat = true) (sized : arg.size 4 = .ok size) :
    size = memberWidth arg.ty * 4 := by
  obtain ⟨ty, layout, role⟩ := arg
  cases ty <;> cases isFloat <;> cases sized <;> rfl

theorem place_ok (done : place isVarargs state arg = .ok (placement, next)) :
    ∃ size, arg.size 4 = .ok size ∧ Placed isVarargs state arg size placement next := by
  simp only [place, except_bind_ok_iff] at done
  obtain ⟨size, sized, done⟩ := done
  refine ⟨size, sized, ?_⟩
  cases hasLayout : arg.layout with
  | some layout =>
    have floats : arg.isFloating = layout.floatAggregate.isSome := by rw [ArgShape.isFloating, hasLayout]
    have aligned : coreAlign arg size = structAlign layout := by rw [coreAlign, hasLayout]
    simp only [hasLayout] at done
    cases isVarargs with
    | true => exact .core (Bool.and_false _) (aligned ▸ struct_passed done)
    | false =>
      cases isAggregate : layout.floatAggregate with
      | none =>
        simp only [isAggregate] at done
        exact .core (by simp [floats, isAggregate]) (aligned ▸ struct_passed done)
      | some member =>
        simp only [isAggregate] at done
        exact .aggregate layout member (by simp [floats, isAggregate]) hasLayout isAggregate
          (placeFloats_passed done)
  | none =>
    have same : (arg.isFloating && !isVarargs) = (arg.ty.isFloat && !isVarargs) := by
      rw [ArgShape.isFloating, hasLayout]
    simp only [hasLayout] at done
    split at done
    · rename_i isFloat
      have wide := float_width (Bool.and_eq_true_iff.mp isFloat).1 sized
      exact .float (same.trans isFloat) hasLayout wide (placeFloats_passed done)
    · rename_i plain
      refine .core (same.trans (Bool.eq_false_iff.mpr plain)) ?_
      rw [coreAlign, hasLayout]
      split at done
      · rename_i wide
        subst wide
        exact (viaCore_ok done).imp_right (passPieces_passes (length_chunks 8 4) (by simp) (by omega) (by simp))
      · rename_i narrow
        have scalar := arg.size_scalar hasLayout sized
        simp only [if_neg narrow]
        exact (viaCore_ok done).imp_right (passWord_passes (by omega) (by omega))

theorem placeFloats_avoids {fields : List Field} :
    Avoids Stop.isUnexpected (placeFloats state fields width size) := by
  unfold placeFloats
  split
  · exact .pure _
  · exact state.stack.put_avoids

theorem coreAlign_pos (arg : ArgShape) (size : Nat) : 0 < coreAlign arg size := by
  unfold coreAlign
  split
  · exact structAlign_pos
  · split <;> omega

theorem memberWidth_pos (member : ValueType) : 0 < memberWidth member := by
  unfold memberWidth
  split <;> omega

section ViaSingles

variable {fields : List Field} {width bytes : Nat} (passed : ViaSingles fields width bytes state placement next)
include passed

theorem ViaSingles.core : next.core = state.core := by
  cases passed with
  | taken _ _ _ _ after | stack _ _ _ _ after => rw [after]

theorem ViaSingles.handed (positive : 0 < width) :
    Handed 4 state.free next.free state.stack next.stack placement := by
  cases passed with
  | taken start left took held after =>
    subst held after
    refine ⟨?_, ?_⟩
    · have sameRegs := memberSegments_held start fields 0 positive
      rw [Nat.zero_mul, Nat.add_zero] at sameRegs
      rw [Placement.held, sameRegs]
      refine (perm_append_comm_assoc _ state.core.free left.free).subperm.trans ?_
      exact (subperm_append_left state.core.free).mpr (state.singles.take_some took)
    · rw [Placement.stretches, memberSegments_stretches]
      exact Nat.le_refl _
  | stack left stack took put after =>
    subst after
    rw [State.free, State.free, state.singles.take_none left took]
    exact (StackArea.put_handed _ (by omega) (by omega) put).1

theorem ViaSingles.whole (positive : 0 < width)
    (cut : fields.map (fun field => (⟨field.offset, width * 4⟩ : Chunk)) = chunks bytes (width * 4)) :
    placement.Whole bytes := by
  cases passed with
  | taken start left took held after =>
    subst held
    exact ⟨rfl, chunks_adjoin (by omega)
      ((memberSegments_chunks start width fields 0).trans cut)⟩
  | stack left stack took put after =>
    have passed : Through 4 (width * 4) False (chunks bytes 4) [] state.stack bytes placement [] stack :=
      .of_put put
    exact passed.whole (by omega) (by omega) rfl

end ViaSingles

theorem aggregate_chunks (natural : layout.Natural) (isAggregate : layout.floatAggregate = some member) :
    layout.fields.map (fun field => (⟨field.offset, memberWidth member * 4⟩ : Chunk))
      = chunks layout.size (memberWidth member * 4) := by
  obtain ⟨bytes, sized, _, long, laid⟩ := natural.aggregate isAggregate
  have words : bytes = memberWidth member * 4 := by
    rw [sized, memberWidth]
    split <;> rfl
  have positive := memberWidth_pos member
  rw [long, words, chunks_mul _ (by omega)]
  conv_lhs => rw [laid, map_map, words]
  rfl

theorem usable_follows (core : RegSequence) (align : Nat) : (usable core align).Follows core := by
  unfold usable
  split
  · exact core.alignEven_follows
  · exact .refl core

def placer (isVarargs : Bool) : Placer where
  State := State
  place := place isVarargs
  start := {}
  area := State.stack
  align := 8
  free := State.free
  sequences := fun state => [state.core]

theorem conforms : (placer isVarargs).Conforms 4 where
  aligned := Nat.succ_pos 7
  started := by
    intro seq mem
    rw [mem_singleton.mp mem]
    exact Nat.zero_le _
  hands := by
    intro (state : State) arg placement (next : State) done
    obtain ⟨size, sized, placed⟩ := place_ok done
    cases placed with
    | core _ passed =>
      obtain ⟨sameSingles, passed⟩ := passed
      have handed := passed.through.handed (by omega) (coreAlign_pos arg size) (chunk_narrow size 4)
      have follows := usable_follows state.core (coreAlign arg size)
      simp only [placer, State.free, sameSingles]
      exact ⟨(handed.beside state.singles.free).fewer (follows.left.sublist.append_right _).subperm,
        .cons (passed.follows.trans follows) .nil,
        fun _ => (passed.through.whole (by omega) (by omega) rfl).covers sized⟩
    | float _ scalar wide passed =>
      have positive := memberWidth_pos arg.ty
      refine ⟨passed.handed positive, .cons (passed.core ▸ .refl _) .nil,
        fun _ => (passed.whole positive ?_).covers sized⟩
      rw [← wide, chunks_narrow (by omega) (Nat.le_refl size)]
      rfl
    | aggregate layout member _ hasLayout isAggregate passed =>
      have positive := memberWidth_pos member
      refine ⟨passed.handed positive, .cons (passed.core ▸ .refl _) .nil, fun described => ?_⟩
      have sameSize := arg.size_layout described 4 size layout hasLayout sized
      have cut := aggregate_chunks (described.natural layout hasLayout) isAggregate
      exact (passed.whole positive cut).covers (sameSize ▸ sized)
  sizes := fun _ _ _ => bind_failed
  stops := by
    refine fun (state : State) arg stop within => Avoids.first_of_bind fun size _ => ?_
    have inside (align : Nat) : (usable state.core align).Within :=
      (usable_follows state.core align).within (within state.core mem_cons_self)
    split
    · split
      · exact placeFloats_avoids
      · exact (passPieces_avoids (length_chunks _ _) (fun _ => rfl) _ (by omega) (inside _)).bind fun _ => .pure _
    · split
      · exact placeFloats_avoids
      · split
        · exact (passPieces_avoids (length_chunks 8 4) (by simp) 8 (by omega) (inside 8)).bind fun _ => .pure _
        · exact (passWord_avoids size 4).bind fun _ => .pure _

end Arm32

end CallLowering
