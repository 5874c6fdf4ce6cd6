import CallLowering.Proofs.Placing

/-!
The conventions of x86 hand out what is free: no register twice, the outgoing area from its bottom
upwards, and to each argument as many bytes as it has.
-/

namespace CallLowering

open List

variable {arg : ArgShape} {layout : Layout} {parts : List SystemV.Eightbyte} {segments : List Segment}
  {pointerSize size : Nat} {state : State} {found : Option Reg} {float : Bool}

namespace ArgShape

theorem size_layout (described : arg.Described) (pointerSize size : Nat) (layout : Layout)
    (hasLayout : arg.layout = some layout) (done : arg.size pointerSize = .ok size) : layout.size = size := by
  obtain ⟨ty, _, role⟩ := arg
  cases hasLayout
  cases ty with
  | struct index =>
    cases done
    rfl
  | _ => cases described.ofStruct rfl

theorem size_scalar (arg : ArgShape) (scalar : arg.layout = none) (done : arg.size pointerSize = .ok size) :
    size = 1 ∨ size = 2 ∨ size = 4 ∨ size = 8 ∨ size = pointerSize := by
  obtain ⟨ty, _, role⟩ := arg
  cases scalar
  cases ty with
  | struct index => cases done
  | void => cases done
  | _ =>
    cases done
    simp [ValueType.scalarSize]

end ArgShape

namespace X86

def placer (call : CallShape) : Placer where
  State := State
  place := place
  start := start call
  area := State.stack
  align := 4
  free := fun state => state.regs.free
  sequences := fun state => [state.regs]

theorem start_within (call : CallShape) : (start call).regs.Within := by
  rw [start]
  split
  · exact Nat.le_refl _
  · exact Nat.zero_le _

theorem conforms (call : CallShape) : (placer call).Conforms 4 where
  aligned := Nat.succ_pos 3
  started := by
    intro seq mem
    rw [mem_singleton.mp mem]
    exact start_within call
  hands := by
    intro (state : State) arg placement (next : State) done
    simp only [placer, place, except_bind_ok_iff] at done
    obtain ⟨size, sized, done⟩ := done
    split at done
    · rename_i small
      simp only [Bool.and_eq_true, Option.isNone_iff_eq_none, decide_eq_true_eq] at small
      have scalar := arg.size_scalar small.1.1 sized
      simp only [except_bind_ok_iff, except_pure_ok_iff, Prod.mk.injEq] at done
      obtain ⟨⟨_, _⟩, passed, rfl, rfl⟩ := done
      have passed : Passes _ _ False _ _ _ _ _ _ _ := passWord_passes (by omega) small.2 passed
      exact ⟨passed.through.handed (by omega) (by omega) (chunk_narrow size 4), .cons passed.follows .nil,
        fun _ => (passed.through.whole (by omega) (by omega) rfl).covers sized⟩
    · simp only [except_bind_ok_iff, lift_except_ok_iff, except_pure_ok_iff, Prod.mk.injEq] at done
      obtain ⟨⟨_, _⟩, put, rfl, rfl⟩ := done
      obtain ⟨handed, whole⟩ := StackArea.put_handed state.regs.free (by omega) (by omega) put
      exact ⟨handed, .cons (.refl _) .nil, fun _ => whole.covers sized⟩
  sizes := fun _ _ _ => bind_failed
  stops := by
    refine fun state arg stop _ => Avoids.first_of_bind fun size _ => ?_
    dsimp only
    split
    · exact (passWord_avoids size 4).bind fun _ => .pure _
    · exact state.stack.put_avoids

end X86

namespace WindowsX64

def State.free (state : State) : List Reg := intArgs.drop state.slot ++ floatArgs.drop state.slot

-- Of the two registers of a slot, the one that is used goes and the other one is skipped.
theorem slot_free (within : state.slot < intArgs.length) (float : Bool) :
    ∃ reg, elementAt (if float then floatArgs else intArgs) state.slot = .ok reg
      ∧ (reg :: State.free { state with slot := state.slot + 1 }).Subperm state.free := by
  have bound : state.slot < floatArgs.length := within
  rw [State.free, State.free, drop_eq_getElem_cons within, drop_eq_getElem_cons bound]
  cases float with
  | false => exact ⟨_, elementAt_ok within, ((sublist_cons_self _ _).append_left (_ :: _)).subperm⟩
  | true => exact ⟨_, elementAt_ok bound, perm_middle.symm.subperm.trans (sublist_cons_self _ _).subperm⟩

theorem passed_narrow (sized : arg.size 8 = .ok size) :
    (if (arg.layout.isSome && !fitsRegister size) = true then 8 else size) ≤ 8 := by
  cases hasLayout : arg.layout with
  | none =>
    have scalar := arg.size_scalar hasLayout sized
    simp only [Option.isSome_none, Bool.false_and, Bool.false_eq_true, if_false]
    omega
  | some layout =>
    by_cases fits : fitsRegister size = true
    · simp only [fitsRegister, Bool.or_eq_true, beq_iff_eq] at fits
      split <;> omega
    · simp [fits]

theorem covers {byRef : Bool} (sized : arg.size 8 = .ok size)
    (ofStruct : byRef = true → arg.ty.isStruct = true) {place : Place} :
    Placement.Covers { segments := [⟨place, 0, if byRef = true then 8 else size⟩], byRef } 8 arg := by
  cases byRef with
  | false => exact Placement.Whole.covers ⟨rfl, rfl, Nat.zero_add size⟩ sized
  | true => exact ⟨Bool.noConfusion, fun _ => ⟨ofStruct rfl, place, rfl⟩⟩

def placer (isVarargs : Bool) : Placer where
  State := State
  place := place isVarargs
  start := {}
  area := State.stack
  align := 8
  free := State.free
  -- The slot counts on past the registers, which are looked up by position.
  sequences := fun _ => []

theorem conforms {isVarargs : Bool} : (placer isVarargs).Conforms 8 where
  aligned := Nat.succ_pos 7
  started := fun _ mem => absurd mem not_mem_nil
  hands := by
    intro (state : State) arg placement (next : State) done
    simp only [placer, place, except_bind_ok_iff] at done
    obtain ⟨size, sized, done⟩ := done
    have narrow := passed_narrow sized
    have ofStruct : arg.Described → (arg.layout.isSome && !fitsRegister size) = true →
        arg.ty.isStruct = true := fun described byRef =>
      described.ofStruct (Bool.and_eq_true_iff.mp byRef).1
    split at done
    · rename_i within
      obtain ⟨reg, found, fewer⟩ := slot_free within (arg.ty.isFloat && !isVarargs)
      rw [found] at done
      cases done
      exact ⟨(handed_inReg reg _ state.stack _ (by omega) narrow).fewer fewer, .nil,
        fun described => covers sized (ofStruct described)⟩
    · simp only [except_bind_ok_iff, lift_except_ok_iff, except_pure_ok_iff] at done
      obtain ⟨⟨offset, area⟩, allocated, rfl, rfl⟩ := done
      have fewer : (State.free ⟨state.slot + 1, area⟩).Subperm state.free :=
        ((drop_sublist_drop_left _ (Nat.le_succ _)).append (drop_sublist_drop_left _ (Nat.le_succ _))).subperm
      exact ⟨⟨fewer, StackArea.alloc_ascending narrow (by omega) (by omega) allocated⟩, .nil,
        fun described => covers sized (ofStruct described)⟩
  sizes := fun _ _ _ => bind_failed
  stops := by
    refine fun (state : State) arg stop _ => Avoids.first_of_bind fun size _ => ?_
    dsimp only
    split
    · rename_i within
      obtain ⟨reg, found, _⟩ := slot_free within (arg.ty.isFloat && !isVarargs)
      rw [found]
      exact .pure _
    · exact (state.stack.alloc_avoids _ _ _).lift.bind fun _ => .pure _

end WindowsX64

namespace SystemV

def State.free (state : State) : List Reg := state.ints.free ++ state.floats.free

def placer : Placer where
  State := State
  place := place
  start := {}
  area := State.stack
  align := 8
  free := State.free
  sequences := fun state => [state.ints, state.floats]

def State.bank (state : State) (float : Bool) : List Reg :=
  if float then state.floats.free else state.ints.free

def Shorter (next state : State) : Prop := next.ints.Follows state.ints ∧ next.floats.Follows state.floats

variable {next : State}

theorem pop_int (done : state.pop false = (found, next)) :
    ∃ ints, state.ints.pop = (found, ints) ∧ next = { state with ints } := by
  obtain ⟨same, rfl⟩ := Prod.mk.inj done
  exact ⟨state.ints.pop.2, Prod.ext same rfl, rfl⟩

theorem pop_float (done : state.pop true = (found, next)) :
    ∃ floats, state.floats.pop = (found, floats) ∧ next = { state with floats } := by
  obtain ⟨same, rfl⟩ := Prod.mk.inj done
  exact ⟨state.floats.pop.2, Prod.ext same rfl, rfl⟩

theorem pop_some {reg : Reg} (done : state.pop float = (some reg, next)) :
    (reg :: next.free).Subperm state.free ∧ next.stack = state.stack
      ∧ next.ints.free.length + (if float then 0 else 1) = state.ints.free.length
      ∧ next.floats.free.length + (if float then 1 else 0) = state.floats.free.length
      ∧ Shorter next state ∧ reg ∈ state.bank float := by
  cases float with
  | false =>
    obtain ⟨ints, popped, rfl⟩ := pop_int done
    obtain ⟨free, follows⟩ := RegSequence.pop_some popped
    simp only [State.free, State.bank, free]
    exact ⟨List.Subperm.refl _, trivial, rfl, rfl, ⟨follows, .refl _⟩, mem_cons_self⟩
  | true =>
    obtain ⟨floats, popped, rfl⟩ := pop_float done
    obtain ⟨free, follows⟩ := RegSequence.pop_some popped
    simp only [State.free, State.bank, free]
    exact ⟨perm_middle.symm.subperm, trivial, rfl, rfl, ⟨.refl _, follows⟩, mem_cons_self⟩

theorem pop_none (done : state.pop float = (none, next)) : next = state ∧ state.bank float = [] := by
  cases float with
  | false =>
    obtain ⟨ints, popped, rfl⟩ := pop_int done
    obtain ⟨rfl, none⟩ := RegSequence.pop_none popped
    exact ⟨rfl, none⟩
  | true =>
    obtain ⟨floats, popped, rfl⟩ := pop_float done
    obtain ⟨rfl, none⟩ := RegSequence.pop_none popped
    exact ⟨rfl, none⟩

theorem eightbytes_pieces (done : eightbytes layout size = .ok parts) :
    parts.map Eightbyte.piece = chunks size 8 := by
  simp only [eightbytes, mapM_except_ok_iff] at done
  generalize chunks size 8 = pieces at done ⊢
  induction done with
  | nil => rfl
  | cons here _ ih =>
    obtain ⟨isFloat, _, same⟩ := except_bind_ok_iff.mp here
    cases same
    rw [map_cons, ih]

def Seated (state : State) (segment : Segment) (part : Eightbyte) : Prop :=
  segment.chunk = part.piece ∧ ∃ reg ∈ state.bank part.float, segment.place = .reg reg

theorem Seated.shorter (shorter : Shorter next state) {segment : Segment} {part : Eightbyte}
    (seated : Seated next segment part) : Seated state segment part := by
  obtain ⟨same, reg, inBank, inReg⟩ := seated
  refine ⟨same, reg, ?_, inReg⟩
  revert inBank
  cases part.float with
  | false => exact fun inBank => shorter.1.left.subset inBank
  | true => exact fun inBank => shorter.2.left.subset inBank

theorem takeEightbytes_ok (narrow : ∀ part ∈ parts, part.piece.len ≤ 8)
    (done : takeEightbytes state parts = .ok (segments, next)) :
    (segments.flatMap (Segment.held 8) ++ next.free).Subperm state.free ∧ next.stack = state.stack
      ∧ segments.filterMap Segment.stretch? = [] ∧ Shorter next state
      ∧ List.Forall₂ (Seated state) segments parts := by
  induction parts generalizing state segments with
  | nil =>
    cases done
    exact ⟨List.Subperm.refl _, rfl, rfl, ⟨.refl _, .refl _⟩, .nil⟩
  | cons part rest ih =>
    simp only [takeEightbytes] at done
    split at done
    · cases done
    · rename_i reg middle taken
      simp only [except_bind_ok_iff, except_pure_ok_iff, Prod.mk.injEq] at done
      obtain ⟨⟨others, _⟩, later, rfl, rfl⟩ := done
      obtain ⟨free, sameStack, _, _, shorter, inBank⟩ := pop_some taken
      obtain ⟨regs, stack, noStack, last, seated⟩ := ih (fun other mem => narrow other (by simp [mem])) later
      refine ⟨?_, stack.trans sameStack, noStack, ⟨last.1.trans shorter.1, last.2.trans shorter.2⟩,
        .cons ⟨rfl, reg, inBank, rfl⟩ (seated.imp fun _ _ => Seated.shorter shorter)⟩
      rw [flatMap_cons, append_assoc,
        Segment.held_narrow _ reg (by omega) (narrow part (by simp))]
      exact ((subperm_append_left [reg]).mpr regs).trans free

theorem seated_chunks (seated : List.Forall₂ (Seated state) segments parts) :
    segments.map Segment.chunk = parts.map Eightbyte.piece := by
  rw [← List.forall₂_eq_eq_eq, List.forall₂_map_left_iff, List.forall₂_map_right_iff]
  exact seated.imp fun _ _ both => both.1

theorem takeEightbytes_refused {parts : List Eightbyte} (stop : Stop)
    (ints : parts.length - parts.countP Eightbyte.float ≤ state.ints.free.length)
    (floats : parts.countP Eightbyte.float ≤ state.floats.free.length) : takeEightbytes state parts ≠ .error stop := by
  induction parts generalizing state with
  | nil => intro done; cases done
  | cons part rest ih =>
    have counted := countP_le_length (p := Eightbyte.float) (l := rest)
    intro done
    simp only [takeEightbytes] at done
    split at done
    · rename_i exhausted
      have none := congrArg length (pop_none exhausted).2
      cases isFloat : part.float with
      | true =>
        rw [countP_cons_of_pos isFloat] at floats
        simp only [isFloat, State.bank, if_true, length_nil] at none
        omega
      | false =>
        rw [countP_cons_of_neg (by simp [isFloat]), length_cons] at ints
        simp only [isFloat, State.bank, Bool.false_eq_true, if_false, length_nil] at none
        omega
    · rename_i reg middle taken
      obtain ⟨_, _, intsLeft, floatsLeft, _⟩ := pop_some taken
      simp only [except_bind_error_iff] at done
      rcases done with later | ⟨_, _, impossible⟩
      · cases isFloat : part.float with
        | true =>
          rw [countP_cons_of_pos isFloat, length_cons] at ints
          rw [countP_cons_of_pos isFloat] at floats
          simp only [isFloat, if_true] at intsLeft floatsLeft
          exact ih (by omega) (by omega) later
        | false =>
          rw [countP_cons_of_neg (by simp [isFloat]), length_cons] at ints
          rw [countP_cons_of_neg (by simp [isFloat])] at floats
          simp only [isFloat, Bool.false_eq_true, if_false] at intsLeft floatsLeft
          exact ih (by omega) (by omega) later
      · cases impossible

theorem onStack_avoids (state : State) (size : Nat) : Avoids Stop.isUnexpected (onStack state size) :=
  state.stack.put_avoids

-- How an argument of `size` bytes is placed: the eightbytes of a struct in a register each, anything else
-- that fits in one, or all of it on the stack.
inductive Placed (state : State) (arg : ArgShape) (size : Nat) : Placement → State → Prop
  | eightbytes (layout : Layout) (parts : List Eightbyte) (segments : List Segment) (next : State)
      (hasLayout : arg.layout = some layout) (small : size ≤ 16) (cut : eightbytes layout size = .ok parts)
      (taken : takeEightbytes state parts = .ok (segments, next)) : Placed state arg size { segments } next
  | scalar (reg : Reg) (next : State) (scalar : arg.layout = none)
      (taken : state.pop arg.ty.isFloat = (some reg, next)) : Placed state arg size (.inReg reg size) next
  | stack (placement : Placement) (stack : StackArea)
      (put : state.stack.put size 8 8 = .ok (placement, stack)) :
      Placed state arg size placement { state with stack }

theorem place_ok {placement : Placement} (done : place state arg = .ok (placement, next)) :
    ∃ size, arg.size 8 = .ok size ∧ Placed state arg size placement next := by
  simp only [place, except_bind_ok_iff] at done
  obtain ⟨size, sized, done⟩ := done
  have stack (put : onStack state size = .ok (placement, next)) : Placed state arg size placement next := by
    simp only [onStack, except_bind_ok_iff, lift_except_ok_iff, except_pure_ok_iff, Prod.mk.injEq] at put
    obtain ⟨⟨_, _⟩, put, rfl, rfl⟩ := put
    exact .stack _ _ put
  refine ⟨size, sized, ?_⟩
  split at done
  · rename_i layout hasLayout
    by_cases small : size ≤ 16
    · simp only [small, if_true, except_bind_ok_iff, lift_except_ok_iff] at done
      obtain ⟨parts, cut, _, _, done⟩ := done
      split at done
      · simp only [except_bind_ok_iff, except_pure_ok_iff, Prod.mk.injEq] at done
        obtain ⟨⟨segments, _⟩, taken, rfl, rfl⟩ := done
        exact .eightbytes layout parts segments _ hasLayout small cut taken
      · exact stack done
    · exact stack (by simpa only [small, if_false] using done)
  · rename_i scalar
    split at done
    · rename_i reg middle taken
      cases done
      exact .scalar reg next scalar taken
    · rename_i _ none
      rw [(pop_none none).1] at done
      exact stack done

theorem eightbyte_narrow (cut : eightbytes layout size = .ok parts) (part : Eightbyte) (mem : part ∈ parts) :
    part.piece.len ≤ 8 :=
  chunk_narrow size 8 part.piece (eightbytes_pieces cut ▸ mem_map_of_mem mem)

theorem conforms : placer.Conforms 8 where
  aligned := Nat.succ_pos 7
  started := by
    intro seq mem
    rcases mem_pair.mp mem with rfl | rfl
    all_goals exact Nat.zero_le _
  hands := by
    intro (state : State) arg placement (next : State) done
    obtain ⟨size, sized, placed⟩ := place_ok done
    cases placed with
    | eightbytes layout parts segments _ _ _ cut taken =>
      obtain ⟨regs, sameStack, noStack, shorter, seated⟩ := takeEightbytes_ok (eightbyte_narrow cut) taken
      refine ⟨⟨regs, ?_⟩, .cons shorter.1 (.cons shorter.2 .nil),
        fun _ => Placement.Whole.covers ⟨rfl, ?_⟩ sized⟩
      · simp only [placer, sameStack, Placement.stretches, noStack]
        exact Nat.le_refl _
      · exact chunks_adjoin (by omega) ((seated_chunks seated).trans (eightbytes_pieces cut))
    | scalar reg _ scalar taken =>
      obtain ⟨free, sameStack, _, _, shorter, _⟩ := pop_some taken
      have narrow := arg.size_scalar scalar sized
      simp only [placer, ← sameStack]
      exact ⟨(handed_inReg reg next.free next.stack false (by omega) (by omega)).fewer free,
        .cons shorter.1 (.cons shorter.2 .nil), fun _ => (whole_inReg reg size).covers sized⟩
    | stack _ _ put =>
      obtain ⟨handed, whole⟩ := StackArea.put_handed state.free (by omega) (by omega) put
      exact ⟨handed, .cons (.refl _) (.cons (.refl _) .nil), fun _ => whole.covers sized⟩
  sizes := fun _ _ _ => bind_failed
  stops := by
    refine fun (state : State) arg stop within => Avoids.first_of_bind fun size _ => ?_
    have ints : state.ints.Within := within state.ints mem_cons_self
    have floats : state.floats.Within := within state.floats (mem_cons_of_mem _ mem_cons_self)
    split
    · split
      · rename_i layout _ _
        have parts : Avoids Fault.isUnexpected (eightbytes layout size) := Avoids.mapM (fun piece =>
          Avoids.bind ((Word.check_avoids rfl).bind fun _ => .pure _) fun _ => .pure _) _
        refine parts.lift.bind fun found => ?_
        dsimp only
        rw [except_and_ok ((lift_except_ok_iff).mpr (RegSequence.has_ok ints _))
          ((lift_except_ok_iff).mpr (RegSequence.has_ok floats _))]
        dsimp only [bind, Except.bind]
        split
        · rename_i enough
          simp only [Bool.and_eq_true, decide_eq_true_eq] at enough
          refine Avoids.bind (fun stop failed => ?_) fun _ => .pure _
          cases takeEightbytes_refused stop enough.1 enough.2 failed
        · exact onStack_avoids state size
      · exact onStack_avoids state size
    · split
      · exact .pure _
      · exact onStack_avoids _ size

end SystemV

end CallLowering
