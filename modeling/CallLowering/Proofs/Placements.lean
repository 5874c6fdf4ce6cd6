import CallLowering.Proofs.ArmConventions

/-!
The placements of a call on a shipped target. No two segments share a register or a byte of the
outgoing area, and the segments of an argument are all of it.
-/

namespace CallLowering

open List

variable {single : Nat}

theorem Triple.pointerSize_arm32 (triple : Triple) (isArm32 : triple.architecture = .arm32) :
    triple.pointerSize = 4 := by
  simp [Triple.pointerSize, Architecture.pointerSize, isArm32]

namespace Target

def bank (triple : Triple) : List Reg :=
  match triple.architecture with
  | .x64 => if triple.isWindows then WindowsX64.State.free {} else SystemV.State.free {}
  | .x86 => [.int 1, .int 2]
  | .arm64 => Arm64.State.free {}
  | .arm32 => Arm32.State.free {}

def bottom (triple : Triple) : Nat :=
  match triple.architecture with
  | .x64 => if triple.isWindows then WindowsX64.homeArea else 0
  | _ => 0

theorem bank_nodup (triple : Triple) : (bank triple).Nodup := by
  obtain ⟨architecture, os⟩ := triple
  cases architecture <;> cases os <;> decide +kernel

theorem pointerSize_ofTriple (triple : Triple) : (ofTriple triple).pointerSize = triple.pointerSize := by
  obtain ⟨architecture, os⟩ := triple
  cases architecture <;> cases os <;> rfl

def placer (triple : Triple) (call : CallShape) : Placer :=
  match triple.architecture with
  | .x64 => if triple.isWindows then WindowsX64.placer call.isVarargs else SystemV.placer
  | .x86 => X86.placer call
  | .arm64 => Arm64.placer (triple.isWindows && call.isVarargs)
  | .arm32 => Arm32.placer call.isVarargs

theorem classify_eq (triple : Triple) (call : CallShape) :
    (ofTriple triple).classify call = (placer triple call).classify := by
  obtain ⟨architecture, os⟩ := triple
  cases architecture <;> cases os <;> rfl

theorem placer_cases {holds : Nat → Placer → Prop} (triple : Triple) {call : CallShape}
    (windows : holds 8 (WindowsX64.placer call.isVarargs)) (systemV : holds 8 SystemV.placer)
    (x86 : holds 4 (X86.placer call)) (arm64 : ∀ winVarargs, holds 8 (Arm64.placer winVarargs))
    (arm32 : holds 4 (Arm32.placer call.isVarargs)) : holds triple.pointerSize (placer triple call) := by
  obtain ⟨architecture, os⟩ := triple
  cases architecture with
  | x64 =>
    simp only [placer]
    split
    · exact windows
    · exact systemV
  | x86 => exact x86
  | arm64 => exact arm64 _
  | arm32 => exact arm32

theorem placer_conforms (triple : Triple) (call : CallShape) : (placer triple call).Conforms triple.pointerSize :=
  @placer_cases (fun word placer => placer.Conforms word) triple call (WindowsX64.conforms) SystemV.conforms
    (X86.conforms call) Arm64.conforms (Arm32.conforms)

theorem placer_start (triple : Triple) (call : CallShape) :
    ((placer triple call).free (placer triple call).start).Subperm (bank triple)
      ∧ ((placer triple call).area (placer triple call).start).next = bottom triple := by
  obtain ⟨architecture, os⟩ := triple
  cases architecture with
  | x64 => cases os <;> exact ⟨List.Subperm.refl _, rfl⟩
  | x86 =>
    refine ⟨?_, rfl⟩
    simp only [placer, X86.placer, X86.start, bank]
    split
    · exact nil_subperm
    · exact List.Subperm.refl _
  | arm64 | arm32 => exact ⟨List.Subperm.refl _, rfl⟩

theorem single_bound {triple : Triple} (isArm32 : triple.architecture = .arm32)
    (inBank : Reg.float single ∈ bank triple) : single < 16 := by
  simp only [bank, isArm32, Arm32.State.free, RegSequence.free, drop_zero, mem_append, mem_map,
    Arm32.Singles.free] at inBank
  rcases inBank with ⟨core, _, same⟩ | ⟨other, mem, same⟩
  · cases same
  · cases same
    exact mem_range.mp (mem_filter.mp mem).1

section Classified

variable (triple : Triple) (call : CallShape) (args : List ArgShape) (answer : Classification)

theorem classify_sound (done : (ofTriple triple).classify call args = .ok answer) :
    answer.Sound triple.pointerSize (bank triple) (bottom triple) args := by
  rw [classify_eq] at done
  obtain ⟨inBank, atBottom⟩ := placer_start triple call
  have sound := (placer_conforms triple call).sound done
  rw [atBottom] at sound
  exact ⟨sound.regs.trans inBank, sound.stack, sound.covers⟩

theorem classify_take (count : Nat) (done : (ofTriple triple).classify call args = .ok answer) :
    ∃ stackSize, (ofTriple triple).classify call (args.take count)
      = .ok { placements := answer.placements.take count, stackSize } := by
  rw [classify_eq] at done ⊢
  exact (placer_conforms triple call).take count done

theorem classify_refused {refusal : Refusal}
    (done : (ofTriple triple).classify call args = .error (.refusal refusal)) :
    ∃ arg ∈ args, arg.size triple.pointerSize = .error (.refusal refusal) := by
  rw [classify_eq] at done
  rcases ((placer_conforms triple call).classify_outcome args).2 _ done with tooLarge | ⟨arg, first, same⟩
  · cases tooLarge
  · exact ⟨arg, mem_of_find?_eq_some first,
      same ▸ arg.size_unsized triple.pointerSize (find?_some first)⟩

end Classified

end Target

-- Only the first argument without a size is refused, and no step comes to any other refusal. No cursor passes
-- the end of its registers: those left can be counted and taken, and no step fails in doing so.
theorem unsized_arguments_refused (triple : Triple) (call : CallShape) (args : List ArgShape)
    (fits : (Target.ofTriple triple).classify call args ≠ .error (.fault .wordOverflow)) :
    ((∃ stop, (Target.ofTriple triple).classify call args = .error stop) ↔ ∃ arg ∈ args, arg.isUnsized = true)
      ∧ (∀ arg, args.find? ArgShape.isUnsized = some arg →
        (Target.ofTriple triple).classify call args = .error (.refusal (.unplaceable arg.complaint)))
      ∧ ∀ front placements state, placeAll (Target.placer triple call).place (Target.placer triple call).start front
          = .ok (placements, state) → (Target.placer triple call).Left state
        ∧ (∀ seq ∈ (Target.placer triple call).sequences state, seq.next ≤ seq.regs.length
          ∧ seq.remaining = .ok (seq.regs.length - seq.next) ∧ ∀ count, ∃ taken, seq.take count = .ok taken)
        ∧ ∀ arg stop, (Target.placer triple call).place state arg = .error stop →
          stop = .fault .wordOverflow
            ∨ arg.isUnsized = true ∧ stop = .refusal (.unplaceable arg.complaint) := by
  have conforms := Target.placer_conforms triple call
  rw [Target.classify_eq] at fits ⊢
  obtain ⟨succeeds, fails⟩ := conforms.classify_outcome args
  refine ⟨⟨?_, fun some_ => ?_⟩, fun arg first => ?_, fun front placements state placed => ?_⟩
  · rintro ⟨stop, failed⟩
    obtain ⟨arg, first, _⟩ := (fails stop failed).resolve_left fun same => fits (same ▸ failed)
    exact ⟨arg, mem_of_find?_eq_some first, find?_some first⟩
  · cases done : (Target.placer triple call).classify args with
    | error stop => exact ⟨stop, rfl⟩
    | ok answer =>
      obtain ⟨arg, mem, isUnsized⟩ := some_
      exact absurd isUnsized (find?_eq_none.mp (succeeds answer done) arg mem)
  · cases done : (Target.placer triple call).classify args with
    | ok answer => cases (succeeds answer done).symm.trans first
    | error stop =>
      obtain ⟨other, same, rfl⟩ := (fails stop done).resolve_left fun same => fits (same ▸ done)
      cases first.symm.trans same
      rfl
  · have left := (conforms.placeAll placed).2.2.1 (Placer.left_start _)
    refine ⟨left, fun seq mem => ?_, fun arg stop failed => conforms.fails left failed⟩
    have within := conforms.within left seq mem
    refine ⟨within, (RegSequence.remaining_ok within).trans (by rw [RegSequence.free, length_drop]), fun count => ?_⟩
    obtain ⟨found, later, taken⟩ := RegSequence.take_ok within count
    exact ⟨_, taken⟩

def voidsBehindSplit : List ArgShape :=
  [{ ty := .i64 }, { ty := .struct 0, layout := some ⟨"Quad", 16, [⟨0, .i32⟩, ⟨4, .i32⟩, ⟨8, .i32⟩, ⟨12, .i32⟩]⟩ },
    { ty := .void, role := .returnBuffer }, { ty := .void }]

theorem first_void_refused :
    (Target.ofTriple ⟨.arm32, .linux⟩).classify {} voidsBehindSplit
      = .error (.refusal (.unplaceable (.voidArgument .returnBuffer))) :=
  (unsized_arguments_refused ⟨.arm32, .linux⟩ {} voidsBehindSplit (by decide +kernel)).2.1
    { ty := .void, role := .returnBuffer } (by decide +kernel)

namespace Classification

def segments (answer : Classification) : List Segment := answer.placements.flatMap Placement.segments

theorem held_eq (answer : Classification) (word : Nat) :
    answer.placements.flatMap (Placement.held word) = answer.segments.flatMap (Segment.held word) := by
  rw [segments, flatMap_assoc]
  rfl

theorem Sound.regs_apart {answer : Classification} {word bottom : Nat} {bank : List Reg}
    {args : List ArgShape} (sound : answer.Sound word bank bottom args) (distinct : bank.Nodup) :
    answer.segments.Pairwise fun first second => (first.held word).Disjoint (second.held word) := by
  obtain ⟨taken, same, inBank⟩ := sound.regs
  have nodup := same.nodup_iff.mp (inBank.nodup distinct)
  rw [answer.held_eq, nodup_flatMap] at nodup
  exact nodup.2

theorem regs_eq (answer : Classification) :
    answer.placements.flatMap Placement.regs = answer.segments.filterMap Segment.reg? := by
  simp only [segments, filterMap_flatMap]
  rfl

section Sound

variable {answer : Classification} {word bottom : Nat} {bank : List Reg} {args : List ArgShape}

theorem Sound.regs_nodup (sound : answer.Sound word bank bottom args) (distinct : bank.Nodup) :
    (answer.placements.flatMap Placement.regs).Nodup := by
  rw [answer.regs_eq, List.Nodup, pairwise_filterMap]
  refine (sound.regs_apart distinct).imp fun {first second} disjoint reg inFirst other inSecond same => ?_
  exact disjoint (first.mem_held inFirst) (same ▸ second.mem_held inSecond)

theorem Sound.regs_mem_bank (sound : answer.Sound word bank bottom args) {reg : Reg}
    (mem : reg ∈ answer.placements.flatMap Placement.regs) : reg ∈ bank := by
  rw [answer.regs_eq] at mem
  obtain ⟨segment, there, inReg⟩ := mem_filterMap.mp mem
  refine sound.regs.subset ?_
  rw [answer.held_eq]
  exact mem_flatMap.mpr ⟨segment, there, segment.mem_held inReg⟩

end Sound

end Classification

def Segment.singles (segment : Segment) : List Nat :=
  match segment.reg? with
  | some ⟨.float, first⟩ => List.range' first (segment.size / 4)
  | _ => []

theorem Segment.float_mem_held (segment : Segment) (mem : single ∈ segment.singles) :
    Reg.float single ∈ segment.held 4 := by
  cases here : segment.place with
  | stack offset => simp [singles, reg?, here] at mem
  | reg reg =>
    obtain ⟨bank, first⟩ := reg
    cases bank with
    | int => simp [singles, reg?, here] at mem
    | float =>
      simp only [singles, reg?, here, mem_range'_1] at mem
      simp only [held, here]
      exact mem_map.mpr ⟨single, mem_range'_1.mpr (by omega), rfl⟩

theorem placements_share_nothing (triple : Triple) (call : CallShape) (args : List ArgShape)
    (answer : Classification) (done : (Target.ofTriple triple).classify call args = .ok answer) :
    answer.placements.length = args.length
      ∧ (∀ count, ∃ stackSize, (Target.ofTriple triple).classify call (args.take count)
        = .ok { placements := answer.placements.take count, stackSize })
      ∧ (answer.placements.flatMap Placement.regs).Nodup
      ∧ (triple.architecture = .arm32 →
        answer.segments.Pairwise (fun first second => first.singles.Disjoint second.singles)
          ∧ ∀ segment ∈ answer.segments, ∀ single ∈ segment.singles, single < 16)
      ∧ (answer.placements.flatMap Placement.stretches).Pairwise (fun first second => first.2 ≤ second.1)
      ∧ (∀ stretch ∈ answer.placements.flatMap Placement.stretches, stretch.2 ≤ answer.stackSize
        ∧ (triple.architecture = .x64 → triple.isWindows = true → 32 ≤ stretch.1)) := by
  have sound := Target.classify_sound triple call args answer done
  have apart := sound.regs_apart (Target.bank_nodup triple)
  refine ⟨sound.covers.length_eq.symm, fun count => Target.classify_take triple call args answer count done,
    ?_, fun isArm32 => ⟨?_, ?_⟩, sound.stack.apart, fun stretch inside => ?_⟩
  · exact sound.regs_nodup (Target.bank_nodup triple)
  · rw [triple.pointerSize_arm32 isArm32] at apart
    exact apart.imp fun {first second} disjoint single inFirst inSecond =>
      disjoint (first.float_mem_held inFirst) (second.float_mem_held inSecond)
  · intro segment inside single held
    have taken := List.mem_flatMap.mpr ⟨segment, inside, segment.float_mem_held held⟩
    have inBank := sound.regs.subset
    rw [answer.held_eq, triple.pointerSize_arm32 isArm32] at inBank
    exact Target.single_bound isArm32 (inBank taken)
  · obtain ⟨above, within⟩ := sound.stack.bounds inside
    refine ⟨within, fun isX64 isWindows => ?_⟩
    simpa [Target.bottom, isX64, isWindows, WindowsX64.homeArea] using above

-- Two floats around a double, a pair of doubles, and four words of which one is left over.
def floatsAroundDouble : List ArgShape :=
  [{ ty := .f32 }, { ty := .f64 }, { ty := .f32 },
    { ty := .struct 0, layout := some ⟨"Pair", 16, [⟨0, .f64⟩, ⟨8, .f64⟩]⟩ }, { ty := .i32 },
    { ty := .struct 1, layout := some ⟨"Quad", 16, [⟨0, .i32⟩, ⟨4, .i32⟩, ⟨8, .i32⟩, ⟨12, .i32⟩]⟩ }]

theorem singles_filled_behind_double :
    ∃ answer, (Target.ofTriple ⟨.arm32, .linux⟩).classify {} floatsAroundDouble = .ok answer
      ∧ answer.segments.map Segment.singles = [[0], [2, 3], [1], [4, 5], [6, 7], [], [], [], [], []]
      ∧ (answer.placements.flatMap Placement.regs).Nodup
      ∧ answer.segments.Pairwise (fun first second => first.singles.Disjoint second.singles) := by
  obtain ⟨answer, done, singles⟩ := except_ok_of_any
    ((Target.ofTriple ⟨.arm32, .linux⟩).classify {} floatsAroundDouble)
    (fun answer => answer.segments.map Segment.singles
      == [[0], [2, 3], [1], [4, 5], [6, 7], [], [], [], [], []]) (by decide +kernel)
  obtain ⟨_, _, regs, arm, _⟩ := placements_share_nothing _ _ _ answer done
  exact ⟨answer, done, by simpa using singles, regs, (arm rfl).1⟩

theorem placements_cover_arguments (triple : Triple) (call : CallShape) (args : List ArgShape)
    (answer : Classification) (described : ∀ arg ∈ args, arg.Described)
    (done : (Target.ofTriple triple).classify call args = .ok answer) :
    List.Forall₂ (fun arg placement => Placement.Covers placement triple.pointerSize arg) args
      answer.placements := by
  have covers := (Target.classify_sound triple call args answer done).covers
  generalize answer.placements = placements at covers
  clear done
  induction covers with
  | nil => exact .nil
  | cons covered _ ih =>
    obtain ⟨here, later⟩ := List.forall_mem_cons.mp described
    exact .cons (covered here) (ih later)

-- Three floats, words with an odd end, and a struct that goes by reference.
def floatsWordsAndReference : List ArgShape :=
  [{ ty := .struct 0, layout := some ⟨"Floats", 12, [⟨0, .f32⟩, ⟨4, .f32⟩, ⟨8, .f32⟩]⟩ },
    { ty := .struct 1, layout := some ⟨"Words", 12, [⟨0, .i32⟩, ⟨4, .i32⟩, ⟨8, .i16⟩]⟩ },
    { ty := .struct 2, layout := some ⟨"Large", 24, [⟨0, .i64⟩, ⟨8, .i64⟩, ⟨16, .i64⟩]⟩ }]

theorem odd_words_and_reference_covered :
    ∃ answer, (∀ arg ∈ floatsWordsAndReference, arg.Described)
      ∧ (Target.ofTriple ⟨.arm64, .linux⟩).classify {} floatsWordsAndReference = .ok answer
      ∧ answer.segments.map (fun segment => (segment.start, segment.size))
        = [(0, 4), (4, 4), (8, 4), (0, 8), (8, 4), (0, 8)]
      ∧ List.Forall₂ (fun arg placement => Placement.Covers placement 8 arg) floatsWordsAndReference
        answer.placements := by
  have described : ∀ arg ∈ floatsWordsAndReference, arg.Described := by
    simp only [floatsWordsAndReference, List.forall_mem_cons]
    refine ⟨⟨fun _ => rfl, ?_⟩, ⟨fun _ => rfl, ?_⟩, ⟨fun _ => rfl, ?_⟩, by simp⟩
    · rintro _ ⟨⟩
      exact ⟨"Floats", [.f32, .f32, .f32], 8, by decide +kernel⟩
    · rintro _ ⟨⟩
      exact ⟨"Words", [.i32, .i32, .i16], 8, by decide +kernel⟩
    · rintro _ ⟨⟩
      exact ⟨"Large", [.i64, .i64, .i64], 8, by decide +kernel⟩
  obtain ⟨answer, done, cut⟩ := except_ok_of_any
    ((Target.ofTriple ⟨.arm64, .linux⟩).classify {} floatsWordsAndReference)
    (fun answer => answer.segments.map (fun segment => (segment.start, segment.size))
      == [(0, 4), (4, 4), (8, 4), (0, 8), (8, 4), (0, 8)]) (by decide +kernel)
  exact ⟨answer, described, done, by simpa using cut,
    placements_cover_arguments ⟨.arm64, .linux⟩ _ _ answer described done⟩

end CallLowering
