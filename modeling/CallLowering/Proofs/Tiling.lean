import CallLowering.Proofs.FinalizedPlaces
import CallLowering.Proofs.SegmentCuts

/-! The pieces of a struct tile it. -/

namespace CallLowering

open List

variable {segment second : Segment} {layout : Layout} {word start stop : Nat} {segments : List Segment}
  {piece : Piece} {triple : Triple} {answer : Classification} {args : List ArgShape} {call : CallShape}

def Following (word start stop : Nat) : List Piece → Prop
  | [] => start = stop
  | piece :: rest => piece.offset = start ∧ ∃ size, piece.ty.scalarSize word = some size ∧ 0 < size
      ∧ Following word (start + size) stop rest

theorem Adjoining.le (adjoining : Adjoining start stop segments) : start ≤ stop := by
  induction segments generalizing start with
  | nil => exact Nat.le_of_eq adjoining
  | cons segment rest ih => exact Nat.le_trans (Nat.le_add_right _ _) (ih adjoining.2)

theorem Adjoining.below (adjoining : Adjoining start stop segments) (mem : segment ∈ segments) :
    segment.start + segment.size ≤ stop := by
  induction segments generalizing start with
  | nil => cases mem
  | cons first rest ih =>
    obtain ⟨rfl, later⟩ := adjoining
    rcases mem_cons.mp mem with rfl | behind
    · exact later.le
    · exact ih later behind

theorem Layout.Cuts.tail {others : List Segment}
    (cuts : layout.Cuts word (segment :: second :: others)) : layout.Cuts word (second :: others) where
  filled := fun other mem => cuts.filled other (mem_cons_of_mem _ mem)
  floats := fun other mem => cuts.floats other (mem_cons_of_mem _ mem)
  words := fun other mem => cuts.words other (by
    rw [dropLast_cons_cons]
    exact mem_cons_of_mem _ mem)

def Piece.EndsBy (word bound : Nat) (piece : Piece) : Prop :=
  ∃ size, piece.ty.scalarSize word = some size ∧ piece.offset + size ≤ bound

theorem Piece.EndsBy.mono {bound wider : Nat} (ends : piece.EndsBy word bound)
    (wide : bound ≤ wider) : piece.EndsBy word wider := by
  obtain ⟨size, sized, within⟩ := ends
  exact ⟨size, sized, Nat.le_trans within wide⟩

namespace Following

variable {word start middle stop : Nat} {front back pieces : List Piece}

theorem append (first : Following word start middle front) (second : Following word middle stop back) :
    Following word start stop (front ++ back) := by
  induction front generalizing start with
  | nil =>
    cases first
    exact second
  | cons piece rest ih =>
    obtain ⟨here, size, sized, positive, later⟩ := first
    exact ⟨here, size, sized, positive, ih later⟩

section Following

variable (following : Following word start stop pieces)

include following

theorem above (mem : piece ∈ pieces) : start ≤ piece.offset := by
  induction pieces generalizing start with
  | nil => cases mem
  | cons first rest ih =>
    obtain ⟨rfl, size, _, _, later⟩ := following
    rcases mem_cons.mp mem with rfl | behind
    · exact Nat.le_refl _
    · exact Nat.le_trans (Nat.le_add_right _ _) (ih later behind)

theorem le : start ≤ stop := by
  induction pieces generalizing start with
  | nil => exact Nat.le_of_eq following
  | cons first rest ih =>
    obtain ⟨_, size, _, _, later⟩ := following
    exact Nat.le_trans (Nat.le_add_right _ _) (ih later)

theorem within (mem : piece ∈ pieces) : piece.EndsBy word stop := by
  induction pieces generalizing start with
  | nil => cases mem
  | cons first rest ih =>
    obtain ⟨rfl, size, sized, _, later⟩ := following
    rcases mem_cons.mp mem with rfl | behind
    · exact ⟨size, sized, later.le⟩
    · exact ih later behind

end Following

theorem before (following : Following word start stop (front ++ [piece])) :
    Following word start piece.offset front := by
  induction front generalizing start with
  | nil => exact following.1.symm
  | cons first rest ih =>
    obtain ⟨here, size, sized, positive, later⟩ := following
    exact ⟨here, size, sized, positive, ih later⟩

variable (following : Following word start stop pieces)

include following

theorem rising : pieces.Pairwise fun first second => first.offset < second.offset := by
  induction pieces generalizing start with
  | nil => exact .nil
  | cons first rest ih =>
    obtain ⟨rfl, size, _, positive, later⟩ := following
    refine .cons (fun second behind => ?_) (ih later)
    have above := later.above behind
    omega

theorem first (some_ : pieces ≠ []) : ∃ piece, pieces.head? = some piece ∧ piece.offset = start := by
  cases pieces with
  | nil => exact absurd rfl some_
  | cons piece rest => exact ⟨piece, rfl, following.1⟩

theorem distance (index : Nat) (piece next : Piece)
    (here : pieces[index]? = some piece) (there : pieces[index + 1]? = some next) :
    piece.ty.scalarSize word = some (next.offset - piece.offset) := by
  induction pieces generalizing start index with
  | nil => cases here
  | cons head rest ih =>
    obtain ⟨rfl, size, sized, _, later⟩ := following
    cases index with
    | zero =>
      cases here
      cases rest with
      | nil => cases there
      | cons second others =>
        cases there
        rw [sized, later.1, Nat.add_sub_cancel_left]
    | succ index => exact ih later index here there

theorem last (some_ : pieces ≠ []) :
    ∃ piece size, pieces.getLast? = some piece ∧ piece.ty.scalarSize word = some size
      ∧ piece.offset + size = stop := by
  induction pieces generalizing start with
  | nil => exact absurd rfl some_
  | cons head rest ih =>
    obtain ⟨rfl, size, sized, _, later⟩ := following
    cases rest with
    | nil => exact ⟨head, size, rfl, sized, later⟩
    | cons second others =>
      obtain ⟨piece, size, isLast, found⟩ := ih later (cons_ne_nil _ _)
      exact ⟨piece, size, by rwa [getLast?_cons_cons], found⟩

end Following

namespace Shape

-- How many bytes the integer for `len` bytes is longer than they are.
def overrun : Nat → Nat
  | 3 | 7 => 1
  | 5 => 3
  | 6 => 2
  | _ => 0

theorem overrun_cases {tail : Nat} (narrow : tail < 8) :
    overrun tail ≤ 3 ∧ (overrun tail = 0 ↔ tail = 0 ∨ tail = 1 ∨ tail = 2 ∨ tail = 4) := by
  revert tail
  decide

theorem overrun_multiple {n : Nat} (words : word = 4 ∨ word = 8) (multiple : n % 4 = 0) : overrun (n % word) = 0 := by
  rcases words with rfl | rfl
  · rw [multiple]
    rfl
  · exact (overrun_cases (by omega)).2.mpr (by omega)

theorem intType_size (word len : Nat) (positive : 0 < len) (narrow : len ≤ 8) :
    (intType len).scalarSize word = some (len + overrun len) := by
  obtain rfl | rfl | rfl | rfl | rfl | rfl | rfl | rfl : len = 1 ∨ len = 2 ∨ len = 3 ∨ len = 4 ∨ len = 5
      ∨ len = 6 ∨ len = 7 ∨ len = 8 := by omega
  all_goals rfl

theorem intType_not_float {len : Nat} : (intType len).isFloat = false := by
  unfold intType
  split <;> rfl

-- The integer that holds the word of a segment with the given index, as much of it as there is.
def wordPiece (word start size index : Nat) : Piece :=
  ⟨start + index * word, intType (min word (size - index * word))⟩

theorem piecesOf_words (layout : Layout) (positive : 0 < word) (filled : 0 < segment.size)
    (fits : segment.start + segment.size < Word.limit) (notFloat : segment.inFloatReg = false) :
    piecesOf layout word segment
      = .ok ((List.range (chunkCount segment.size word)).map (wordPiece word segment.start segment.size)) := by
  have covers := chunkCount_covers segment.size positive
  have some_ : chunkCount segment.size word ≠ 0 := by
    intro zero
    rw [zero, Nat.zero_mul] at covers
    omega
  have starts := chunk_starts segment.size (chunkCount segment.size word - 1) positive (by omega)
  simp only [piecesOf, notFloat, Bool.false_eq_true, if_false, Nat.ne_of_gt positive, Word.add, Word.check]
  rw [if_pos (by omega)]
  refine mapM_except_ok_iff.mpr ?_
  rw [chunks, List.forall₂_map_left_iff, List.forall₂_map_right_iff]
  exact List.forall₂_same.mpr fun index _ => rfl

theorem piecesOf_float (word : Nat) (isFloat : segment.inFloatReg = true)
    (sized : segment.size = 4 ∨ segment.size = 8)
    (range : layout.isFloatRange segment.start segment.size = .ok true) :
    piecesOf layout word segment = .ok [⟨segment.start, if segment.size = 4 then .f32 else .f64⟩] := by
  have fits := (Layout.isFloatRange_ok_iff.mp range).1
  have positive : 0 < segment.size := by omega
  have one : chunks segment.size segment.size = [⟨0, segment.size⟩] := by
    have whole := chunks_mul 1 positive
    rwa [Nat.one_mul, range_one, map_singleton, Nat.zero_mul] at whole
  have count : chunkCount segment.size segment.size = 1 := by
    rw [← length_chunks, one]
    rfl
  simp only [piecesOf, isFloat, if_true, Nat.ne_of_gt positive, if_false, Word.add, Word.check, count, one]
  rw [if_pos (by omega)]
  refine mapM_except_ok_iff.mpr (.cons ?_ .nil)
  rw [Nat.add_zero, range]
  rfl

-- All words but the last one are full, so each piece ends where the next one begins.
theorem words_following (word start size index count : Nat) (words : word = 4 ∨ word = 8)
    (bound : index + (count + 1) = chunkCount size word) :
    Following word (start + index * word) (start + size + overrun (size % word))
      ((List.range' index (count + 1)).map (wordPiece word start size)) := by
  have positive : 0 < word := by omega
  have full : overrun word = 0 := by rcases words with rfl | rfl <;> rfl
  induction count generalizing index with
  | zero =>
    have starts := chunk_starts size index positive (by omega)
    have covers := chunkCount_covers size positive
    rw [← bound, Nat.zero_add, Nat.succ_mul] at covers
    have sized := intType_size word (min word (size - index * word)) (by omega) (by omega)
    refine ⟨rfl, _, sized, by omega, ?_⟩
    -- The last word is full, or it is the tail.
    have tail : size - index * word = word ∧ size % word = 0 ∨ min word (size - index * word) = size % word := by
      rcases words with rfl | rfl <;> omega
    rcases tail with ⟨whole, multiple⟩ | same
    · change start + index * word + _ = start + size + overrun (size % word)
      rw [whole, Nat.min_self, full, multiple]
      simp only [overrun]
      omega
    · change start + index * word + _ = start + size + overrun (size % word)
      rw [← same]
      omega
  | succ count ih =>
    have more := chunk_starts size (index + 1) positive (by omega)
    rw [Nat.succ_mul] at more
    have sized := intType_size word (min word (size - index * word)) (by omega) (by omega)
    have isWord : min word (size - index * word) = word := by omega
    rw [isWord, full] at sized
    refine ⟨rfl, word, ?_, positive, ?_⟩
    · simp only [wordPiece, isWord]
      exact sized
    · rw [Nat.add_assoc, ← Nat.succ_mul]
      exact ih (index + 1) (by omega)

end Shape

def Segment.Holds (segment : Segment) (byte : Nat) : Prop :=
  segment.start ≤ byte ∧ byte < segment.start + segment.size

structure Segment.ReadBy (segment : Segment) (word : Nat) (pieces : List Piece) : Prop where
  begins : ∃ piece ∈ pieces, piece.offset = segment.start
  within : ∀ piece ∈ pieces, segment.Holds piece.offset
  kind : ∀ piece ∈ pieces, piece.ty.isFloat = segment.inFloatReg
  whole : ∀ piece ∈ pieces, segment.inFloatReg = true → piece.ty.scalarSize word = some segment.size

-- One segment is read from its first byte to its last, and as far beyond as the integer for its tail goes.
structure Segment.Read (segment : Segment) (word : Nat) (pieces : List Piece) : Prop where
  readBy : segment.ReadBy word pieces
  following : Following word segment.start (segment.start + segment.size
    + if segment.inFloatReg then 0 else Shape.overrun (segment.size % word)) pieces

namespace Shape

theorem float_read (word : Nat) (isFloat : segment.inFloatReg = true) (sized : segment.size = 4 ∨ segment.size = 8)
    (range : layout.isFloatRange segment.start segment.size = .ok true) :
    ∃ pieces, piecesOf layout word segment = .ok pieces ∧ segment.Read word pieces := by
  have one := piecesOf_float word isFloat sized range
  generalize typed : (if segment.size = 4 then ValueType.f32 else .f64) = ty at one
  have scalar : ty.isFloat = true ∧ ty.scalarSize word = some segment.size := by
    rw [← typed]
    rcases sized with same | same <;> rw [same] <;> exact ⟨rfl, rfl⟩
  refine ⟨_, one, ⟨⟨_, mem_singleton_self _, rfl⟩, ?_, ?_, ?_⟩,
    ⟨rfl, _, scalar.2, by omega, by rw [isFloat]; rfl⟩⟩ <;> simp only [forall_mem_singleton]
  · exact ⟨Nat.le_refl _, by omega⟩
  · rw [scalar.1, isFloat]
  · exact fun _ => scalar.2

theorem words_read (layout : Layout) (words : word = 4 ∨ word = 8) (filled : 0 < segment.size)
    (fits : segment.start + segment.size < Word.limit) (notFloat : segment.inFloatReg = false) :
    ∃ pieces, piecesOf layout word segment = .ok pieces ∧ segment.Read word pieces := by
  have positive : 0 < word := by omega
  have cut := piecesOf_words layout positive filled fits notFloat
  have covers := chunkCount_covers segment.size positive
  obtain ⟨count, counted⟩ : ∃ count, chunkCount segment.size word = count + 1 := by
    refine Nat.exists_eq_succ_of_ne_zero fun zero => ?_
    rw [zero, Nat.zero_mul] at covers
    omega
  have following := words_following word segment.start segment.size 0 count words
    (by rw [counted, Nat.zero_add])
  rw [Nat.zero_mul, Nat.add_zero, ← counted, ← range_eq_range'] at following
  refine ⟨_, cut, ⟨?_, ?_, ?_, ?_⟩, by simpa [notFloat] using following⟩
  · exact ⟨_, mem_map_of_mem (mem_range.mpr (by omega : 0 < chunkCount segment.size word)),
      by rw [wordPiece, Nat.zero_mul, Nat.add_zero]⟩
  · rw [forall_mem_map]
    intro index mem
    have starts := chunk_starts segment.size index positive (mem_range.mp mem)
    exact ⟨Nat.le_add_right _ _, by simp only [wordPiece]; omega⟩
  · rw [forall_mem_map]
    exact fun index _ => (intType_not_float).trans notFloat.symm
  · intro _ _ isFloat
    rw [notFloat] at isFloat
    cases isFloat

theorem segment_read (words : word = 4 ∨ word = 8) (filled : 0 < segment.size)
    (fits : segment.start + segment.size < Word.limit)
    (floats : segment.inFloatReg = true → (segment.size = 4 ∨ segment.size = 8)
      ∧ layout.isFloatRange segment.start segment.size = .ok true) :
    ∃ pieces, piecesOf layout word segment = .ok pieces ∧ segment.Read word pieces := by
  cases isFloat : segment.inFloatReg with
  | true =>
    obtain ⟨sized, range⟩ := floats isFloat
    exact float_read word isFloat sized range
  | false => exact words_read layout words filled fits isFloat

theorem segments_read (words : word = 4 ∨ word = 8) (fits : stop < Word.limit)
    (adjoining : Adjoining start stop segments) (cuts : layout.Cuts word segments)
    (floatsEnd : ∀ segment ∈ segments, segment.inFloatReg = true → stop % 4 = 0)
    (begins : start % word = 0 ∨ start % 4 = 0 ∧ stop % 4 = 0) (some_ : segments ≠ []) :
    ∃ parts, segments.mapM (piecesOf layout word) = .ok parts
      ∧ List.Forall₂ (fun segment pieces => segment.ReadBy word pieces) segments parts
      ∧ Following word start (stop + overrun (stop % word)) parts.flatten := by
  induction segments generalizing start with
  | nil => exact absurd rfl some_
  | cons segment rest ih =>
    obtain ⟨rfl, later⟩ := adjoining
    have within := later.le
    have floats := cuts.floats segment mem_cons_self
    have ends := floatsEnd segment mem_cons_self
    obtain ⟨pieces, cut, read⟩ := segment_read words (cuts.filled segment mem_cons_self) (by omega) floats
    have following := read.following
    simp only [mapM_cons, except_bind_ok_iff]
    cases rest with
    | nil =>
      refine ⟨[pieces], ⟨pieces, cut, [], rfl, rfl⟩, .cons read.readBy .nil, ?_⟩
      have beyond : (if segment.inFloatReg then 0 else overrun (segment.size % word)) = overrun (stop % word) := by
        cases isFloat : segment.inFloatReg with
        | true => exact (overrun_multiple words (ends isFloat)).symm
        | false =>
          have adds : segment.start + segment.size = stop := later
          rcases begins with atWord | ⟨atFour, endsAtFour⟩
          · simp only [← adds, Nat.add_mod segment.start, atWord, Nat.zero_add, Nat.mod_mod, Bool.false_eq_true,
              if_false]
          · exact (overrun_multiple words (by omega)).trans (overrun_multiple words endsAtFour).symm
      rw [flatten_singleton, ← beyond, ← (later : _ = stop)]
      exact following
    | cons second others =>
      have whole := cuts.words segment (by rw [dropLast_cons_cons]; exact mem_cons_self)
      have nextBegins : (segment.start + segment.size) % word = 0
          ∨ (segment.start + segment.size) % 4 = 0 ∧ stop % 4 = 0 := by
        rcases whole with isFloat | isWord
        · have wide := (floats isFloat).1
          have endsAtFour := ends isFloat
          rcases words with rfl | rfl <;> omega
        · rcases words with rfl | rfl <;> omega
      obtain ⟨parts, cutLater, readLater, followingLater⟩ := ih later cuts.tail
        (fun other mem => floatsEnd other (mem_cons_of_mem _ mem)) nextBegins (cons_ne_nil _ _)
      have beyond : (if segment.inFloatReg then 0 else overrun (segment.size % word)) = 0 := by
        rcases whole with isFloat | isWord
        · rw [isFloat]
          rfl
        · rw [isWord, Nat.mod_self]
          split <;> rfl
      rw [beyond] at following
      refine ⟨pieces :: parts, ⟨pieces, cut, parts, cutLater, rfl⟩, .cons read.readBy readLater, ?_⟩
      rw [flatten_cons]
      exact following.append followingLater

end Shape

theorem Triple.pointerSize_cases (triple : Triple) : triple.pointerSize = 4 ∨ triple.pointerSize = 8 := by
  obtain ⟨architecture, os⟩ := triple
  cases architecture <;> simp [Triple.pointerSize, Architecture.pointerSize]

theorem Adjoining.holds_unique (adjoining : Adjoining start stop segments) {byte : Nat} {first : Segment}
    (inFirst : first ∈ segments) (inSecond : second ∈ segments) (holdsFirst : first.Holds byte)
    (holdsSecond : second.Holds byte) : first = second := by
  induction segments generalizing start with
  | nil => cases inFirst
  | cons segment rest ih =>
    obtain ⟨rfl, later⟩ := adjoining
    unfold Segment.Holds at holdsFirst holdsSecond
    rcases mem_cons.mp inFirst with rfl | behindFirst
    · rcases mem_cons.mp inSecond with rfl | behindSecond
      · rfl
      · have above := later.above behindSecond
        omega
    · rcases mem_cons.mp inSecond with rfl | behindSecond
      · have above := later.above behindFirst
        omega
      · exact ih later behindFirst behindSecond

section Parts

variable {word : Nat} {segments : List Segment} {parts : List (List Piece)}
  (read : List.Forall₂ (fun segment pieces => segment.ReadBy word pieces) segments parts)

include read

theorem ReadBy.piece_at_start (segment : Segment) (mem : segment ∈ segments) :
    ∃ piece ∈ parts.flatten, piece.offset = segment.start := by
  obtain ⟨part, isPart, readBy⟩ := forall₂_partner read mem
  obtain ⟨piece, inPart, starts⟩ := readBy.begins
  exact ⟨piece, mem_flatten.mpr ⟨part, isPart, inPart⟩, starts⟩

theorem ReadBy.segment_of (mem : piece ∈ parts.flatten) :
    ∃ segment ∈ segments, segment.Holds piece.offset ∧ piece.ty.isFloat = segment.inFloatReg
      ∧ (segment.inFloatReg = true → piece.ty.scalarSize word = some segment.size) := by
  obtain ⟨part, isPart, inPart⟩ := mem_flatten.mp mem
  obtain ⟨segment, isSegment, readBy⟩ := forall₂_partner read.flip isPart
  exact ⟨segment, isSegment, readBy.within piece inPart, readBy.kind piece inPart,
    readBy.whole piece inPart⟩

end Parts

theorem Target.classify_pieces {index : Nat} {arg : ArgShape} {placement : Placement}
    (declared : layout.Declared) (done : (Target.ofTriple triple).classify call args = .ok answer)
    (here : args[index]? = some arg) (isStruct : arg.ty.isStruct = true) (hasLayout : arg.layout = some layout)
    (placed : answer.placements[index]? = some placement) (multi : placement.isMulti = true)
    (byValue : placement.byRef = false) :
    ∃ parts, Shape.pieces placement layout triple.pointerSize = .ok parts.flatten
      ∧ List.Forall₂ (fun segment pieces => segment.ReadBy triple.pointerSize pieces) placement.segments parts
      ∧ Following triple.pointerSize 0 (layout.size + Shape.overrun (layout.size % triple.pointerSize)) parts.flatten
      ∧ Adjoining 0 layout.size placement.segments ∧ parts.flatten ≠ [] := by
  have described : arg.Described := by
    refine ⟨fun _ => isStruct, fun other same => ?_⟩
    cases hasLayout.symm.trans same
    exact declared.natural
  have covers := forall₂_at (Target.classify_sound triple call args answer done).covers
    here placed described
  obtain ⟨size, sized, adjoining⟩ := covers.whole byValue
  cases arg.size_struct isStruct hasLayout sized
  have cuts := forall₂_at (Target.classify_cuts done) here placed layout hasLayout isStruct declared multi
  have several : 1 < placement.segments.length := by simpa [Placement.isMulti] using multi
  have floatsEnd : ∀ segment ∈ placement.segments, segment.inFloatReg = true → layout.size % 4 = 0 := by
    intro segment mem isFloat
    obtain ⟨_, ⟨field, isField, above, below⟩, floats⟩ :=
      Layout.isFloatRange_ok_iff.mp (cuts.floats segment mem isFloat).2
    exact declared.float_size isField (floats field isField above below)
  obtain ⟨parts, cut, read, following⟩ := Shape.segments_read triple.pointerSize_cases declared.natural.size_lt
    adjoining cuts floatsEnd
    (.inl (Nat.zero_mod _)) (ne_nil_of_length_pos (by omega))
  obtain ⟨piece, mem, _⟩ := ReadBy.piece_at_start read placement.segments[0] (getElem_mem _)
  refine ⟨parts, ?_, read, following, adjoining, ne_nil_of_mem mem⟩
  rw [Shape.pieces, Placement.byStart_adjoining adjoining, cut]
  rfl

-- A finalized list. Handing out the places that the target answers with changes nothing.
structure ArgList.Classified (settings : Settings) (list : ArgList) : Prop where
  finalized : list.stage.isFinalized = true
  placed : ∃ call shapes answer,
    (AbiInfo.byConvention settings.target list.args).mapM (AbiInfo.argShape settings.types) = .ok shapes
      ∧ settings.target.classify call shapes = .ok answer
      ∧ AbiInfo.assign settings.target list.args answer.placements = some list.args

namespace AbiInfo

variable {settings : Settings}

theorem assign_again (types : TypeTable) {target : Target} {args out : List Argument} {placements : List Placement}
    (done : assign target args placements = some out) : assign target out placements = some out
      ∧ (byConvention target out).mapM (argShape types) = (byConvention target args).mapM (argShape types) := by
  induction args generalizing placements out with
  | nil =>
    cases done
    exact ⟨rfl, rfl⟩
  | cons arg rest ih =>
    cases isOwn : target.customReg arg.role with
    | some reg =>
      simp only [assign, isOwn] at done
      obtain ⟨later, found, rfl⟩ := Option.map_eq_some_iff.mp done
      obtain ⟨again, shapes⟩ := ih found
      refine ⟨by simp only [assign, isOwn, again, Option.map_some], ?_⟩
      rwa [byConvention, byConvention, filter_cons_of_neg (by simp [isOwn]), filter_cons_of_neg (by simp [isOwn])]
    | none =>
      cases placements with
      | nil => simp only [assign, isOwn, reduceCtorEq] at done
      | cons placement others =>
        simp only [assign, isOwn] at done
        obtain ⟨later, found, rfl⟩ := Option.map_eq_some_iff.mp done
        obtain ⟨again, shapes⟩ := ih found
        refine ⟨by simp only [assign, isOwn, again, Option.map_some], ?_⟩
        rw [byConvention, byConvention, filter_cons_of_pos (by simp [isOwn]), filter_cons_of_pos (by simp [isOwn]),
          mapM_cons, mapM_cons, ← byConvention, ← byConvention, shapes]
        rfl

theorem finalize_classified {p q : Procedure} {id : CallId} {data : Call} (here : p.calls[id]? = some data)
    (fresh : data.args.stage.isFinalized = false) (done : finalize settings id p = .ok () q) :
    ∃ after, q.calls[id]? = some after ∧ after.args.Classified settings := by
  obtain ⟨same, atSame, ⟨finalized, _⟩ | ⟨_, m, _, _, placing⟩⟩ := finalize_ok done
  · cases here.symm.trans atSame
    cases fresh.symm.trans finalized
  · obtain ⟨placed⟩ := placeArgs_ok placing
    obtain ⟨again, shapes⟩ := assign_again settings.types placed.assigned
    exact ⟨_, placed.last ▸ Procedure.setCall_here m _ placed.here, rfl, callShape placed.data, placed.shapes,
      placed.answer, shapes.trans placed.shaped, placed.classified, again⟩

end AbiInfo

-- A struct spread over these places comes in at least one piece.
def Placement.Divides (placement : Placement) (layout : Layout) (word : Nat) : Prop :=
  placement.isMulti = true → placement.byRef = false → ∀ pieces,
    Shape.pieces placement layout word = .ok pieces → pieces ≠ []

theorem Target.classify_divides (done : (Target.ofTriple triple).classify call args = .ok answer) :
    List.Forall₂ (fun arg placement => ∀ layout, layout.Declared → arg.layout = some layout → arg.ty.isStruct = true →
      placement.Divides layout triple.pointerSize) args answer.placements := by
  have sameLength := (Target.classify_sound triple call args answer done).covers.length_eq
  refine List.forall₂_iff_get.mpr ⟨sameLength, ?_⟩
  intro index inArgs inPlaces layout declared hasLayout isStruct multi byValue pieces cut
  obtain ⟨parts, same, _, _, _, some_⟩ := Target.classify_pieces declared done
    (getElem?_eq_getElem inArgs) isStruct hasLayout (getElem?_eq_getElem inPlaces) multi byValue
  cases same.symm.trans cut
  exact some_

theorem ArgList.Classified.divides {settings : Settings} {list : ArgList} {arg : Argument}
    (classified : list.Classified settings) (shipped : settings.target = Target.ofTriple triple)
    (declared : ∀ layout ∈ settings.types.layouts, layout.Declared) (mem : arg ∈ list.args)
    (known : settings.types.layoutOf arg.ty = .ok (some layout)) :
    arg.placement.Divides layout settings.pointerSize := by
  obtain ⟨call, shapes, answer, shaped, classified, assigned⟩ := classified.placed
  have word : settings.pointerSize = triple.pointerSize := by
    rw [Settings.pointerSize, shipped, Target.pointerSize_ofTriple]
  have each : List.Forall₂ (fun before placement => settings.types.layoutOf before.ty = .ok (some layout) →
      Placement.Divides placement layout settings.pointerSize)
      (AbiInfo.byConvention settings.target list.args) answer.placements := by
    refine forall₂_through (mapM_except_ok_iff.mp shaped) (Target.classify_divides (shipped ▸ classified)) ?_
    intro before _ shape placement isShape divides known
    obtain ⟨sameTy, _, found⟩ := AbiInfo.argShape_ok isShape
    obtain ⟨isStruct, isLayout⟩ := settings.types.layoutOf_some known
    exact word ▸ divides layout (declared layout isLayout) (Except.ok.inj (found.symm.trans known)) (sameTy ▸ isStruct)
  -- A register of its own is one place, so that nothing is spread there.
  obtain ⟨before, _, same, divides⟩ := AbiInfo.assign_fits settings.target
    (fun _ _ _ _ _ multi => by cases multi) each assigned arg mem
  rw [same] at known
  exact divides known

theorem pieces_tile_struct (triple : Triple) (call : CallShape) (args : List ArgShape)
    (answer : Classification) (index : Nat) (arg : ArgShape) (placement : Placement) (name : String)
    (types : List ValueType) (pointerSize : Nat) (layout : Layout)
    (pointers : pointerSize = 4 ∨ pointerSize = 8)
    (made : Layout.ofFields name types pointerSize = .ok layout)
    (done : (Target.ofTriple triple).classify call args = .ok answer) (here : args[index]? = some arg)
    (isStruct : arg.ty.isStruct = true) (hasLayout : arg.layout = some layout)
    (placed : answer.placements[index]? = some placement) (multi : placement.isMulti = true)
    (byValue : placement.byRef = false) :
    ∃ pieces, Shape.pieces placement layout triple.pointerSize = .ok pieces
      ∧ pieces.Pairwise (fun first second => first.offset < second.offset)
      ∧ pieces.head?.map Piece.offset = some 0
      ∧ (∀ position piece next, pieces[position]? = some piece → pieces[position + 1]? = some next →
        piece.ty.scalarSize triple.pointerSize = some (next.offset - piece.offset))
      ∧ (∃ piece size, pieces.getLast? = some piece
        ∧ piece.ty.scalarSize triple.pointerSize = some size ∧ layout.size ≤ piece.offset + size)
      ∧ (∀ segment ∈ placement.segments, ∃ piece ∈ pieces, piece.offset = segment.start)
      ∧ ∀ piece ∈ pieces, (∃ segment ∈ placement.segments, segment.Holds piece.offset)
        ∧ ∀ segment ∈ placement.segments, segment.Holds piece.offset →
          (piece.ty.isFloat = true ↔ segment.inFloatReg = true)
            ∧ (piece.ty.isFloat = true → piece.ty.scalarSize triple.pointerSize = some segment.size) := by
  have declared : layout.Declared := ⟨name, types, pointerSize, pointers, made⟩
  obtain ⟨parts, cut, read, following, adjoining, some_⟩ := Target.classify_pieces declared done here
    isStruct hasLayout placed multi byValue
  refine ⟨parts.flatten, cut, following.rising, ?_, following.distance, ?_,
    ReadBy.piece_at_start read, fun piece inside => ?_⟩
  · obtain ⟨piece, isFirst, starts⟩ := following.first some_
    rw [isFirst, Option.map_some, starts]
  · obtain ⟨piece, size, isLast, sized, stops⟩ := following.last some_
    exact ⟨piece, size, isLast, sized, by omega⟩
  · obtain ⟨segment, isSegment, holds, kind, whole⟩ := ReadBy.segment_of read inside
    refine ⟨⟨segment, isSegment, holds⟩, fun other isOther holdsToo => ?_⟩
    cases adjoining.holds_unique isSegment isOther holds holdsToo
    rw [kind]
    exact ⟨Iff.rfl, whole⟩

-- Two floats in one eightbyte, and a short one behind them, after a number.
def floatsAndShort : Layout := ⟨"FloatsAndShort", 12, [⟨0, .f32⟩, ⟨4, .f32⟩, ⟨8, .i16⟩]⟩

def afterNumber : List ArgShape := [{ ty := .i32 }, { ty := .struct 0, layout := some floatsAndShort }]

def acrossBanks : Placement := { segments := [⟨.reg (.float 0), 0, 8⟩, ⟨.reg (.int 6), 8, 4⟩] }

theorem floats_and_short_tiled :
    ∃ answer pieces, (Target.ofTriple ⟨.x64, .linux⟩).classify {} afterNumber = .ok answer
      ∧ answer.placements[1]? = some acrossBanks
      ∧ Shape.pieces acrossBanks floatsAndShort 8 = .ok pieces
      ∧ pieces.Pairwise (fun first second => first.offset < second.offset)
      ∧ ∃ piece size, pieces.getLast? = some piece ∧ piece.ty.scalarSize 8 = some size
        ∧ 12 ≤ piece.offset + size := by
  obtain ⟨answer, done, placed⟩ := except_ok_of_any
    ((Target.ofTriple ⟨.x64, .linux⟩).classify {} afterNumber)
    (fun answer => answer.placements[1]? == some acrossBanks) (by decide +kernel)
  have placed : answer.placements[1]? = some acrossBanks := by simpa using placed
  obtain ⟨pieces, cut, rising, _, _, reaches, _⟩ := pieces_tile_struct ⟨.x64, .linux⟩ {} afterNumber answer 1
    _ acrossBanks "FloatsAndShort" [.f32, .f32, .i16] 8 floatsAndShort (.inr rfl) (by decide +kernel) done
    rfl rfl rfl placed rfl rfl
  exact ⟨answer, pieces, done, placed, cut, rising, reaches⟩

-- All pieces but the last lie within the struct. The last one ends where the integer for the tail ends: a
-- tail of three, five, six or seven bytes is read with bytes that lie behind the struct.
theorem pieces_end_with_tail_integer (triple : Triple) (call : CallShape) (args : List ArgShape)
    (answer : Classification) (index : Nat) (arg : ArgShape) (placement : Placement) (layout : Layout)
    (declared : layout.Declared)
    (done : (Target.ofTriple triple).classify call args = .ok answer) (here : args[index]? = some arg)
    (isStruct : arg.ty.isStruct = true) (hasLayout : arg.layout = some layout)
    (placed : answer.placements[index]? = some placement) (multi : placement.isMulti = true)
    (byValue : placement.byRef = false) :
    ∃ pieces last size, Shape.pieces placement layout triple.pointerSize = .ok pieces
      ∧ (∀ piece ∈ pieces.dropLast, piece.EndsBy triple.pointerSize layout.size)
      ∧ pieces.getLast? = some last ∧ last.ty.scalarSize triple.pointerSize = some size
      ∧ last.offset < layout.size
      ∧ last.offset + size = layout.size + Shape.overrun (layout.size % triple.pointerSize)
      ∧ last.offset + size ≤ layout.size + 3
      ∧ ((∀ piece ∈ pieces, piece.EndsBy triple.pointerSize layout.size)
        ↔ layout.size % triple.pointerSize = 0 ∨ layout.size % triple.pointerSize = 1
          ∨ layout.size % triple.pointerSize = 2 ∨ layout.size % triple.pointerSize = 4) := by
  obtain ⟨parts, cut, read, following, adjoining, some_⟩ := Target.classify_pieces declared done here
    isStruct hasLayout placed multi byValue
  have words := triple.pointerSize_cases
  have short := Nat.mod_lt layout.size (by omega : 0 < triple.pointerSize)
  obtain ⟨bounded, exact_⟩ := Shape.overrun_cases (Nat.lt_of_lt_of_le short (by omega))
  obtain ⟨last, size, isLast, sized, stops⟩ := following.last some_
  have isInside := List.mem_of_getLast? isLast
  have starts : last.offset < layout.size := by
    obtain ⟨segment, isSegment, holds, _⟩ := ReadBy.segment_of read isInside
    exact Nat.lt_of_lt_of_le holds.2 (adjoining.below isSegment)
  have split : parts.flatten = parts.flatten.dropLast ++ [last] := by
    rw [List.dropLast_append_getLast? _ isLast]
  rw [split] at following
  refine ⟨parts.flatten, last, size, cut, fun piece inside => ?_, isLast, sized, starts, stops, by omega, ?_⟩
  · exact (following.before.within inside).mono (Nat.le_of_lt starts)
  · rw [← exact_]
    refine ⟨fun all => ?_, fun none_ piece inside => ?_⟩
    · obtain ⟨same, sizedToo, within⟩ := all last isInside
      cases sized.symm.trans sizedToo
      omega
    · exact (following.within (split ▸ inside)).mono (by omega)

def bytesLayout (count : Nat) : Layout :=
  ⟨"Bytes", count, (List.range count).map fun offset => ⟨offset, .i8⟩⟩

def wordAndTail (first second : Reg) (tail : Nat) : Placement :=
  { segments := [⟨.reg first, 0, 8⟩, ⟨.reg second, 8, tail⟩] }

theorem five_byte_tail_reaches_sixteen :
    ∃ answer pieces, (bytesLayout 13).Declared
      ∧ (Target.ofTriple ⟨.arm64, .linux⟩).classify {} [{ ty := .struct 0, layout := some (bytesLayout 13) }]
        = .ok answer
      ∧ answer.placements[0]? = some (wordAndTail (.int 0) (.int 1) 5)
      ∧ Shape.pieces (wordAndTail (.int 0) (.int 1) 5) (bytesLayout 13) 8 = .ok pieces
      ∧ (∀ piece ∈ pieces.dropLast, piece.EndsBy 8 13)
      ∧ ∃ last size, pieces.getLast? = some last ∧ last.ty.scalarSize 8 = some size ∧ last.offset + size = 16 := by
  obtain ⟨answer, done, placed⟩ := except_ok_of_any
    ((Target.ofTriple ⟨.arm64, .linux⟩).classify {} [{ ty := .struct 0, layout := some (bytesLayout 13) }])
    (fun answer => answer.placements[0]? == some (wordAndTail (.int 0) (.int 1) 5)) (by decide +kernel)
  have placed : answer.placements[0]? = some (wordAndTail (.int 0) (.int 1) 5) := by simpa using placed
  have declared : (bytesLayout 13).Declared :=
    ⟨"Bytes", List.replicate 13 .i8, 8, .inr rfl, by decide +kernel⟩
  obtain ⟨pieces, last, size, cut, within, isLast, sized, _, reaches, _⟩ := pieces_end_with_tail_integer
    ⟨.arm64, .linux⟩ {} _ answer 0 _ _ _ declared done rfl rfl rfl placed rfl rfl
  exact ⟨answer, pieces, declared, done, placed, cut, within, last, size, isLast, sized, reaches⟩

theorem three_byte_tail_overruns :
    ∃ answer pieces, (bytesLayout 11).Declared
      ∧ (Target.ofTriple ⟨.x64, .linux⟩).classify {} [{ ty := .struct 0, layout := some (bytesLayout 11) }]
        = .ok answer
      ∧ answer.placements[0]? = some (wordAndTail (.int 7) (.int 6) 3)
      ∧ Shape.pieces (wordAndTail (.int 7) (.int 6) 3) (bytesLayout 11) 8 = .ok pieces
      ∧ ∃ piece ∈ pieces, ¬ piece.EndsBy 8 (bytesLayout 11).size := by
  obtain ⟨answer, done, placed⟩ := except_ok_of_any
    ((Target.ofTriple ⟨.x64, .linux⟩).classify {} [{ ty := .struct 0, layout := some (bytesLayout 11) }])
    (fun answer => answer.placements[0]? == some (wordAndTail (.int 7) (.int 6) 3)) (by decide +kernel)
  refine ⟨answer, [⟨0, .i64⟩, ⟨8, .i32⟩], ⟨"Bytes", List.replicate 11 .i8, 8, .inr rfl, by decide +kernel⟩, done,
    by simpa using placed, by decide +kernel, ⟨8, .i32⟩, by decide, ?_⟩
  rintro ⟨size, sized, within⟩
  cases sized
  exact absurd within (by decide)

end CallLowering
