import CallLowering.Proofs.RegSequences
import CallLowering.Proofs.SpecifiedOrder

/-!
The sorter fills its buffer. What stands at the head, what stands at the tail and what is left to place tell
every cursor and counter, so that no step leaves the buffer and the cursors meet when nothing is left.
-/

namespace CallLowering

open List

variable {cost : CostModel} {proc : Procedure} {list : ArgList} {index : Nat}
  {ε α : Type} {run : Except ε α} {well : α → Prop} {ill : ε → Prop}

-- What comes of a computation, whether it succeeds or fails.
def Yields (run : Except ε α) (well : α → Prop) (ill : ε → Prop) : Prop :=
  match run with
  | .ok a => well a
  | .error e => ill e

theorem Yields.bind {β : Type} {next : α → Except ε β} {good : β → Prop} (first : Yields run well ill)
    (then_ : ∀ a, well a → Yields (next a) good ill) : Yields (run >>= next) good ill := by
  cases run with
  | ok a => exact then_ a first
  | error e => exact first

theorem Yields.mono {bad : ε → Prop} {good : α → Prop} (yields : Yields run well ill)
    (better : ∀ a, well a → good a) (worse : ∀ e, ill e → bad e) : Yields run good bad := by
  cases run with
  | ok a => exact better a yields
  | error e => exact worse e yields

namespace Schedule

variable {found : List Entry}

-- What the sweeps ask of an argument, as a bucket.
def Entry.bucket (entry : Entry) : Bucket := .of entry.node entry.isPinned

def wants (wanted : Entry → Bool) (found : List Entry) (index : Nat) : Bool := found[index]?.any wanted

def share (found : List Entry) (which : Bucket) : List Nat :=
  (List.range found.length).filter (wants (·.bucket == which) found)

namespace Sorter

variable {sorter next : Sorter} {ends : List Nat × List Nat} {rest : List Nat}

structure Shows (found : List Entry) (sorter : Sorter) (ends : List Nat × List Nat) (rest : List Nat) :
    Prop where
  entries : sorter.entries = found
  order : ∃ hole, sorter.order = ends.1 ++ hole ++ ends.2 ∧ hole.length = rest.length
  head : sorter.head = ends.1.length
  tail : sorter.tail = ends.1.length + rest.length
  remaining : sorter.remaining = rest.length
  rising : rest.Pairwise (· < ·)
  left : ∀ index, sorter.processed[index]? = some false ↔ index ∈ rest
  inside : ∀ index ∈ rest, index < found.length

theorem start_shows (found : List Entry) : Shows found (start found) ([], []) (List.range found.length) where
  entries := rfl
  order := ⟨List.replicate found.length 0, by simp [start], by simp⟩
  head := rfl
  tail := by simp [start]
  remaining := by simp [start]
  rising := pairwise_lt_range
  left index := by simp [start, getElem?_replicate]
  inside _ := mem_range.mp

namespace Shows

theorem once (shows_ : Shows found sorter ends rest) : rest.Nodup := shows_.rising.imp Nat.ne_of_lt

theorem unprocessed (shows_ : Shows found sorter ends rest) : sorter.unprocessed = rest := by
  refine List.Perm.eq_of_pairwise (fun _ _ _ _ forth back => absurd back (Nat.lt_asymm forth))
    (pairwise_lt_range.filter _) shows_.rising
    ((perm_ext_iff_of_nodup (nodup_range.filter _) shows_.once).mpr fun index => ?_)
  simp only [mem_filter, mem_range, beq_iff_eq, shows_.left, shows_.entries, and_iff_right_iff_imp]
  exact shows_.inside index

section Take

variable (shows_ : Shows found sorter ends rest) (mem : index ∈ rest)

include shows_ mem

theorem taken {moved : Sorter} (processed : moved.processed = sorter.processed)
    (remaining : moved.remaining = sorter.remaining) :
    moved.take index = .ok { moved with
      processed := sorter.processed.set index true, remaining := rest.length - 1 } := by
  have bound := lt_length ((shows_.left index).mpr mem)
  have some_ := length_pos_of_mem mem
  have counted := shows_.remaining
  rw [take, if_neg (by rw [processed]; omega), if_neg (by rw [remaining]; omega), processed, remaining, counted]

-- Neither end matters for what a placed argument leaves to place.
theorem after {added : List Nat × List Nat} (entries' : next.entries = sorter.entries)
    (order : ∃ hole, next.order = added.1 ++ hole ++ added.2 ∧ hole.length = rest.length - 1)
    (head : next.head = added.1.length) (tail : next.tail = added.1.length + (rest.length - 1))
    (remaining : next.remaining = rest.length - 1) (processed : next.processed = sorter.processed.set index true) :
    Shows found next added (rest.erase index) := by
  have fewer := length_erase_of_mem mem
  have bound := lt_length ((shows_.left index).mpr mem)
  refine ⟨entries'.trans shows_.entries, fewer ▸ order, head, fewer ▸ tail, fewer ▸ remaining,
    shows_.rising.sublist erase_sublist, fun other => ?_, fun other inside => ?_⟩
  · rw [processed, getElem?_set, shows_.once.mem_erase_iff, ← shows_.left other]
    by_cases same : index = other
    · subst same
      simp [bound]
    · simp [same, Ne.symm same]
  · exact shows_.inside other (mem_of_mem_erase inside)

theorem toHead : ∃ next, sorter.toHead index = .ok next
    ∧ Shows found next (ends.1 ++ [index], ends.2) (rest.erase index) := by
  obtain ⟨hole, order, size⟩ := shows_.order
  have some_ := length_pos_of_mem mem
  obtain ⟨slot, hole, rfl⟩ := exists_cons_of_length_pos (size ▸ some_)
  have head := shows_.head
  have tail := shows_.tail
  have free : ¬ sorter.order.length ≤ sorter.head := by
    simp only [order, head, length_append, length_cons]
    omega
  have written : sorter.order.set sorter.head index = ends.1 ++ [index] ++ hole ++ ends.2 := by
    simp [order, head]
  rw [Sorter.toHead, if_neg free]
  refine ⟨_, shows_.taken mem rfl rfl, shows_.after mem rfl ⟨hole, written, ?_⟩ ?_ ?_ rfl rfl⟩
  · exact Nat.eq_sub_of_add_eq size
  · simp [head]
  · simp only [tail, length_append, length_singleton]
    omega

theorem toTail : ∃ next, sorter.toTail index = .ok next
    ∧ Shows found next (ends.1, index :: ends.2) (rest.erase index) := by
  obtain ⟨hole, order, size⟩ := shows_.order
  have some_ := length_pos_of_mem mem
  obtain ⟨hole, slot, rfl⟩ := eq_nil_or_concat' hole |>.resolve_left (ne_nil_of_length_pos (size ▸ some_))
  have head := shows_.head
  have tail := shows_.tail
  simp only [length_append, length_singleton] at size
  have last : sorter.tail - 1 = ends.1.length + hole.length := by omega
  have free : ¬ sorter.order.length ≤ sorter.tail - 1 := by
    simp only [order, last, length_append, length_singleton]
    omega
  have written : sorter.order.set (sorter.tail - 1) index = ends.1 ++ hole ++ index :: ends.2 := by
    simp [order, last]
  rw [Sorter.toTail, if_neg (by omega), if_neg free]
  refine ⟨_, shows_.taken mem rfl rfl, shows_.after mem rfl ⟨hole, written, by omega⟩ head ?_ rfl rfl⟩
  change sorter.tail - 1 = ends.1.length + (rest.length - 1)
  omega

end Take

section Sweep

variable (wanted : Entry → Bool)

-- By induction on the arguments still to be looked at, all of which are left to place.
theorem sweep {put : Sorter → Nat → Except Fault Sorter}
    (add : List Nat × List Nat → Nat → List Nat × List Nat)
    (puts : ∀ {sorter ends rest index}, Shows found sorter ends rest → index ∈ rest →
      ∃ next, put sorter index = .ok next ∧ Shows found next (add ends index) (rest.erase index))
    {indices : List Nat} (shows_ : Shows found sorter ends rest) (once : indices.Nodup) (within : indices ⊆ rest) :
    ∃ next, Sorter.sweep put wanted sorter indices = .ok next
      ∧ Shows found next ((indices.filter (wants wanted found)).foldl add ends)
        (rest.diff (indices.filter (wants wanted found))) := by
  induction indices generalizing sorter ends rest with
  | nil => exact ⟨sorter, rfl, shows_⟩
  | cons index indices ih =>
    obtain ⟨fresh, once⟩ := nodup_cons.mp once
    obtain ⟨mem, within⟩ := cons_subset.mp within
    have bound := shows_.inside index mem
    have asks : wants wanted found index = wanted found[index] := by
      rw [wants, getElem?_eq_getElem bound, Option.any_some]
    rw [filter_cons, asks]
    change ∃ next, ((elementAt sorter.entries index >>= fun entry =>
      if wanted entry then put sorter index else pure sorter) >>= (Sorter.sweep put wanted · indices)) = _ ∧ _
    rw [shows_.entries, elementAt_ok bound]
    change ∃ next, ((if wanted found[index] then put sorter index else pure sorter)
      >>= (Sorter.sweep put wanted · indices)) = _ ∧ _
    by_cases take : wanted found[index] = true
    · obtain ⟨placed, did, placedShows⟩ := puts shows_ mem
      have within : indices ⊆ rest.erase index := by
        intro other inside
        exact (mem_erase_of_ne (ne_of_mem_of_not_mem inside fresh)).mpr (within inside)
      obtain ⟨last, swept, lastShows⟩ := ih placedShows once within
      rw [if_pos take, if_pos take, did]
      exact ⟨last, swept, by rwa [foldl_cons, diff_cons]⟩
    · rw [if_neg take, if_neg take]
      exact ih shows_ once within

theorem left_over (shows_ : Shows found sorter ends rest) {swept : List Nat}
    (same : ∀ index, index ∈ swept ↔ index ∈ rest.filter (wants wanted found)) :
    rest.diff swept = rest.filter fun index => !wants wanted found index := by
  rw [shows_.once.sdiff_eq_filter]
  refine filter_congr fun index mem => ?_
  simp [same, mem]

theorem sweepToHead (shows_ : Shows found sorter ends rest) :
    ∃ next, sorter.sweepToHead wanted = .ok next
      ∧ Shows found next (ends.1 ++ rest.filter (wants wanted found), ends.2)
        (rest.filter fun index => !wants wanted found index) := by
  obtain ⟨next, swept, nextShows⟩ := sweep wanted (fun ends index => (ends.1 ++ [index], ends.2))
    (fun shows_ mem => shows_.toHead mem) shows_ shows_.once (List.Subset.refl rest)
  rw [shows_.left_over wanted fun _ => .rfl] at nextShows
  have added : ∀ (indices : List Nat) (ends : List Nat × List Nat),
      indices.foldl (fun ends index => (ends.1 ++ [index], ends.2)) ends = (ends.1 ++ indices, ends.2) := by
    intro indices
    induction indices with
    | nil => simp
    | cons index indices ih => simp [ih]
  exact ⟨next, by rw [Sorter.sweepToHead, shows_.unprocessed, swept], added _ _ ▸ nextShows⟩

theorem sweepToTail (shows_ : Shows found sorter ends rest) :
    ∃ next, sorter.sweepToTail wanted = .ok next
      ∧ Shows found next (ends.1, rest.filter (wants wanted found) ++ ends.2)
        (rest.filter fun index => !wants wanted found index) := by
  obtain ⟨next, swept, nextShows⟩ := sweep wanted (fun ends index => (ends.1, index :: ends.2))
    (fun shows_ mem => shows_.toTail mem) shows_ (nodup_reverse.mpr shows_.once)
    fun _ => mem_reverse.mp
  rw [shows_.left_over wanted fun _ => by simp] at nextShows
  have added : ∀ (indices : List Nat) (ends : List Nat × List Nat),
      indices.foldl (fun ends index => (ends.1, index :: ends.2)) ends
        = (ends.1, indices.reverse ++ ends.2) := by
    intro indices
    induction indices with
    | nil => simp
    | cons index indices ih => simp [ih]
  rw [added, ← filter_reverse, reverse_reverse] at nextShows
  exact ⟨next, by rw [Sorter.sweepToTail, shows_.unprocessed, swept], nextShows⟩

end Sweep

end Shows

end Sorter

section Prices

variable (cost proc found)

-- The price by which an argument is placed.
def amountAt (index : Nat) : Nat := (askPrice cost proc found index).toOption.getD 0

structure Prices.Honest (prices : Prices) : Prop where
  size : prices.length = found.length
  asked : ∀ index amount, prices[index]? = some (some amount) → askPrice cost proc found index = .ok amount

variable {cost proc found} {prices : Prices}

theorem priceFrom_yields (honest : prices.Honest cost proc found) (bound : index < found.length) :
    Yields (priceFrom cost proc found prices index)
      (fun told => askPrice cost proc found index = .ok told.1 ∧ told.2.Honest cost proc found)
      (fun fault => askPrice cost proc found index = .error fault) := by
  have stored : index < prices.length := honest.size ▸ bound
  have here : prices[index]? = some prices[index] := getElem?_eq_getElem stored
  unfold priceFrom
  rw [here]
  cases known : prices[index] with
  | some amount => exact ⟨honest.asked index amount (here.trans (congrArg some known)), honest⟩
  | none =>
    cases asked : askPrice cost proc found index with
    | error fault => exact rfl
    | ok amount =>
      refine ⟨rfl, (length_set ..).trans honest.size, fun other price has => ?_⟩
      by_cases same : index = other
      · subst same
        simp only [getElem?_set_self stored, Option.some.injEq] at has
        exact has ▸ asked
      · exact honest.asked other price (by rwa [getElem?_set_ne same] at has)

theorem costliest_yields {best amount : Nat} {rest : List Nat} (honest : prices.Honest cost proc found)
    (asked : askPrice cost proc found best = .ok amount) (inside : ∀ index ∈ rest, index < found.length)
    (rising : (best :: rest).Pairwise (· < ·)) :
    Yields (costliest cost proc found best amount prices rest)
      (fun told => told.2.Honest cost proc found ∧ told.1 ∈ best :: rest
        ∧ (∀ index ∈ rest, ∃ amount, askPrice cost proc found index = .ok amount)
        ∧ ∀ index ∈ best :: rest, index ≠ told.1 → Falls (amountAt cost proc found) told.1 index)
      (fun fault => ∃ index ∈ rest, askPrice cost proc found index = .error fault) := by
  induction rest generalizing best amount prices with
  | nil => exact ⟨honest, mem_cons_self, by simp, by simp⟩
  | cons index rest ih =>
    obtain ⟨bound, inside⟩ := forall_mem_cons.mp inside
    obtain ⟨ahead, later⟩ := pairwise_cons.mp rising
    have atBest : amountAt cost proc found best = amount := by rw [amountAt, asked]; rfl
    refine Yields.bind ((priceFrom_yields honest bound).mono (fun _ told => told)
      fun fault failed => ⟨index, mem_cons_self, failed⟩) ?_
    rintro ⟨other, prices⟩ ⟨askedOther, honest⟩
    have atOther : amountAt cost proc found index = other := by rw [amountAt, askedOther]; rfl
    have inFront := ahead index mem_cons_self
    have failed : ∀ fault, (∃ index ∈ rest, askPrice cost proc found index = .error fault) →
        ∃ one ∈ index :: rest, askPrice cost proc found one = .error fault :=
      fun fault ⟨one, mem, isFault⟩ => ⟨one, mem_cons_of_mem _ mem, isFault⟩
    dsimp only
    split
    · rename_i dearer
      refine (ih honest askedOther inside later).mono ?_ failed
      rintro ⟨told, prices⟩ ⟨honest, mem, priced, falls⟩
      refine ⟨honest, mem_cons_of_mem _ mem, forall_mem_cons.mpr ⟨⟨other, askedOther⟩, priced⟩,
        forall_mem_cons.mpr ⟨fun _ => ?_, falls⟩⟩
      by_cases same : index = told
      · exact .inl (by rw [← same, atBest, atOther]; exact dearer)
      · have first := falls index mem_cons_self same
        unfold Falls at first ⊢
        omega
    · rename_i notDearer
      have sorted : (best :: rest).Pairwise (· < ·) := rising.sublist ((sublist_cons_self index rest).cons_cons best)
      refine (ih honest asked inside sorted).mono ?_ failed
      rintro ⟨told, prices⟩ ⟨honest, mem, priced, falls⟩
      obtain ⟨first, others⟩ := forall_mem_cons.mp falls
      refine ⟨honest, ?_, forall_mem_cons.mpr ⟨⟨other, askedOther⟩, priced⟩,
        forall_mem_cons.mpr ⟨first, forall_mem_cons.mpr ⟨fun _ => ?_, others⟩⟩⟩
      · rcases mem_cons.mp mem with rfl | mem
        · exact mem_cons_self
        · exact mem_cons_of_mem _ (mem_cons_of_mem _ mem)
      · by_cases same : best = told
        · rw [← same, Falls, atBest, atOther]
          omega
        · have first := first same
          unfold Falls at first ⊢
          omega

theorem pick_yields {rest : List Nat} (honest : prices.Honest cost proc found) (some_ : rest ≠ [])
    (inside : ∀ index ∈ rest, index < found.length) (rising : rest.Pairwise (· < ·)) :
    Yields (pick cost proc found prices rest)
      (fun told => told.2.Honest cost proc found ∧ told.1 ∈ rest
        ∧ (2 ≤ rest.length → ∀ index ∈ rest, ∃ amount, askPrice cost proc found index = .ok amount)
        ∧ ∀ index ∈ rest, index ≠ told.1 → Falls (amountAt cost proc found) told.1 index)
      (fun fault => 2 ≤ rest.length ∧ ∃ index ∈ rest, askPrice cost proc found index = .error fault) := by
  match rest with
  | [] => exact absurd rfl some_
  | [only] => exact ⟨honest, mem_cons_self, by simp, by simp⟩
  | first :: second :: rest =>
    obtain ⟨bound, inside⟩ := forall_mem_cons.mp inside
    refine Yields.bind ((priceFrom_yields honest bound).mono (fun _ told => told)
      fun fault failed => ⟨by simp, first, mem_cons_self, failed⟩) ?_
    rintro ⟨amount, prices⟩ ⟨asked, honest⟩
    refine (costliest_yields honest asked inside rising).mono ?_ ?_
    · rintro told ⟨honest, mem, priced, falls⟩
      exact ⟨honest, mem, fun _ => forall_mem_cons.mpr ⟨⟨amount, asked⟩, priced⟩, falls⟩
    · rintro fault ⟨index, mem, failed⟩
      exact ⟨by simp, index, mem_cons_of_mem _ mem, failed⟩

namespace Sorter

variable {sorter : Sorter} {front back rest : List Nat}

-- By induction on the rounds. Each takes the one that goes before all the others that are left.
theorem fill_yields {rounds : Nat} (shows_ : Shows found sorter (front, back) rest)
    (honest : prices.Honest cost proc found) (enough : rest.length ≤ rounds) :
    Yields (fill cost proc rounds prices sorter)
      (fun last => (2 ≤ rest.length → ∀ index ∈ rest, ∃ amount, askPrice cost proc found index = .ok amount)
        ∧ ∃ placed : List Nat, placed.Perm rest ∧ placed.Pairwise (Falls (amountAt cost proc found))
          ∧ Shows found last (front ++ placed, back) [])
      (fun fault => 2 ≤ rest.length ∧ ∃ index ∈ rest, askPrice cost proc found index = .error fault) := by
  induction rounds generalizing sorter front rest prices with
  | zero =>
    cases eq_nil_of_length_eq_zero (Nat.le_zero.mp enough)
    exact ⟨by simp, [], .refl _, .nil, by rwa [append_nil]⟩
  | succ rounds ih =>
    unfold fill
    by_cases done : sorter.remaining = 0
    · cases eq_nil_of_length_eq_zero (shows_.remaining.symm.trans done)
      rw [if_pos done]
      exact ⟨by simp, [], .refl _, .nil, by rwa [append_nil]⟩
    · have some_ : rest ≠ [] := fun none => done (shows_.remaining.trans (congrArg length none))
      rw [if_neg done, shows_.entries, shows_.unprocessed]
      refine Yields.bind (pick_yields honest some_ shows_.inside shows_.rising) ?_
      rintro ⟨index, prices⟩ ⟨honest, mem, priced, falls⟩
      obtain ⟨next, placed, nextShows⟩ := shows_.toHead mem
      have fewer := length_erase_of_mem mem
      dsimp only
      rw [placed]
      refine (ih nextShows honest (by omega)).mono ?_ ?_
      · rintro last ⟨_, placed, perm, sorted, lastShows⟩
        refine ⟨priced, index :: placed, (perm.cons index).trans (perm_cons_erase mem).symm, ?_, ?_⟩
        · refine pairwise_cons.mpr ⟨fun other inPlaced => ?_, sorted⟩
          obtain ⟨apart, inRest⟩ := shows_.once.mem_erase_iff.mp (perm.mem_iff.mp inPlaced)
          exact falls other inRest apart
        · simpa using lastShows
      · rintro fault ⟨several, other, inRest, failed⟩
        exact ⟨by omega, other, mem_of_mem_erase inRest, failed⟩

theorem unlessDone_eq {step : Sorter → Except Fault Sorter}
    (idle : sorter.remaining = 0 → step sorter = .ok sorter) : sorter.unlessDone step = step sorter := by
  unfold unlessDone
  split
  · rename_i done
    exact (idle done).symm
  · rfl

theorem Shows.idle (shows_ : Shows found sorter (front, back) rest) (wanted : Entry → Bool)
    (done : sorter.remaining = 0) :
    sorter.sweepToHead wanted = .ok sorter ∧ sorter.sweepToTail wanted = .ok sorter := by
  have none_ : sorter.unprocessed = [] :=
    shows_.unprocessed.trans (eq_nil_of_length_eq_zero (shows_.remaining.symm.trans done))
  simp only [Sorter.sweepToHead, Sorter.sweepToTail, none_]
  exact ⟨rfl, rfl⟩

theorem sweeps_share (found : List Entry) :
    ∃ last, sweeps found = .ok last ∧ Shows found last (share found .call ++ share found .pinned,
      share found .localRead ++ share found .constant) (share found .other) := by
  obtain ⟨first, swept₁, shows₁⟩ := (start_shows found).sweepToTail Entry.isConstant
  obtain ⟨second, swept₂, shows₂⟩ := shows₁.sweepToHead Entry.hasCall
  obtain ⟨third, swept₃, shows₃⟩ := shows₂.sweepToHead Entry.isPinned
  obtain ⟨last, swept₄, shows₄⟩ := shows₃.sweepToTail Entry.isLocalRead
  refine ⟨last, ?_, (congrArg₂ (Shows found last) (Prod.ext (congrArg₂ _ ?_ ?_) (congrArg₂ _ ?_ ?_)) ?_).mp shows₄⟩
  · have ran₂ := (unlessDone_eq fun done => (shows₁.idle Entry.hasCall done).1).trans swept₂
    have ran₃ := (unlessDone_eq fun done => (shows₂.idle Entry.isPinned done).1).trans swept₃
    have ran₄ := (unlessDone_eq fun done => (shows₃.idle Entry.isLocalRead done).2).trans swept₄
    simp only [sweeps, except_bind_ok_iff]
    exact ⟨first, swept₁, second, ran₂, third, ran₃, ran₄⟩
  all_goals
    simp only [filter_filter, share, append_nil]
    refine filter_congr fun index mem => ?_
    have bound := mem_range.mp mem
    simp only [wants, getElem?_eq_getElem bound, Option.any_some, Entry.bucket, Bucket.of,
      ← Entry.isConstant.eq_def, ← Entry.hasCall.eq_def, ← Entry.isLocalRead.eq_def]
    generalize found[index] = entry
    cases entry.isConstant <;> cases entry.hasCall <;> cases entry.isPinned <;> cases entry.isLocalRead <;> rfl

theorem sort_yields (cost : CostModel) (proc : Procedure) (found : List Entry) :
    Yields (sort cost proc found)
      (fun last => (2 ≤ (share found .other).length →
          ∀ index ∈ share found .other, ∃ amount, askPrice cost proc found index = .ok amount)
        ∧ ∃ placed : List Nat, placed.Perm (share found .other)
          ∧ placed.Pairwise (Falls (amountAt cost proc found))
          ∧ Shows found last (share found .call ++ share found .pinned ++ placed,
            share found .localRead ++ share found .constant) [])
      (fun fault => 2 ≤ (share found .other).length
        ∧ ∃ index ∈ share found .other, askPrice cost proc found index = .error fault) := by
  obtain ⟨last, swept, shows_⟩ := sweeps_share found
  have fills : sort cost proc found = fillByCost cost proc last := by
    have idle : last.remaining = 0 → fillByCost cost proc last = .ok last := by
      intro done
      rw [fillByCost, done]
      rfl
    rw [sort, swept, ← unlessDone_eq idle]
    rfl
  have fresh : Prices.Honest cost proc found (List.replicate found.length none) :=
    ⟨length_replicate, by simp [getElem?_replicate]⟩
  rw [fills, fillByCost, shows_.entries]
  exact fill_yields shows_ fresh (Nat.le_of_eq shows_.remaining.symm)

end Sorter

end Prices

end Schedule

end CallLowering
