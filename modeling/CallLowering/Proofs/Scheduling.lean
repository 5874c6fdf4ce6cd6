import CallLowering.Proofs.Sorting

/-! Scheduling finds the specified order, and the sort it rests on always comes to its end. -/

namespace CallLowering

open List

variable {cost : CostModel} {proc : Procedure} {list : ArgList} {index : Nat}

namespace Schedule

def describe (proc : Procedure) (arg : Argument) : Entry :=
  ⟨arg, arg.value.bind fun value => proc.nodes[value]?⟩

theorem Entry.ofArgument_yields (proc : Procedure) (arg : Argument) :
    Yields (ofArgument proc arg)
      (fun entry => (∀ value, arg.value = some value → ∃ node, proc.nodes[value]? = some node)
        ∧ entry = describe proc arg)
      (fun fault => ∃ value, arg.value = some value ∧ proc.nodes[value]? = none
        ∧ proc.node value = .error fault) := by
  unfold ofArgument describe
  cases arg.value with
  | none => exact ⟨by simp, rfl⟩
  | some value =>
    cases atNode : proc.nodes[value]? with
    | none =>
      have failed : proc.node value = .error (.unknownNode value) := by simp [Procedure.node, atNode]
      simp only [failed]
      exact ⟨value, rfl, atNode, failed⟩
    | some node =>
      simp only [proc.node_ok_iff.mpr atNode, Option.bind_some, atNode]
      exact ⟨by rintro _ ⟨⟩; exact ⟨node, atNode⟩, rfl⟩

theorem entries_yields (proc : Procedure) (list : ArgList) :
    Yields (entries proc list)
      (fun found => (∀ arg ∈ list.args, ∀ value, arg.value = some value → ∃ node, proc.nodes[value]? = some node)
        ∧ found = list.args.map (describe proc))
      (fun fault => ∃ arg ∈ list.args, ∃ value, arg.value = some value ∧ proc.nodes[value]? = none
        ∧ proc.node value = .error fault) := by
  unfold entries
  induction list.args with
  | nil => exact ⟨by simp, rfl⟩
  | cons arg rest ih =>
    rw [mapM_cons]
    refine Yields.bind ((Entry.ofArgument_yields proc arg).mono (fun _ told => told) ?_) ?_
    · rintro fault ⟨value, failed⟩
      exact ⟨arg, mem_cons_self, value, failed⟩
    · rintro entry ⟨valued, rfl⟩
      refine Yields.bind (ih.mono (fun _ told => told) ?_) ?_
      · rintro fault ⟨other, mem, failed⟩
        exact ⟨other, mem_cons_of_mem _ mem, failed⟩
      · rintro found ⟨others, rfl⟩
        exact ⟨forall_mem_cons.mpr ⟨valued, others⟩, rfl⟩

theorem share_described (proc : Procedure) (list : ArgList) (which : Bucket) :
    share (list.args.map (describe proc)) which = inBucket proc list which := by
  unfold share inBucket ArgList.size
  rw [length_map]
  refine filter_congr fun index _ => ?_
  rw [wants, getElem?_map, Option.any_map]
  rfl

theorem askPrice_described {arg : Argument} (here : list.args[index]? = some arg) :
    askPrice cost proc (list.args.map (describe proc)) index = (describe proc arg).price cost proc := by
  rw [askPrice, elementAt, getElem?_map, here]
  rfl

theorem amountAt_described : amountAt cost proc (list.args.map (describe proc)) = priceAt cost proc list := by
  funext index
  unfold amountAt priceAt
  cases here : list.args[index]? with
  | none =>
    rw [askPrice, elementAt, getElem?_map, here]
    rfl
  | some arg =>
    rw [askPrice_described here, Entry.price, describe, Option.bind_some]
    cases arg.value <;> rfl

-- A fault is that of a value that is not there or of a price that cannot be told.
theorem sort_specified (cost : CostModel) (proc : Procedure) (list : ArgList) :
    Yields (entries proc list >>= Sorter.sort cost proc)
      (fun last => Schedulable cost proc list ∧ last.order = specified cost proc list
        ∧ last.head = last.tail ∧ last.remaining = 0)
      (fun fault => ¬ Schedulable cost proc list
        ∧ ∃ value, proc.node value = .error fault ∨ cost proc value = .error fault) := by
  refine Yields.bind ((entries_yields proc list).mono (fun _ told => told) ?_) ?_
  · rintro fault ⟨arg, mem, value, has, absent, failed⟩
    refine ⟨fun schedulable => ?_, value, .inl failed⟩
    obtain ⟨node, atNode⟩ := schedulable.valued arg mem value has
    simp [absent] at atNode
  · rintro found ⟨valued, rfl⟩
    have sorts := Sorter.sort_yields cost proc (list.args.map (describe proc))
    simp only [share_described, amountAt_described] at sorts
    refine sorts.mono ?_ ?_
    · rintro last ⟨priced, placed, perm, falls, shows_⟩
      obtain ⟨hole, order, empty⟩ := shows_.order
      cases eq_nil_of_length_eq_zero empty
      refine ⟨⟨valued, fun several arg mem isOther value has => ?_⟩, ?_, ?_, shows_.remaining⟩
      · obtain ⟨index, here⟩ := getElem?_of_mem mem
        obtain ⟨amount, asked⟩ := priced several index (mem_inBucket.mpr ⟨arg, here, isOther⟩)
        rw [askPrice_described here, Entry.price, describe, has] at asked
        exact ⟨amount, asked⟩
      · rw [order, falling_eq_mergeSort _ (inBucket_rising proc list .other) perm falls, specified]
        simp only [append_assoc, append_nil]
      · rw [shows_.head, shows_.tail]
        rfl
    · rintro fault ⟨several, index, mem, failed⟩
      obtain ⟨arg, here, isOther⟩ := mem_inBucket.mp mem
      rw [askPrice_described here, Entry.price, describe] at failed
      cases has : arg.value with
      | none => simp [has] at failed
      | some value =>
        simp only [has] at failed
        refine ⟨fun schedulable => ?_, value, .inr failed⟩
        obtain ⟨amount, asked⟩ := schedulable.priced several arg (mem_of_getElem? here) isOther value has
        cases failed.symm.trans asked

theorem sort_succeeds (schedulable : Schedulable cost proc list) :
    ∃ last, (entries proc list >>= Sorter.sort cost proc) = .ok last ∧ last.order = specified cost proc list := by
  have told := sort_specified cost proc list
  cases sorted : (entries proc list >>= Sorter.sort cost proc) with
  | error fault =>
    rw [sorted] at told
    exact absurd schedulable told.1
  | ok last =>
    rw [sorted] at told
    exact ⟨last, rfl, told.2.1⟩

-- Scheduling without the way out for a sort that is not finished.
def place (cost : CostModel) (id : CallId) : Edit (List Nat) := do
  let data ← Edit.call id
  let sorter ← Edit.ask fun proc => entries proc data.args >>= Sorter.sort cost proc
  Edit.modifyArgs id fun list => pure (markProcessed list)
  pure sorter.order

-- The cursors of the sort meet, so that this way is never taken.
theorem schedule_eq (id : CallId) : schedule cost id = liftM (place cost id) := by
  funext p
  cases asked : p.call id with
  | error fault =>
    simp [schedule, place, Edit.call, Edit.ask, bind, EStateM.bind, liftM, monadLift, MonadLift.monadLift, asked]
  | ok data =>
    have told := sort_specified cost p data.args
    have first : Edit.call id p = .ok data p := ask_ok_iff.mpr ⟨asked, rfl⟩
    cases sorted : (entries p data.args >>= Sorter.sort cost p) with
    | error fault =>
      rw [schedule, bind_of_ok (lift_edit_ok_iff.mpr first)]
      simp only [place, bind, EStateM.bind, liftM, monadLift, MonadLift.monadLift, first, Edit.ask]
      simp only [bind] at sorted
      simp only [sorted]
    | ok last =>
      rw [sorted] at told
      obtain ⟨_, _, met, none_⟩ := told
      rw [schedule, bind_of_ok (lift_edit_ok_iff.mpr first),
        bind_of_ok (lift_edit_ok_iff.mpr (ask_ok_iff.mpr ⟨sorted, rfl⟩)), if_neg (by simp [met, none_])]
      simp only [place, bind, EStateM.bind, liftM, monadLift, MonadLift.monadLift, first, Edit.ask]
      simp only [bind] at sorted
      simp only [sorted]
      cases Edit.modifyArgs id (fun list => pure (markProcessed list)) p <;> rfl

section Schedule

variable {id : CallId} {p q : Procedure} {data : Call} {result : List Nat}

theorem schedule_ok_iff (here : p.calls[id]? = some data) :
    schedule cost id p = .ok result q
      ↔ Schedulable cost p data.args ∧ result = specified cost p data.args
        ∧ q = p.setCall id { data with args := markProcessed data.args } := by
  have told := sort_specified cost p data.args
  have asks : Edit.call id p = .ok data p := Edit.call_answers here
  have marks : Edit.modifyArgs id (fun list => pure (markProcessed list)) p
      = .ok () (p.setCall id { data with args := markProcessed data.args }) := by
    rw [Edit.modifyArgs, bind_of_ok asks]
    rfl
  rw [schedule_eq, lift_edit_ok_iff, place, bind_of_ok asks]
  simp only [bind_ok_iff, ask_ok_iff, pure_ok_iff]
  constructor
  · rintro ⟨last, _, ⟨sorted, rfl⟩, _, _, marked, rfl, rfl⟩
    rw [sorted] at told
    cases marks.symm.trans marked
    exact ⟨told.1, told.2.1, rfl⟩
  · rintro ⟨schedulable, rfl, rfl⟩
    obtain ⟨last, sorted, ordered⟩ := sort_succeeds schedulable
    exact ⟨last, p, ⟨sorted, rfl⟩, (), _, marks, ordered, rfl⟩

theorem schedule_ok (done : schedule cost id p = .ok result q) :
    ∃ data, p.calls[id]? = some data ∧ Schedulable cost p data.args ∧ result = specified cost p data.args
      ∧ q = p.setCall id { data with args := markProcessed data.args } := by
  obtain ⟨data, _, asked, _⟩ := bind_ok_iff.mp done
  obtain ⟨here, _⟩ := Edit.call_ok (lift_edit_ok_iff.mp asked)
  exact ⟨data, here, (schedule_ok_iff here).mp done⟩

@[simp]
theorem schedule_refused (refusal : Refusal) : schedule cost id p = .error (.refusal refusal) q ↔ False := by
  rw [schedule_eq, lift_edit_refused]

end Schedule

-- Scheduling finds the specified order wherever there is one, and marks the arguments.
theorem schedule_finds_specified (cost : CostModel) (id : CallId) (proc : Procedure) (data : Call)
    (here : proc.calls[id]? = some data) :
    (∀ result after, schedule cost id proc = .ok result after
      ↔ Schedulable cost proc data.args ∧ result = specified cost proc data.args
        ∧ after = proc.setCall id { data with args := { data.args with
            args := data.args.args.map fun arg =>
              { arg with flags := { arg.flags with processed := true } } } })
    ∧ (specified cost proc data.args).Perm (List.range data.args.size)
    ∧ ∀ refusal after, schedule cost id proc ≠ .error (.refusal refusal) after := by
  refine ⟨fun result after => schedule_ok_iff here, specified_perm cost proc data.args, fun refusal after => ?_⟩
  simp

-- A call with arguments for every bucket, two of them at one price and a third dearer.
def mixedList : ArgList where
  args := [.ofValue 0 .i64 .ordinary, .ofValue 2 .i64 .ordinary,
    { early := some 3, ty := .ptr, flags := { needsTemp := true } }, .ofValue 4 .i64 .ordinary,
    .ofValue 5 .i64 .ordinary, .ofValue 8 .i64 .ordinary, .ofValue 10 .i64 .ordinary]

def mixedProcedure : Procedure where
  name := "mixed"
  nodes := ([.intConst 5, .readLocal 0, .load 1 true, .localAddr 0, .readLocal 1, .call 1, .readLocal 1,
    .intConst 3, .binary .div 6 7, .readLocal 0, .load 9 true].map fun kind : NodeKind =>
      { kind, ty := .i64, impact := { effects := { calls := kind.call?.isSome } } }).toArray
  calls := #[{ target := .method "outer", returnType := .void, args := mixedList },
    { target := .method "inner", returnType := .i64 }]

theorem mixed_order_specified :
    Schedulable Cost.tree mixedProcedure mixedList
      ∧ [4, 2, 5, 1, 6, 3, 0] = specified Cost.tree mixedProcedure mixedList := by
  have scheduled := ok_of_answerOf (schedule Cost.tree 0 mixedProcedure) [4, 2, 5, 1, 6, 3, 0] (by decide +kernel)
  obtain ⟨schedulable, same, _⟩ := ((schedule_finds_specified Cost.tree 0 mixedProcedure _ rfl).1 _ _).mp
    scheduled
  exact ⟨schedulable, same⟩

end Schedule

end CallLowering
