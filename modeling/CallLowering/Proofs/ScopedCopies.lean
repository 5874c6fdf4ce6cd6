import CallLowering.Proofs.Pooling

/-! Struct copies along nested scopes. -/

namespace CallLowering

open List

variable {copies : List LocalId} {s m t : LoweringState} {settings : Settings}
  {after before : CopyPool} {var : LocalId}

theorem LocalSet.mem_erase {set : LocalSet} {other : LocalId} :
    other ∈ (set.erase var).members ↔ other ∈ set.members ∧ other ≠ var := by
  simp [erase]

inductive CopyAction where
  | enter
  | exit
  | take (ty : ValueType)
  | declare (var : LocalVar)
deriving DecidableEq, Repr

variable {action : CopyAction} {body : List CopyAction}

namespace CopyAction

def run (settings : Settings) : CopyAction → Step (List LocalId)
  | enter => do
    modify fun state => { state with pool := state.pool.openScope }
    pure []
  | exit => do
    modify fun state => { state with pool := state.pool.closeScope }
    pure []
  | take ty => do
    let var ← Step.structCopy settings ty
    pure [var]
  | declare var => do
    modify fun state => { state with proc := (state.proc.addLocal var).2 }
    pure []

def runAll (settings : Settings) : List CopyAction → Step (List LocalId)
  | [] => pure []
  | action :: rest => do
    let copies ← action.run settings
    let more ← runAll settings rest
    pure (copies ++ more)

-- Every scope that is entered is left, and copies are taken inside a scope only.
inductive Nested : Bool → List CopyAction → Prop where
  | done (mem : Bool) : Nested mem []
  | take (ty : ValueType) (rest : List CopyAction) (behind : Nested true rest) :
      Nested true (.take ty :: rest)
  | declare (mem : Bool) (var : LocalVar) (rest : List CopyAction) (behind : Nested mem rest) :
      Nested mem (.declare var :: rest)
  | scope (mem : Bool) (body rest : List CopyAction) (within : Nested true body)
      (behind : Nested mem rest) : Nested mem (.enter :: body ++ .exit :: rest)

end CopyAction

namespace Step

theorem structCopy_runs (settings : Settings) (ty : ValueType) (isOpen : s.pool.scopes ≠ []) :
    ∃ var t, structCopy settings ty s = .ok var t := by
  obtain ⟨inner, rest, isInner⟩ := exists_cons_of_ne_nil isOpen
  obtain ⟨var, u, ran, sameScopes, _⟩ := structCopy_chooses settings ty s
  rw [ran, keep, CopyPool.hold?, sameScopes, isInner]
  exact ⟨var, _, rfl⟩

end Step

namespace CopyPool

theorem closeScope_pooled (taken : Holding before.openScope after copies) (var : LocalId) :
    (var ∈ after.closeScope.available.members ∨ var ∈ copies)
      ↔ var ∈ after.available.members ∨ var ∈ copies := by
  unfold Holding at taken
  simp only [openScope, modifyHead_cons, nil_append] at taken
  unfold closeScope
  rw [taken]
  cases before.scopes with
  | nil =>
    simp only [LocalSet.mem_foldl_insert]
    grind
  | cons parent rest => exact Iff.rfl

theorem Holding.depth (holding : Holding before after copies) : after.depth = before.depth := by
  rw [CopyPool.depth, holding, length_modifyHead, CopyPool.depth]

theorem Holding.isOpen (holding : Holding before after copies) (isOpen : before.scopes ≠ []) : after.scopes ≠ [] := by
  rw [holding]
  simpa using isOpen

end CopyPool

namespace CopyAction

theorem runAll_append (settings : Settings) {back : List CopyAction} (front : List CopyAction) (s t : LoweringState)
    (copies : List LocalId) :
    runAll settings (front ++ back) s = .ok copies t
      ↔ ∃ first m second, runAll settings front s = .ok first m ∧ runAll settings back m = .ok second t
        ∧ copies = first ++ second := by
  induction front generalizing s t copies with
  | nil =>
    simp only [nil_append, runAll, pure_ok_iff]
    constructor
    · intro done
      exact ⟨[], s, copies, ⟨rfl, rfl⟩, done, rfl⟩
    · rintro ⟨_, _, second, ⟨rfl, rfl⟩, done, rfl⟩
      exact done
  | cons action rest ih =>
    simp only [cons_append, runAll, bind_ok_iff, pure_ok_iff, ih]
    constructor
    · rintro ⟨handed, m, acted, _, u, ⟨first, v, second, ran, later, rfl⟩, rfl, rfl⟩
      exact ⟨handed ++ first, v, second, ⟨handed, m, acted, first, v, ran, rfl, rfl⟩, later, by simp⟩
    · rintro ⟨_, _, second, ⟨handed, m, acted, first, v, ran, rfl, rfl⟩, later, rfl⟩
      exact ⟨handed, m, acted, first ++ second, t, ⟨first, v, second, ran, later, rfl⟩, by simp, rfl⟩

theorem runAll_silent (rest : List CopyAction) (acted : action.run settings s = .ok [] m) :
    runAll settings (action :: rest) s = runAll settings rest m := by
  have ran : (action.run settings >>= fun copies => do
      let more ← runAll settings rest
      pure (copies ++ more)) s = (runAll settings rest >>= fun more => pure more) m := by
    simp only [bind, EStateM.bind, acted, nil_append]
  rwa [bind_pure] at ran

theorem runAll_scope {rest : List CopyAction} :
    runAll settings (.enter :: body ++ .exit :: rest) s = .ok copies t
      ↔ ∃ first m second, runAll settings body s.opened = .ok first m
        ∧ runAll settings rest m.closed = .ok second t
        ∧ copies = first ++ second := by
  have left : ∀ m, runAll settings (.exit :: rest) m
      = runAll settings rest m.closed := fun m =>
    runAll_silent rest rfl
  rw [cons_append, runAll_silent _ rfl]
  simp only [runAll_append, left]

-- What one action leaves behind: free locals are not held, a copy is one of the type asked for, and
-- nothing becomes free but at the end of the outermost scope.
structure Orderly (settings : Settings) (action : CopyAction) (s : LoweringState)
    (copies : List LocalId) (t : LoweringState) : Prop where
  apart : ∀ var ∈ t.pool.available.members, var ∉ t.pool.held
  taken : ∀ ty, action = .take ty →
    ∃ var, copies = [var] ∧ t.proc.IsCopy var ty ∧ Step.Choice settings ty s t var
  released : ∀ var ∈ t.pool.available.members, var ∉ s.pool.available.members →
    action = .exit ∧ s.pool.depth = 1

theorem run_orderly (sound : s.Sound) (done : action.run settings s = .ok copies t) :
    t.Sound ∧ Orderly settings action s copies t := by
  cases action with
  | enter =>
    simp only [run, bind_ok_iff, modify_ok_iff, pure_ok_iff] at done
    obtain ⟨_, _, rfl, rfl, rfl⟩ := done
    have opened := CopyPool.openScope_sound sound
    exact ⟨opened, opened.apart, by simp, fun var now before => absurd now before⟩
  | exit =>
    simp only [run, bind_ok_iff, modify_ok_iff, pure_ok_iff] at done
    obtain ⟨_, _, rfl, rfl, rfl⟩ := done
    have closed := CopyPool.closeScope_sound sound
    refine ⟨closed, closed.apart, by simp, fun var now before => ⟨rfl, ?_⟩⟩
    unfold CopyPool.closeScope at now
    split at now
    · exact absurd now before
    · rename_i outermost isOpen
      simp [CopyPool.depth, isOpen]
    · exact absurd now before
  | take ty =>
    simp only [run, bind_ok_iff, pure_ok_iff] at done
    obtain ⟨var, _, taken, rfl, rfl⟩ := done
    obtain ⟨kept, _, isCopy⟩ := Step.structCopy_sound sound taken
    have choice := (Step.structCopy_ok taken).1
    refine ⟨kept, kept.apart, ?_, fun other now before => absurd ?_ before⟩
    · rintro _ ⟨⟩
      exact ⟨var, rfl, isCopy, choice⟩
    · cases choice with
      | reused _ _ _ _ _ left =>
        rw [left, LocalSet.mem_erase] at now
        exact now.1
      | fresh _ _ _ left => exact left ▸ now
  | declare var =>
    simp only [run, bind_ok_iff, modify_ok_iff, pure_ok_iff] at done
    obtain ⟨_, _, rfl, rfl, rfl⟩ := done
    have kept := sound.kept (s.proc.addLocal_adds var)
    exact ⟨kept, kept.apart, by simp, fun var now before => absurd now before⟩

-- What a nested sequence of actions comes to: the scope around it holds the copies, and each of
-- them is one of its own or was free before.
structure Ran (s : LoweringState) (copies : List LocalId) (t : LoweringState) : Prop where
  sound : t.pool.Sound t.proc
  holding : CopyPool.Holding s.pool t.pool copies
  pooled : ∀ var, (var ∈ t.pool.available.members ∨ var ∈ copies)
    ↔ var ∈ s.pool.available.members ∨ var ∈ copies

theorem Ran.trans {first second : List LocalId} (front : Ran s first m) (back : Ran m second t) :
    Ran s (first ++ second) t where
  sound := back.sound
  holding := CopyPool.holding_trans front.holding back.holding
  pooled := fun var => by
    have early := front.pooled var
    have late := back.pooled var
    rw [mem_append]
    grind

theorem Ran.inScope (within : Ran s.opened copies m) :
    Ran s copies m.closed where
  sound := CopyPool.closeScope_sound within.sound
  holding := CopyPool.closeScope_holding within.holding
  pooled := fun var =>
    (CopyPool.closeScope_pooled within.holding var).trans (within.pooled var)

theorem Ran.outermost (within : Ran s.opened copies m) (none : s.pool.depth = 0) :
    copies.Nodup ∧ ∀ var, var ∈ m.pool.closeScope.available.members
      ↔ var ∈ s.pool.available.members ∨ var ∈ copies := by
  have outermost : s.pool.scopes = [] := length_eq_zero_iff.mp none
  have only : m.pool.scopes = [copies] := by
    have holding := within.holding
    simpa [CopyPool.Holding, CopyPool.openScope, outermost] using holding
  refine ⟨CopyPool.holding_once outermost within.holding within.sound, ?_⟩
  intro var
  refine Iff.trans ?_ (within.pooled var)
  rw [CopyPool.closeScope, only]
  exact LocalSet.mem_foldl_insert copies m.pool.available var

variable {actions : List CopyAction}

theorem Nested.runs {mem : Bool} (nested : Nested mem actions) (settings : Settings) (s : LoweringState)
    (sound : s.Sound) (isOpen : mem = true → s.pool.scopes ≠ []) :
    ∃ copies t, runAll settings actions s = .ok copies t ∧ Ran s copies t := by
  induction nested generalizing s with
  | done mem =>
    exact ⟨[], s, pure_ok_iff.mpr ⟨rfl, rfl⟩, sound, CopyPool.holding_refl, fun _ => Iff.rfl⟩
  | take ty rest _ ih =>
    obtain ⟨var, m, taken⟩ := Step.structCopy_runs settings ty (isOpen rfl)
    obtain ⟨kept, holding, _⟩ := Step.structCopy_sound sound taken
    have first : Ran s [var] m := ⟨kept, holding, fun other => by
      cases (Step.structCopy_ok taken).1 with
      | reused _ free _ _ _ left =>
        rw [left, LocalSet.mem_erase, mem_singleton]
        grind
      | fresh _ _ _ left => rw [left]⟩
    obtain ⟨copies, t, ran, later⟩ := ih m kept fun _ => holding.isOpen (isOpen rfl)
    refine ⟨[var] ++ copies, t, ?_, first.trans later⟩
    simp only [runAll, run, bind_ok_iff, pure_ok_iff]
    exact ⟨[var], m, ⟨var, m, taken, rfl, rfl⟩, copies, t, ran, rfl, rfl⟩
  | declare mem var rest _ ih =>
    have grown := s.proc.addLocal_adds var
    obtain ⟨copies, t, ran, later⟩ := ih { s with proc := (s.proc.addLocal var).2 } (sound.kept grown) isOpen
    refine ⟨copies, t, ?_, later.sound, later.holding, later.pooled⟩
    simp only [runAll, run, bind_ok_iff, modify_ok_iff, pure_ok_iff]
    exact ⟨[], _, ⟨⟨⟩, _, rfl, rfl, rfl⟩, copies, t, ran, rfl, rfl⟩
  | scope mem body rest _ _ ihBody ihRest =>
    obtain ⟨first, m, ranBody, within⟩ := ihBody s.opened
      (CopyPool.openScope_sound sound) (by simp [CopyPool.openScope])
    have around := within.inScope
    obtain ⟨second, t, ranRest, later⟩ := ihRest m.closed around.sound
      fun inner => around.holding.isOpen (isOpen inner)
    exact ⟨first ++ second, t, runAll_scope.mpr
      ⟨first, m, second, ranBody, ranRest, rfl⟩, around.trans later⟩

theorem runAll_sound (sound : s.Sound) (done : runAll settings actions s = .ok copies t) : t.Sound := by
  induction actions generalizing s copies with
  | nil =>
    obtain ⟨_, rfl⟩ := pure_ok_iff.mp done
    exact sound
  | cons action rest ih =>
    simp only [runAll, bind_ok_iff, pure_ok_iff] at done
    obtain ⟨handed, m, acted, _, _, ran, _, rfl⟩ := done
    exact ih (run_orderly sound acted).1 ran

theorem inScope_ends (ran : runAll settings body s.opened = .ok copies m) (α : Type) :
    (∀ answer : α, Step.inScope (do
        let _ ← runAll settings body
        pure answer) s = .ok answer m.closed)
      ∧ ∀ stop, Step.inScope (do
        let _ ← runAll settings body
        (throw stop : Step α)) s = .error stop m.closed := by
  constructor
  · intro answer
    simp only [Step.inScope, bind, EStateM.bind, ran]
    rfl
  · intro stop
    simp only [Step.inScope, bind, EStateM.bind, ran]
    rfl

end CopyAction

open CopyAction in
theorem copies_follow_scopes (settings : Settings) (proc : Procedure) (actions : List CopyAction)
    (nested : Nested false actions) :
    (∃ copies last, runAll settings actions { proc } = .ok copies last)
      ∧ (∀ front action behind, actions = front ++ action :: behind →
        ∃ before s copies t, runAll settings front { proc } = .ok before s
          ∧ action.run settings s = .ok copies t ∧ Orderly settings action s copies t)
      ∧ (∀ front body behind, actions = front ++ (.enter :: body ++ .exit :: behind) → Nested true body →
        ∃ before s copies t, runAll settings front { proc } = .ok before s
          ∧ runAll settings (.enter :: body ++ [.exit]) s = .ok copies t
          ∧ t.pool.depth = s.pool.depth
          ∧ (∀ (α : Type) (answer : α), Step.inScope (do
              let _ ← runAll settings body
              pure answer) s = .ok answer t)
          ∧ (∀ (α : Type) (stop : Stop), Step.inScope (do
              let _ ← runAll settings body
              (throw stop : Step α)) s = .error stop t)
          ∧ (s.pool.depth = 0 → copies.Nodup
            ∧ ∀ var, var ∈ t.pool.available.members
              ↔ var ∈ s.pool.available.members ∨ var ∈ copies)) := by
  obtain ⟨all, last, ran, _⟩ := nested.runs settings { proc } (CopyPool.empty_sound proc) (by simp)
  refine ⟨⟨all, last, ran⟩, ?_, ?_⟩
  · rintro front action behind rfl
    obtain ⟨before, s, _, ranFront, ranRest, _⟩ := (runAll_append settings front _ _ _).mp ran
    simp only [runAll, bind_ok_iff] at ranRest
    obtain ⟨copies, t, acted, _⟩ := ranRest
    have sound := runAll_sound (CopyPool.empty_sound proc) ranFront
    exact ⟨before, s, copies, t, ranFront, acted, (run_orderly sound acted).2⟩
  · rintro front body behind rfl within
    obtain ⟨before, s, _, ranFront, ranRest, _⟩ := (runAll_append settings front _ _ _).mp ran
    have sound := runAll_sound (CopyPool.empty_sound proc) ranFront
    obtain ⟨copies, m, ranBody, inside⟩ := within.runs settings { s with pool := s.pool.openScope }
      (CopyPool.openScope_sound sound) (by simp [CopyPool.openScope])
    refine ⟨before, s, copies, { m with pool := m.pool.closeScope }, ranFront, ?_,
      inside.inScope.holding.depth, fun α => (inScope_ends ranBody α).1,
      fun α => (inScope_ends ranBody α).2, inside.outermost⟩
    exact runAll_scope.mpr
      ⟨copies, m, [], ranBody, pure_ok_iff.mpr ⟨rfl, rfl⟩, (List.append_nil copies).symm⟩

namespace CopyAction

-- A call inside a call, both with a copy of one type; then a call with copies of two types.
def innerUses : List CopyAction := [.take (.struct 0), .enter, .take (.struct 0), .exit]

def laterUses : List CopyAction := [.enter, .take (.struct 1), .take (.struct 0), .exit]

def sharing : Settings := { target := .ofTriple ⟨.x64, .windows⟩ }

end CopyAction

open CopyAction in
theorem nested_copies_freed_together :
    Nested false (.enter :: innerUses ++ .exit :: laterUses)
      ∧ answerOf (runAll sharing (.enter :: innerUses ++ .exit :: laterUses) { proc := { name := "f" } })
        = some [0, 1, 2, 0]
      ∧ ∃ t, runAll sharing (.enter :: innerUses ++ [.exit]) { proc := { name := "f" } } = .ok [0, 1] t
        ∧ t.pool.depth = 0 ∧ ∀ var, var ∈ t.pool.available.members ↔ var ∈ [0, 1] := by
  have inner : Nested true innerUses :=
    .take _ _ (.scope true [.take (.struct 0)] [] (.take _ _ (.done true)) (.done true))
  have later : Nested false laterUses :=
    .scope false [.take (.struct 1), .take (.struct 0)] [] (.take _ _ (.take _ _ (.done true)))
      (.done false)
  have nested : Nested false (.enter :: innerUses ++ .exit :: laterUses) :=
    .scope false innerUses laterUses inner later
  obtain ⟨_, _, scopes⟩ := copies_follow_scopes sharing { name := "f" } _ nested
  obtain ⟨_, s, copies, t, start, ran, depth, _, _, outermost⟩ := scopes [] innerUses laterUses rfl inner
  obtain ⟨_, rfl⟩ := pure_ok_iff.mp start
  have taken : answerOf (runAll sharing (.enter :: innerUses ++ [.exit]) { proc := { name := "f" } })
      = some [0, 1] := by decide +kernel
  rw [ran] at taken
  cases taken
  refine ⟨nested, by decide +kernel, t, ran, depth, fun var => ?_⟩
  rw [(outermost rfl).2 var]
  simp [LocalSet.empty]

end CallLowering
