import CallLowering.Proofs.Grafting
import CallLowering.Proofs.Twins

/-!
Edits of twins. The same edit on both sides fails on both or on neither, and leaves twins behind. A
local that it makes gets a counterpart; all others keep theirs.
-/

namespace CallLowering

variable {kind other : NodeKind} {var : LocalId} {id : NodeId} {seen : List NodeId}
  {rename rename' : LocalId → LocalId} {p p' : Procedure}

namespace Twins

variable {frame : Frame} {rename : LocalId → LocalId} {p q : Procedure}

variable (twins : Twins frame rename p q)

include twins

theorem noteKind (mirrors : kind.Mirrors rename other) : Twins frame rename (p.noteKind kind) (q.noteKind other) := by
  refine { twins with allocatesStack := ?_ }
  change (q.allocatesStack || other.isStackAlloc) = (p.allocatesStack || kind.isStackAlloc)
  rw [twins.allocatesStack, mirrors.isStackAlloc]

theorem pushNode (ty : ValueType) (impact : Impact) (mirrors : kind.Mirrors rename other)
    (own : ∀ var, kind.accesses? = some var → frame.Own var ∧ var < p.locals.size) :
    Twins frame rename ((p.pushNode { kind, ty, impact }).noteKind kind)
      ((q.pushNode { kind := other, ty, impact }).noteKind other) :=
  noteKind (p := p.pushNode { kind, ty, impact }) (q := q.pushNode { kind := other, ty, impact }) { twins with
    size := by
      change (q.nodes.push _).size = (p.nodes.push _).size
      rw [Array.size_push, Array.size_push, twins.size]
    node := by
      intro id node here
      change (p.nodes.push _)[id]? = some node at here
      change ∃ kind, (q.nodes.push _)[id]? = _ ∧ _
      rw [Array.getElem?_push] at here ⊢
      rw [twins.size]
      by_cases last : id = p.nodes.size
      · rw [if_pos last] at here ⊢
        cases here
        exact ⟨other, rfl, mirrors⟩
      · rw [if_neg last] at here ⊢
        exact twins.node id node here
    accessed := by
      intro id node var here accesses
      change (p.nodes.push _)[id]? = some node at here
      rw [Array.getElem?_push] at here
      by_cases last : id = p.nodes.size
      · rw [if_pos last] at here
        cases here
        obtain ⟨isOwn, mem⟩ := own var accesses
        refine ⟨mem, fun isOld => ?_, fun _ => isOwn⟩
        exact absurd isOld (Nat.not_lt.mpr (last ▸ twins.ordered.trans twins.within))
      · rw [if_neg last] at here
        exact twins.accessed id node var here accesses
    within := by
      refine twins.within.trans ?_
      change p.nodes.size ≤ (p.nodes.push _).size
      rw [Array.size_push]
      exact Nat.le_succ _ } mirrors

theorem setNode {old node : Node} (here : p.nodes[id]? = some old) (mirrors : node.kind.Mirrors rename other)
    (less : ∀ var, node.kind.accesses? = some var → old.kind.accesses? = some var) :
    Twins frame rename (p.setNode id node) (q.setNode id { node with kind := other }) :=
  { twins with
    size := by
      change (q.nodes.setIfInBounds _ _).size = (p.nodes.setIfInBounds _ _).size
      rw [Array.size_setIfInBounds, Array.size_setIfInBounds, twins.size]
    node := by
      intro own now found
      have mem := lt_size here
      change (p.nodes.setIfInBounds id node)[own]? = some now at found
      change ∃ kind, (q.nodes.setIfInBounds id _)[own]? = _ ∧ _
      by_cases same : own = id
      · subst same
        rw [Array.getElem?_setIfInBounds_self_of_lt mem] at found
        rw [Array.getElem?_setIfInBounds_self_of_lt (twins.size.symm ▸ mem)]
        cases found
        exact ⟨other, rfl, mirrors⟩
      · rw [Array.getElem?_setIfInBounds_ne (Ne.symm same)] at found ⊢
        exact twins.node own now found
    accessed := by
      intro own now var found accesses
      have mem := lt_size here
      change (p.nodes.setIfInBounds id node)[own]? = some now at found
      by_cases same : own = id
      · subst same
        rw [Array.getElem?_setIfInBounds_self_of_lt mem] at found
        cases found
        exact twins.accessed own old var here (less var accesses)
      · rw [Array.getElem?_setIfInBounds_ne (Ne.symm same)] at found
        exact twins.accessed own now var found accesses
    within := by
      refine twins.within.trans (Nat.le_of_eq ?_)
      exact Array.size_setIfInBounds.symm }

theorem setCall (id : CallId) {data other : Call} (both : data.Twins other) :
    Twins frame rename (p.setCall id data) (q.setCall id other) :=
  { twins with
    count := by
      change (q.calls.setIfInBounds _ _).size = (p.calls.setIfInBounds _ _).size
      rw [Array.size_setIfInBounds, Array.size_setIfInBounds, twins.count]
    call := by
      intro own now found
      change (p.calls.setIfInBounds id data)[own]? = some now at found
      change ∃ data', (q.calls.setIfInBounds id other)[own]? = _ ∧ _
      by_cases same : own = id
      · subst same
        have mem : own < p.calls.size := by
          have := lt_size found
          rwa [Array.size_setIfInBounds] at this
        rw [Array.getElem?_setIfInBounds_self_of_lt mem] at found
        rw [Array.getElem?_setIfInBounds_self_of_lt (twins.count.symm ▸ mem)]
        cases found
        exact ⟨other, rfl, both⟩
      · rw [Array.getElem?_setIfInBounds_ne (Ne.symm same)] at found ⊢
        exact twins.call own now found }

theorem withLocals {held free : List LocalId} {vars others : Array LocalVar}
    (renames : Renames { frame with held, free } rename' vars others)
    (agree : ∀ var < p.locals.size, rename' var = rename var) (grown : p.locals.size ≤ vars.size) :
    Twins { frame with held, free } rename' { p with locals := vars } { q with locals := others } :=
  { twins with
    renames := renames
    node := by
      intro id node here
      obtain ⟨kind, there, mirrors⟩ := twins.node id node here
      exact ⟨kind, there, mirrors.congr fun var accesses => agree var (twins.accessed id node var here accesses).1⟩
    accessed := by
      intro id node var here accesses
      obtain ⟨mem, old, new⟩ := twins.accessed id node var here accesses
      exact ⟨mem.trans_le grown, old, new⟩ }

end Twins

theorem ArgList.Twins.answers {list other : ArgList} (twins : list.Twins other) (index : Nat) :
    (∃ arg arg', list.arg index = .ok arg ∧ other.arg index = .ok arg' ∧ arg'.masked = arg.masked)
      ∨ ∃ fault fault', list.arg index = .error fault ∧ other.arg index = .error fault' := by
  unfold ArgList.arg
  cases here : list.args[index]? with
  | none =>
    have there := twins.at_ index
    rw [here] at there
    rw [Option.map_eq_none_iff.mp there]
    exact .inr ⟨_, _, rfl, rfl⟩
  | some arg =>
    obtain ⟨arg', there, same⟩ := twins.arg here
    rw [there]
    exact .inl ⟨arg, arg', rfl, rfl, same⟩

-- Locals were added, and the others have kept their counterparts.
structure Later (p p' : Procedure) (rename rename' : LocalId → LocalId) : Prop where
  grown : p.locals.size ≤ p'.locals.size
  agree : ∀ var < p.locals.size, rename' var = rename var

theorem Later.refl (p : Procedure) (rename : LocalId → LocalId) : Later p p rename rename :=
  ⟨Nat.le_refl _, fun _ _ => rfl⟩

theorem Later.trans {p'' : Procedure} {rename'' : LocalId → LocalId}
    (first : Later p p' rename rename') (second : Later p' p'' rename' rename'') : Later p p'' rename rename'' :=
  ⟨first.grown.trans second.grown, fun var mem =>
    (second.agree var (mem.trans_le first.grown)).trans (first.agree var mem)⟩

structure Matched (era : Era) (rename : LocalId → LocalId) (p : Procedure) (var other : LocalId) : Prop where
  same : other = rename var
  own : era.Own var
  declared : var < p.locals.size

theorem Matched.later {era : Era} {other : LocalId}
    (matched : Matched era rename p var other) (later : Later p p' rename rename') :
    Matched era rename' p' var other where
  same := matched.same.trans (later.agree var matched.declared).symm
  own := matched.own
  declared := matched.declared.trans_le later.grown

-- Steps on twins that end well on both sides or on none. What is said of their results may refer to
-- the counterparts there are now, and to the first procedure.
def Both {ε α β : Type} (frame : Frame) (rename : LocalId → LocalId) (p q : Procedure)
    (x : EStateM ε Procedure α) (y : EStateM ε Procedure β)
    (post : (LocalId → LocalId) → Procedure → α → β → Prop) : Prop :=
  Alike (fun a p' b q' => ∃ rename', Twins frame rename' p' q' ∧ Later p p' rename rename' ∧ post rename' p' a b)
    (fun _ _ _ _ => True) (x p) (y q)

abbrev Same {ε α : Type} (frame : Frame) (rename : LocalId → LocalId) (p q : Procedure)
    (x : EStateM ε Procedure α) : Prop :=
  Both frame rename p q x x fun _ _ a b => b = a

namespace Both

section Rules

variable {ε α β γ δ : Type} {frame : Frame} {rename : LocalId → LocalId} {p q : Procedure}
  {post : (LocalId → LocalId) → Procedure → α → β → Prop} {f : α → EStateM ε Procedure γ} {x : EStateM ε Procedure α}

theorem done {a : α} {b : β} (twins : Twins frame rename p q) (holds : post rename p a b) :
    Both (ε := ε) frame rename p q (pure a) (pure b) post :=
  ⟨rename, twins, .refl p rename, holds⟩

theorem bind {y : EStateM ε Procedure β}
    {g : β → EStateM ε Procedure δ} {middle : (LocalId → LocalId) → Procedure → α → β → Prop}
    {post : (LocalId → LocalId) → Procedure → γ → δ → Prop} (first : Both frame rename p q x y middle)
    (next : ∀ {rename' p' q'} a b, x p = .ok a p' → Twins frame rename' p' q' → Later p p' rename rename' →
      middle rename' p' a b → Both frame rename' p' q' (f a) (g b) post) :
    Both frame rename p q (x >>= f) (y >>= g) post := by
  refine Alike.bind first ?_
  intro a p' b q' ran _ ended
  obtain ⟨rename', twins, later, holds⟩ := ended
  refine Alike.mono (next a b ran twins later holds) ?_
  intro c p'' d q'' _ _ last
  obtain ⟨rename'', twins', later', holds'⟩ := last
  exact ⟨rename'', twins', later.trans later', holds'⟩

theorem next {y : EStateM ε Procedure α} {g : α → EStateM ε Procedure δ}
    {post : (LocalId → LocalId) → Procedure → γ → δ → Prop} (first : Both frame rename p q x y fun _ _ a b => b = a)
    (rest : ∀ {rename' p' q'} a, x p = .ok a p' → Twins frame rename' p' q' → Later p p' rename rename' →
      Both frame rename' p' q' (f a) (g a) post) : Both frame rename p q (x >>= f) (y >>= g) post :=
  bind first fun a _ ran twins later same => same ▸ rest a ran twins later

theorem mapM {f g : α → EStateM ε Procedure β} (holds : (LocalId → LocalId) → Procedure → Prop) {items : List α}
    (keeps : ∀ item ∈ items, ∀ rename p b rename' p', holds rename p → f item p = .ok b p' →
      Later p p' rename rename' → holds rename' p')
    (each : ∀ item ∈ items, ∀ rename p q, holds rename p → Twins frame rename p q →
      Both frame rename p q (f item) (g item) fun _ _ a b => b = a)
    (start : holds rename p) (twins : Twins frame rename p q) :
    Both frame rename p q (items.mapM f) (items.mapM g) fun _ _ a b => b = a := by
  induction items generalizing rename p q with
  | nil => exact done twins rfl
  | cons item rest ih =>
    obtain ⟨here, after⟩ := List.forall_mem_cons.mp each
    obtain ⟨keepsHere, keepsAfter⟩ := List.forall_mem_cons.mp keeps
    rw [List.mapM_cons, List.mapM_cons]
    refine bind (here rename p q start twins) ?_
    intro rename' p' q' a b ran twins' later same
    refine bind (ih keepsAfter after (keepsHere rename p a rename' p' start ran later) twins')
      fun rest' rest'' _ twins'' _ same' => ?_
    rw [same, same']
    exact done twins'' rfl

theorem lift {x : Edit α} {y : Edit β} (both : Both frame rename p q x y post) :
    Both frame rename p q (liftM x : Attempt α) (liftM y : Attempt β) post := by
  unfold Both at both ⊢
  simp only [liftM, monadLift, MonadLift.monadLift]
  cases left : x p <;> cases right : y q <;> rw [left, right] at both
  · exact both
  · exact False.elim both
  · exact False.elim both
  · trivial

end Rules

section Edits

open Edit

variable {frame : Frame} {rename : LocalId → LocalId} {p q : Procedure}

theorem asks {α β : Type} {question : Procedure → Except Fault α} {question' : Procedure → Except Fault β}
    {post : (LocalId → LocalId) → Procedure → α → β → Prop} (twins : Twins frame rename p q)
    (answers : (∃ a b, question p = .ok a ∧ question' q = .ok b ∧ post rename p a b)
      ∨ ∃ fault fault', question p = .error fault ∧ question' q = .error fault') :
    Both frame rename p q (Edit.ask question) (Edit.ask question') post := by
  unfold Both Edit.ask
  rcases answers with ⟨a, b, left, right, holds⟩ | ⟨_, _, left, right⟩
  · rw [left, right]
    exact ⟨rename, twins, .refl p rename, holds⟩
  · rw [left, right]
    trivial

theorem ask {α : Type} {question question' : Procedure → Except Fault α}
    (twins : Twins frame rename p q) (same : question' q = question p) :
    Both frame rename p q (Edit.ask question) (Edit.ask question') fun _ _ a b => b = a := by
  refine asks twins ?_
  rw [same]
  cases question p with
  | ok a => exact .inl ⟨a, a, rfl, rfl, rfl⟩
  | error fault => exact .inr ⟨fault, fault, rfl, rfl⟩

section Twins

variable (twins : Twins frame rename p q)

include twins

theorem node (id : NodeId) :
    Both frame rename p q (Edit.node id) (Edit.node id) fun rename' _ a b =>
      b.ty = a.ty ∧ b.impact = a.impact ∧ a.kind.Mirrors rename' b.kind := by
  refine asks twins ?_
  rcases twins.lookup id with ⟨node, kind, here, there, mirrors⟩ | ⟨fault, here, there⟩
  · exact .inl ⟨node, { node with kind }, here, there, rfl, rfl, mirrors⟩
  · exact .inr ⟨fault, fault, here, there⟩

theorem call (id : CallId) : Both frame rename p q (Edit.call id) (Edit.call id) fun _ _ a b => a.Twins b := by
  refine asks twins ?_
  rcases twins.calls id with ⟨data, data', here, there, both⟩ | ⟨fault, here, there⟩
  · exact .inl ⟨data, data', here, there, both⟩
  · exact .inr ⟨fault, fault, here, there⟩

theorem arg (id : CallId) (index : Nat) :
    Both frame rename p q (Edit.arg id index) (Edit.arg id index) fun _ _ a b => b.masked = a.masked := by
  refine asks twins ?_
  rcases twins.calls id with ⟨data, data', here, there, both⟩ | ⟨fault, here, there⟩
  · rw [here, there]
    exact both.list.answers index
  · rw [here, there]
    exact .inr ⟨fault, fault, rfl, rfl⟩

theorem addNode (ty : ValueType) (mirrors : kind.Mirrors rename other)
    (own : ∀ var, kind.accesses? = some var → frame.Own var ∧ var < p.locals.size) :
    Both frame rename p q (Edit.addNode kind ty) (Edit.addNode other ty) fun _ _ a b => b = a := by
  refine bind (ask twins (twins.impactOf mirrors fun var accesses => (own var accesses).2)) ?_
  intro rename' p' q' impact impact' ran twins' later same
  obtain ⟨_, rfl⟩ := ask_ok_iff.mp ran
  subst same
  have mirrors' := mirrors.congr fun var accesses => later.agree var (own var accesses).2
  exact ⟨rename', twins'.pushNode ty impact' mirrors' own, ⟨Nat.le_refl _, fun _ _ => rfl⟩, twins'.size⟩

theorem addPlain (ty : ValueType) (plain : kind.accesses? = none) : Same frame rename p q (Edit.addNode kind ty) :=
  addNode twins ty (.same kind plain) fun var accesses => by rw [plain] at accesses; cases accesses

theorem addLocal {var : LocalVar} :
    Both frame rename p q (Edit.addLocal var) (Edit.addLocal var) (Matched frame.toEra) := by
  have renames := twins.renames.pushBoth var
  have grown : p.locals.size ≤ (p.locals.push var).size := by
    rw [Array.size_push]
    exact Nat.le_succ _
  have agree : ∀ other < p.locals.size,
      Function.update rename p.locals.size q.locals.size other = rename other :=
    fun other mem => Function.update_of_ne (Nat.ne_of_lt mem) _ _
  refine ⟨_, twins.withLocals renames agree grown, ⟨grown, agree⟩, ?_, .inr twins.renames.within, ?_⟩
  · exact (Function.update_self p.locals.size q.locals.size rename).symm
  · change p.locals.size < (p.locals.push var).size
    rw [Array.size_push]
    exact Nat.lt_succ_self _

theorem addAccess {other' : LocalId} (matched : Matched frame.toEra rename p var other') (ty : ValueType)
    (mirrors : kind.Mirrors rename other) (accesses : kind.accesses? = some var) :
    Both frame rename p q (Edit.addNode kind ty) (Edit.addNode other ty) fun _ _ a b => b = a := by
  refine addNode twins ty mirrors fun own isVar => ?_
  cases accesses.symm.trans isVar
  exact ⟨matched.own, matched.declared⟩

section Matched

variable {other : LocalId} (matched : Matched frame.toEra rename p var other) (ty : ValueType)

include matched

theorem addStore (value : NodeId) :
    Both frame rename p q (Edit.addNode (.storeLocal var value) ty)
      (Edit.addNode (.storeLocal other value) ty) fun _ _ a b => b = a :=
  addAccess twins matched ty (matched.same ▸ .storeLocal var value) rfl

theorem addRead :
    Both frame rename p q (Edit.addNode (.readLocal var) ty) (Edit.addNode (.readLocal other) ty)
      fun _ _ a b => b = a :=
  addAccess twins matched ty (matched.same ▸ .readLocal var) rfl

theorem addFieldRead (offset : Nat) :
    Both frame rename p q (Edit.addNode (.readField var offset) ty)
      (Edit.addNode (.readField other offset) ty) fun _ _ a b => b = a :=
  addAccess twins matched ty (matched.same ▸ .readField var offset) rfl

end Matched

theorem replaceNode (id : NodeId) (ty : ValueType) (plain : kind.accesses? = none) :
    Same frame rename p q (Edit.replaceNode id kind ty) := by
  have mirrors : kind.Mirrors rename kind := .same kind plain
  refine bind (ask twins (twins.impactOf mirrors fun var accesses => by rw [plain] at accesses; cases accesses))
    fun impact impact' _ twins' _ same => ?_
  subst same
  refine bind (node twins' id) ?_
  intro rename'' p'' q'' old old' found twins'' _ _
  obtain ⟨here, rfl⟩ := node_ok found
  have mirrors : kind.Mirrors rename'' kind := .same kind plain
  have set : Twins frame rename'' (p''.setNode id { kind, ty, impact := impact' })
      (q''.setNode id { kind, ty, impact := impact' }) :=
    twins''.setNode here mirrors fun var accesses => by rw [plain] at accesses; cases accesses
  exact ⟨rename'', set.noteKind mirrors, ⟨Nat.le_refl _, fun _ _ => rfl⟩, rfl⟩

theorem refreshNode (id : NodeId) : Same frame rename p q (Edit.refreshNode id) := by
  refine bind (node twins id) ?_
  intro rename' p' q' old old' found twins' _ same
  obtain ⟨here, rfl⟩ := node_ok found
  obtain ⟨sameTy, _, mirrors⟩ := same
  have declared : ∀ var, old.kind.accesses? = some var → var < p'.locals.size :=
    fun var accesses => (twins'.accessed id old var here accesses).1
  refine bind (ask twins' (twins'.impactOf mirrors declared)) ?_
  intro rename'' p'' q'' impact impact' ran twins'' later same
  obtain ⟨_, rfl⟩ := ask_ok_iff.mp ran
  subst same
  have mirrors' := mirrors.congr fun var accesses => later.agree var (declared var accesses)
  have set : Twins frame rename'' (p'.setNode id { old with impact := impact' })
      (q''.setNode id { old' with impact := impact' }) := by
    rw [show ({ old' with impact := impact' } : Node) = { old with impact := impact', kind := old'.kind } by
      rw [← sameTy]]
    exact twins''.setNode here mirrors' fun _ accesses => accesses
  exact ⟨rename'', set, ⟨Nat.le_refl _, fun _ _ => rfl⟩, rfl⟩

theorem modifyCall {id : CallId} {step step' : Call → Call}
    (same : ∀ data data', p.calls[id]? = some data → data.Twins data' → (step data).Twins (step' data')) :
    Both frame rename p q (Edit.modifyCall id step) (Edit.modifyCall id step') fun _ _ a b => b = a := by
  refine bind (call twins id) ?_
  intro rename' p' q' data data' found twins' _ both
  obtain ⟨here, rfl⟩ := call_ok found
  exact ⟨rename', twins'.setCall id (same data data' here both), ⟨Nat.le_refl _, fun _ _ => rfl⟩, rfl⟩

theorem modifyArgs {id : CallId} {step step' : ArgList → Except Fault ArgList}
    (same : ∀ data data', p.calls[id]? = some data → data.Twins data' →
      (∃ list list', step data.args = .ok list ∧ step' data'.args = .ok list' ∧ list.Twins list')
        ∨ ∃ fault fault', step data.args = .error fault ∧ step' data'.args = .error fault') :
    Both frame rename p q (Edit.modifyArgs id step) (Edit.modifyArgs id step') fun _ _ a b => b = a := by
  refine bind (call twins id) ?_
  intro rename' p' q' data data' found twins' _ both
  obtain ⟨here, rfl⟩ := call_ok found
  rcases same data data' here both with ⟨list, list', left, right, listTwins⟩ | ⟨_, _, left, right⟩
  · have set : (({ data with args := list } : Call)).Twins { data' with args := list' } :=
      ⟨by rw [both.rest], listTwins⟩
    have asked : Edit.ask (fun _ => step data.args) p' = .ok list p' := ask_ok_iff.mpr ⟨left, rfl⟩
    have asked' : Edit.ask (fun _ => step' data'.args) q' = .ok list' q' := ask_ok_iff.mpr ⟨right, rfl⟩
    refine Alike.after asked asked' ?_
    exact ⟨rename', twins'.setCall id set, ⟨Nat.le_refl _, fun _ _ => rfl⟩, rfl⟩
  · unfold Both
    change Alike _ _ (EStateM.bind _ _ _) (EStateM.bind _ _ _)
    simp only [EStateM.bind, Edit.ask, left, right]
    trivial

theorem modifyArg (id : CallId) (index : Nat) {step step' : Argument → Argument}
    (same : ∀ arg arg', arg'.masked = arg.masked → (step' arg').masked = (step arg).masked) :
    Both frame rename p q (Edit.modifyArg id index step) (Edit.modifyArg id index step') fun _ _ a b => b = a := by
  refine modifyArgs twins fun data data' _ both => ?_
  rcases both.list.answers index with ⟨arg, arg', here, there, _⟩ | ⟨fault, fault', here, there⟩
  · rw [here, there]
    exact .inl ⟨_, _, rfl, rfl, both.list.modify index same⟩
  · rw [here, there]
    exact .inr ⟨fault, fault', rfl, rfl⟩

theorem cloneLeaf {ty : ValueType} (mirrors : kind.Mirrors rename other)
    (own : ∀ var, kind.accesses? = some var → frame.Own var ∧ var < p.locals.size) :
    Both frame rename p q (do pure (some (← Edit.addNode kind ty)))
      (do pure (some (← Edit.addNode other ty))) fun _ _ a b => b = a := by
  refine bind (addNode twins ty mirrors own) fun copy copy' _ twins' _ same => ?_
  exact done twins' (congrArg some same)

end Twins

section Clone

variable (twins : Twins frame rename p q) (forest : Forest p [id] seen) (live : ∀ node ∈ seen, frame.Live node)

include twins forest live

theorem cloneWithin (depth : Nat) : Same frame rename p q (Edit.cloneWithin depth id) := by
  induction depth generalizing id seen rename p q with
  | zero => trivial
  | succ depth ih =>
    unfold Edit.cloneWithin
    refine bind (node twins id) ?_
    intro rename' p' q' source source' found twins' _ same
    obtain ⟨here, rfl⟩ := node_ok found
    obtain ⟨sameTy, _, mirrors⟩ := same
    have own : ∀ var, source.kind.accesses? = some var → frame.Own var ∧ var < p'.locals.size :=
      fun var => twins'.live_own (live id (Spans.root_mem forest.spans (by simp))) here
    have atKind := p'.kindAt_of here rfl
    rw [sameTy]
    generalize source.kind = kind at mirrors own atKind
    generalize source'.kind = other at mirrors
    cases mirrors with
    | readLocal var => exact cloneLeaf twins' (.readLocal var) own
    | readField var offset => exact cloneLeaf twins' (.readField var offset) own
    | storeLocal var value => exact done twins' rfl
    | localAddr var other => exact cloneLeaf twins' (.localAddr var other) own
    | same _ plain =>
      cases kind with
      | binary op lhs rhs =>
        by_cases harmless : op.exceptions.isEmpty = true
        · simp only [if_pos harmless]
          obtain ⟨below, rfl, under, _⟩ := forest.plain atKind rfl
          obtain ⟨a, b, rfl, forestA, forestB, _⟩ := under.split [lhs] [rhs]
          refine bind (ih twins' forestA fun node mem => live node (by simp [mem]))
            fun left left' cloned twins₁ _ same => ?_
          subst same
          cases left' with
          | none => exact done twins₁ rfl
          | some left =>
            obtain ⟨_, grafts⟩ := (cloneWithin_ok cloned).grafts rfl forestA
            refine bind (ih twins₁ (forestB.added grafts.grown) fun node mem => live node (by simp [mem]))
              fun right right' _ twins₂ _ same => ?_
            subst same
            cases right' with
            | none => exact done twins₂ rfl
            | some right => exact cloneLeaf twins₂ (.same _ rfl) nofun
        · simp only [if_neg harmless]
          exact done twins' rfl
      | intConst _ | floatConst _ | localAddr _ => exact cloneLeaf twins' (.same _ rfl) nofun
      | readLocal _ | readField _ _ => cases plain
      | _ => exact done twins' rfl

theorem cloneSimple : Same frame rename p q (Edit.cloneSimple id) := by
  have both := cloneWithin twins forest live (p.nodes.size + 1)
  have right : Edit.cloneSimple id q = Edit.cloneWithin (p.nodes.size + 1) id q := by
    rw [← twins.size]
    rfl
  unfold Same Both
  rw [right]
  exact both

end Clone

end Edits

end Both

end CallLowering
