import CallLowering.Proofs.ShapedTrees
import CallLowering.Proofs.TwinFinalizing

/-!
Shaping twins at two levels of optimization. The first run takes a new local for every struct copy;
the second may take a free one, which then is the counterpart of the new local.
-/

namespace CallLowering

open Edit

open List

variable {tree : List NodeId} {var other : LocalId} {ty : ValueType} {data : Call} {id : CallId} {addr base : NodeId}
  {p' : Procedure}

def Settings.atLevel (settings : Settings) (level : OptLevel) : Settings :=
  { settings with options := { settings.options with optLevel := level } }

-- The frame that the pools of two states make of an era.
def Era.framed (era : Era) (s s' : LoweringState) : Frame :=
  { era with held := s.pool.held, free := s'.pool.available.members }

-- Twins whose pools hold counterparts in the same scopes.
structure Pairs (era : Era) (rename : LocalId → LocalId) (s s' : LoweringState) : Prop where
  twins : Twins (era.framed s s') rename s.proc s'.proc
  scopes : s'.pool.scopes = s.pool.scopes.map (List.map rename)

-- Steps that end well on both sides or on none, and leave pairs behind.
def Lockstep {α β : Type} (era : Era) (rename : LocalId → LocalId) (s s' : LoweringState) (x : Step α)
    (y : Step β) (post : (LocalId → LocalId) → Procedure → α → β → Prop) : Prop :=
  Alike (fun a t b t' => ∃ rename', Pairs era rename' t t' ∧ Later s.proc t.proc rename rename'
    ∧ post rename' t.proc a b) (fun _ _ _ _ => True) (x s) (y s')

namespace Renames

variable {frame : Frame} {rename : LocalId → LocalId} {vars others : Array LocalVar}

theorem repool (renames : Renames frame rename vars others) {held free : List LocalId}
    (isHeld : ∀ var ∈ held, frame.locals ≤ var ∧ ∃ ty, vars[var]? = some { ty, kind := .structCopy })
    (isFree : ∀ var ∈ free, frame.locals ≤ var ∧ (∃ ty, others[var]? = some { ty, kind := .structCopy })
      ∧ ∀ a, frame.madeLocals ≤ a → a < vars.size → rename a ≠ var) :
    Renames { frame with held, free } rename vars others :=
  { renames with held := isHeld, free := isFree }

theorem takeFree (renames : Renames frame rename vars others) {data : LocalVar} {left : List LocalId}
    (isFree : var ∈ frame.free) (here : others[var]? = some data) (hasType : data.ty = ty)
    (fewer : ∀ other ∈ left, other ∈ frame.free ∧ other ≠ var) :
    Renames { frame with free := left } (Function.update rename vars.size var)
      (vars.push { ty, kind := .structCopy }) others := by
  obtain ⟨isMade, ⟨own, known⟩, unused⟩ := renames.free var isFree
  have isCopy : data = { ty, kind := .structCopy } := by
    cases here.symm.trans known
    rw [← hasType]
  have before : Renames { frame with free := left } rename vars others :=
    renames.repool renames.held fun other mem => renames.free other (fewer other mem).1
  exact before.push (isCopy ▸ here) (fun _ _ here => here) isMade unused
    fun mem => (fewer var mem).2 rfl

end Renames

namespace Pairs

variable {era : Era} {rename : LocalId → LocalId} {s s' : LoweringState}

theorem scopes_later (pairs : Pairs era rename s s') {rename' : LocalId → LocalId}
    (later : Later s.proc p' rename rename') : s'.pool.scopes = s.pool.scopes.map (List.map rename') := by
  rw [pairs.scopes]
  refine map_congr_left fun scope mem => map_congr_left fun var held => ?_
  obtain ⟨_, _, here⟩ := pairs.twins.renames.held var (mem_flatten.mpr ⟨scope, mem, held⟩)
  exact (later.agree var (lt_size here)).symm

end Pairs

namespace Lockstep

variable {α β γ δ : Type} {era : Era} {rename : LocalId → LocalId} {s s' : LoweringState}
  {post : (LocalId → LocalId) → Procedure → α → β → Prop} {f : α → Step γ} {x : Step α}

theorem done {a : α} {b : β} (pairs : Pairs era rename s s') (holds : post rename s.proc a b) :
    Lockstep era rename s s' (pure a) (pure b) post :=
  ⟨rename, pairs, .refl _ rename, holds⟩

theorem bind {y : Step β} {g : β → Step δ}
    {middle : (LocalId → LocalId) → Procedure → α → β → Prop}
    {post : (LocalId → LocalId) → Procedure → γ → δ → Prop} (first : Lockstep era rename s s' x y middle)
    (next : ∀ {rename' t t'} a b, x s = .ok a t → Pairs era rename' t t' → Later s.proc t.proc rename rename' →
      middle rename' t.proc a b → Lockstep era rename' t t' (f a) (g b) post) :
    Lockstep era rename s s' (x >>= f) (y >>= g) post := by
  refine Alike.bind first ?_
  intro a t b t' ran _ ended
  obtain ⟨rename', pairs, later, holds⟩ := ended
  refine Alike.mono (next a b ran pairs later holds) ?_
  intro c u d u' _ _ last
  obtain ⟨rename'', pairs', later', holds'⟩ := last
  exact ⟨rename'', pairs', later.trans later', holds'⟩

theorem next {y : Step α} {g : α → Step δ} {post : (LocalId → LocalId) → Procedure → γ → δ → Prop}
    (first : Lockstep era rename s s' x y fun _ _ a b => b = a)
    (rest : ∀ {rename' t t'} a, x s = .ok a t → Pairs era rename' t t' → Later s.proc t.proc rename rename' →
      Lockstep era rename' t t' (f a) (g a) post) : Lockstep era rename s s' (x >>= f) (y >>= g) post :=
  bind first fun a _ ran pairs later same => same ▸ rest a ran pairs later

theorem attempt {x : Attempt α} {y : Attempt β} (pairs : Pairs era rename s s')
    (both : Both (era.framed s s') rename s.proc s'.proc x y post) :
    Lockstep era rename s s' (liftM x : Step α) (liftM y : Step β) post := by
  unfold Both at both
  unfold Lockstep
  simp only [liftM, monadLift, MonadLift.monadLift]
  cases left : x s.proc <;> cases right : y s'.proc <;> rw [left, right] at both
  · obtain ⟨rename', twins, later, holds⟩ := both
    exact ⟨rename', ⟨twins, pairs.scopes_later later⟩, later, holds⟩
  · exact False.elim both
  · exact False.elim both
  · trivial

theorem edit {x : Edit α} {y : Edit β} (pairs : Pairs era rename s s')
    (both : Both (era.framed s s') rename s.proc s'.proc x y post) :
    Lockstep era rename s s' (liftM x : Step α) (liftM y : Step β) post :=
  attempt pairs both.lift

end Lockstep

namespace Lockstep

variable {era : Era} {rename : LocalId → LocalId} {s s' : LoweringState}

theorem keep (pairs : Pairs era rename s s') (isMade : era.locals ≤ var)
    (isCopy : s.proc.locals[var]? = some { ty, kind := .structCopy }) :
    Alike (fun a t b t' => a = var ∧ b = rename var ∧ t.proc = s.proc ∧ Pairs era rename t t')
      (fun _ _ _ _ => True) (Step.keep s var) (Step.keep s' (rename var)) := by
  have scopes := pairs.scopes
  unfold Step.keep CopyPool.hold?
  cases isOpen : s.pool.scopes with
  | nil =>
    rw [isOpen] at scopes
    rw [scopes]
    trivial
  | cons inner rest =>
    rw [isOpen] at scopes
    rw [scopes]
    refine ⟨rfl, rfl, rfl, ?_, ?_⟩
    · have renames := pairs.twins.renames
      refine { pairs.twins with renames := renames.repool ?_ renames.free }
      intro other isHeld
      have cases : other = var ∨ other ∈ s.pool.held := by
        simp only [CopyPool.held, isOpen, flatten_cons, mem_append, mem_singleton] at isHeld ⊢
        rcases isHeld with (inInner | isNew) | inRest
        · exact .inr (.inl inInner)
        · exact .inl isNew
        · exact .inr (.inr inRest)
      rcases cases with rfl | before
      · exact ⟨isMade, ty, isCopy⟩
      · exact renames.held other before
    · simp only [map_cons, map_append, map_nil]

theorem taken (pairs : Pairs era rename s s') {target : LocalId} {u' : LoweringState}
    {others : Array LocalVar} (sameProc : u'.proc = { s'.proc with locals := others })
    (sameScopes : u'.pool.scopes = s'.pool.scopes)
    (renamed : Renames { era.framed s s' with free := u'.pool.available.members }
      (Function.update rename s.proc.locals.size target) (s.proc.locals.push { ty, kind := .structCopy }) others) :
    Lockstep era rename s s' (fun s => Step.keep { s with
        proc := { s.proc with locals := s.proc.locals.push { ty, kind := .structCopy } } } s.proc.locals.size)
      (fun _ => Step.keep u' target) (Matched era) := by
  have renames := pairs.twins.renames
  have size : (s.proc.locals.push { ty, kind := .structCopy }).size = s.proc.locals.size + 1 := Array.size_push _
  have grown : s.proc.locals.size ≤ (s.proc.locals.push { ty, kind := .structCopy }).size := by omega
  have agree : ∀ other < s.proc.locals.size,
      Function.update rename s.proc.locals.size target other = rename other :=
    fun other mem => Function.update_of_ne (Nat.ne_of_lt mem) _ _
  have isTarget : Function.update rename s.proc.locals.size target s.proc.locals.size = target :=
    Function.update_self _ _ _
  have twins := pairs.twins.withLocals renamed agree grown
  rw [← sameProc] at twins
  have later : Later s.proc { s.proc with locals := s.proc.locals.push { ty, kind := .structCopy } } rename
      (Function.update rename s.proc.locals.size target) := ⟨grown, agree⟩
  have now : Pairs era (Function.update rename s.proc.locals.size target) { s with
      proc := { s.proc with locals := s.proc.locals.push { ty, kind := .structCopy } } } u' :=
    ⟨twins, sameScopes.trans (pairs.scopes_later later)⟩
  have both := keep now (renames.ordered.trans renames.within) (Array.getElem?_push_size)
  rw [isTarget] at both
  refine Alike.mono both ?_
  intro a t b t' _ _ ended
  obtain ⟨rfl, rfl, sameProc, pairs'⟩ := ended
  refine ⟨_, pairs', sameProc ▸ later, isTarget.symm, .inr renames.within, ?_⟩
  rw [sameProc]
  exact Nat.lt_of_lt_of_eq (Nat.lt_succ_self _) size.symm

theorem structCopy (pairs : Pairs era rename s s') (settings : Settings) (ty : ValueType) :
    Lockstep era rename s s' (Step.structCopy (settings.atLevel .minimal) ty)
      (Step.structCopy (settings.atLevel .full) ty) (Matched era) := by
  have renames := pairs.twins.renames
  unfold Lockstep
  unfold Step.structCopy
  have unshared : (settings.atLevel .minimal).sharesCopies = false := rfl
  have shared : (settings.atLevel .full).sharesCopies = true := rfl
  simp only [unshared, shared, if_true, Bool.false_eq_true, if_false]
  cases reuses : s'.pool.reuse? (fun var => s'.proc.locals[var]?.any fun data => data.ty == ty) with
  | none =>
    have now : Lockstep era rename s s' _ (fun _ => Step.keep { s' with
        proc := { s'.proc with locals := s'.proc.locals.push { ty, kind := .structCopy } } }
        s'.proc.locals.size) (Matched era) := taken pairs rfl rfl (renames.pushBoth _)
    exact now
  | some found =>
    obtain ⟨var, pool⟩ := found
    obtain ⟨isFree, accepted, _, rfl⟩ := CopyPool.reuse_some reuses
    obtain ⟨data, here, hasType⟩ := (Option.any_eq_true _ _).mp accepted
    have fewer : ∀ other ∈ (s'.pool.available.erase var).members,
        other ∈ s'.pool.available.members ∧ other ≠ var := by
      intro other left
      obtain ⟨mem, different⟩ := mem_filter.mp left
      exact ⟨mem, of_decide_eq_true different⟩
    have now : Lockstep era rename s s' _ (fun _ => Step.keep { s' with
        pool := { s'.pool with available := s'.pool.available.erase var } } var) (Matched era) :=
      taken pairs rfl rfl (renames.takeFree isFree here (beq_iff_eq.mp hasType) fewer)
    exact now

end Lockstep

namespace Both

open Shape

variable {frame : Frame} {rename : LocalId → LocalId} {p q : Procedure}

variable (twins : Twins frame rename p q)

include twins

theorem localFields (matched : Matched frame.toEra rename p var other) (base : Nat) (pieces : List Piece) :
    Both frame rename p q (Shape.localFields var base pieces) (Shape.localFields other base pieces)
      fun _ _ a b => b = a := by
  refine bind (mapM (fun rename p => Matched frame.toEra rename p var other)
    (fun _ _ _ _ _ _ _ matched _ later => matched.later later) ?_ matched twins) ?_
  · intro piece _ rename p q matched twins
    refine next (ask twins rfl) fun offset _ twins₁ later₁ => ?_
    refine next (addFieldRead twins₁ (matched.later later₁) piece.ty offset) fun read _ twins₂ _ => ?_
    exact done twins₂ rfl
  · intro rename₁ p₁ q₁ _ uses _ twins₁ _ same
    subst same
    exact addPlain twins₁ .void rfl

theorem fieldAddr (base : NodeId) (offset : Nat) : Same frame rename p q (Shape.fieldAddr base offset) := by
  unfold Shape.fieldAddr
  by_cases atBase : offset = 0
  · simp only [if_pos atBase]
    exact done twins rfl
  · simp only [if_neg atBase]
    refine next (addPlain twins .ptr rfl) fun amount _ twins₁ _ => ?_
    exact addPlain twins₁ .ptr rfl

theorem loadThrough (start : NodeId) (nonFaulting : Bool) (piece : Piece) :
    Same frame rename p q (Shape.loadThrough start nonFaulting piece) := by
  refine next (fieldAddr twins start piece.offset) fun addr _ twins₁ _ => ?_
  refine next (addPlain twins₁ piece.ty rfl) fun load _ twins₂ _ => ?_
  exact done twins₂ rfl

theorem loadPiece (atBase : Forest p [base] tree)
    (live : ∀ node ∈ tree, frame.Live node) (id : CallId) (nonFaulting : Bool) (index : Nat) (piece : Piece) :
    Same frame rename p q (Shape.loadPiece id base nonFaulting index piece) := by
  have start : Same frame rename p q (Shape.pieceBase id base index) := by
    unfold Shape.pieceBase
    split
    · exact done twins rfl
    · refine next (cloneSimple twins atBase live).lift fun start _ twins₁ _ => ?_
      cases start with
      | none => trivial
      | some start => exact done twins₁ rfl
  exact next start fun start _ twins₁ _ => (loadThrough twins₁ start nonFaulting piece).lift

theorem hoistAddr (addr : NodeId) : Same frame rename p q (Shape.hoistAddr addr) := by
  refine bind (node twins addr) fun old old' _ twins₁ _ same => ?_
  have samePlain : isPlainAddr old'.kind = isPlainAddr old.kind := by
    obtain ⟨_, _, mirrors⟩ := same
    generalize old.kind = kind at mirrors
    generalize old'.kind = other at mirrors
    cases mirrors <;> rfl
  rw [samePlain]
  by_cases isPlain : isPlainAddr old.kind = true
  · simp only [if_pos isPlain]
    exact done twins₁ rfl
  · simp only [if_neg isPlain]
    refine bind (addLocal twins₁) fun temp temp' _ twins₂ _ matched => ?_
    refine next (addStore twins₂ matched .void addr) fun store _ twins₃ later₃ => ?_
    refine next (addRead twins₃ (matched.later later₃) .ptr) fun read _ twins₄ _ => ?_
    exact done twins₄ rfl

theorem hoistAddr_live {hoisted : Option NodeId} (atAddr : Forest p [addr] tree)
    (live : ∀ node ∈ tree, frame.Live node) (ran : Shape.hoistAddr addr p = .ok (hoisted, base) p') :
    ∃ under, Forest p' [base] under ∧ ∀ node ∈ under, frame.Live node := by
  obtain ⟨_, _, ⟨_, _, rfl, rfl⟩ | ⟨_, temp, store, m, m', declared, stored, read, _⟩⟩ := hoistAddr_ok ran
  · exact ⟨tree, atAddr, live⟩
  · refine ⟨[base], addNode_forest read rfl (Forest.nil _), fun node mem => ?_⟩
    obtain ⟨isNew, _⟩ := addNode_kindAt read
    have before := (addLocal_adds declared).trans (addNode_adds stored)
    rw [mem_singleton.mp mem, isNew]
    exact twins.live_new before.size_le

theorem loadFields (atAddr : Forest p [addr] tree)
    (live : ∀ node ∈ tree, frame.Live node) (id : CallId) (nonFaulting : Bool) (pieces : List Piece) :
    Same frame rename p q (Shape.loadFields id addr nonFaulting pieces) := by
  refine next (hoistAddr twins addr).lift fun result ran twins₁ _ => ?_
  obtain ⟨hoisted, base⟩ := result
  obtain ⟨under, atBase, liveBase⟩ := hoistAddr_live twins atAddr live (lift_edit_ok_iff.mp ran)
  refine bind (mapM (fun _ p => Forest p [base] under) ?_ ?_ atBase twins₁) ?_
  · intro item _ rename p field rename' p' atBase loaded _
    exact atBase.added (loadPiece_adds loaded)
  · intro item _ rename p q atBase twins
    exact loadPiece twins atBase liveBase id nonFaulting item.2 item.1
  · intro rename₂ p₂ q₂ _ uses _ twins₂ _ same
    subst same
    refine next (addPlain twins₂ .void rfl).lift fun list _ twins₃ _ => ?_
    cases hoisted with
    | some store => exact (addPlain twins₃ .void rfl).lift
    | none => exact done twins₃ rfl

theorem setCopy (id : CallId) (index : Nat) (copy copy' : LocalId) (early late : NodeId) :
    Both frame rename p q (Shape.setCopy id index copy early late) (Shape.setCopy id index copy' early late)
      fun _ _ a b => b = a :=
  modifyArg twins id index fun _ _ same => (congrArg (·.viaTemp 0 early late) same :)

theorem setEarly (id : CallId) (index : Nat) (value : NodeId) :
    Same frame rename p q (Shape.setEarly id index value) :=
  modifyArg twins id index fun _ _ same =>
    congrArg (fun arg : Argument => { arg with early := some value }) same

end Both

namespace Lockstep

open Shape

variable {era : Era} {rename : LocalId → LocalId} {s s' : LoweringState} {index : Nat}

theorem given {α : Type} (pairs : Pairs era rename s s') {x : Except Fault α} :
    Lockstep era rename s s' (liftM x : Step α) (liftM x : Step α) fun _ _ a b => b = a := by
  cases x with
  | ok a => exact done pairs rfl
  | error fault => trivial

section Pairs

variable (pairs : Pairs era rename s s')

include pairs

theorem passCopy (settings : Settings) (id : CallId) (index : Nat) (ty : ValueType) (value : NodeId)
    {use : LocalId → Edit NodeId}
    (uses : ∀ {frame : Frame} {rename p q copy copy'}, Twins frame rename p q →
      Matched frame.toEra rename p copy copy' →
      Both frame rename p q (use copy) (use copy') fun _ _ a b => b = a) :
    Lockstep era rename s s' (Shape.passCopy (settings.atLevel .minimal) id index ty value use)
      (Shape.passCopy (settings.atLevel .full) id index ty value use) fun _ _ a b => b = a := by
  refine bind (structCopy pairs settings ty) fun copy copy' _ pairs₁ _ matched => ?_
  refine next (edit pairs₁ (.addStore pairs₁.twins matched .void value)) fun store _ pairs₂ later₂ => ?_
  refine next (edit pairs₂ (uses pairs₂.twins (matched.later later₂))) fun late _ pairs₃ _ => ?_
  exact edit pairs₃ (.setCopy pairs₃.twins id index copy copy' store late)

theorem spreadLocal (matched : Matched era rename s.proc var other) (id : CallId) (index base : Nat)
    (pieces : List Piece) :
    Lockstep era rename s s' (do
        let list ← Shape.localFields var base pieces
        Shape.setEarly id index list : Step Unit)
      (do
        let list ← Shape.localFields other base pieces
        Shape.setEarly id index list : Step Unit) fun _ _ a b => b = a := by
  refine next (edit pairs (.localFields pairs.twins matched base pieces)) fun list _ pairs₁ _ => ?_
  exact edit pairs₁ (.setEarly pairs₁.twins id index list)

theorem decompose (settings : Settings) (id : CallId) (index : Nat) {value : NodeId} (pieces : List Piece)
    (atTree : Forest s.proc [value] tree) (live : ∀ node ∈ tree, era.Live node) :
    Lockstep era rename s s' (Shape.decompose (settings.atLevel .minimal) id index ty value pieces)
      (Shape.decompose (settings.atLevel .full) id index ty value pieces) fun _ _ a b => b = a := by
  refine bind (edit pairs (.node pairs.twins value)) fun data data' asked pairs₁ _ same => ?_
  obtain ⟨_, found, rfl⟩ := lift_step_edit_ok_iff.mp asked
  obtain ⟨here, rfl⟩ := node_ok found
  obtain ⟨_, _, mirrors⟩ := same
  have atKind := s.proc.kindAt_of here rfl
  have own : ∀ var, data.kind.accesses? = some var → era.Own var ∧ var < s.proc.locals.size :=
    fun var => pairs₁.twins.live_own (live value (Spans.root_mem atTree.spans (by simp))) here
  have copied := passCopy pairs₁ settings id index ty value fun twins matched => .localFields twins matched 0 pieces
  generalize data.kind = kind at mirrors atKind own
  generalize data'.kind = other at mirrors
  cases mirrors with
  | readLocal var => exact spreadLocal pairs₁ ⟨rfl, (own var rfl).1, (own var rfl).2⟩ id index 0 pieces
  | readField var offset =>
    exact spreadLocal pairs₁ ⟨rfl, (own var rfl).1, (own var rfl).2⟩ id index offset pieces
  | storeLocal _ _ | localAddr _ _ => exact copied
  | same _ plain =>
    cases kind with
    | fieldList _ => exact done pairs₁ rfl
    | readLocal _ | readField _ _ => cases plain
    | load addr nonFaulting =>
      obtain ⟨below, rfl, under, _⟩ := atTree.plain atKind rfl
      refine next (attempt pairs₁ (.loadFields pairs₁.twins under
        (fun node mem => live node (mem_append_left _ mem)) id nonFaulting pieces)) fun list _ pairs₂ _ => ?_
      exact edit pairs₂ (.setEarly pairs₂.twins id index list)
    | _ => exact copied

theorem shapeArg (settings : Settings)
    (trees : ∀ (data : Call) (arg : Argument) (value : NodeId), s.proc.calls[id]? = some data →
      data.args.args[index]? = some arg → arg.early = some value →
      ∃ tree, Forest s.proc [value] tree ∧ ∀ node ∈ tree, era.Live node) :
    Lockstep era rename s s' (Shape.shapeArg (settings.atLevel .minimal) id index)
      (Shape.shapeArg (settings.atLevel .full) id index) fun _ _ a b => b = a := by
  refine bind (edit pairs (.arg pairs.twins id index)) fun arg arg' asked pairs₁ _ same => ?_
  obtain ⟨_, found, rfl⟩ := lift_step_edit_ok_iff.mp asked
  obtain ⟨data, here, atIndex, rfl⟩ := arg_ok found
  rw [Argument.masked_read same Argument.ty fun _ => rfl, Argument.masked_read same Argument.early fun _ => rfl,
    Argument.masked_read same Argument.late fun _ => rfl,
    Argument.masked_read same Argument.placement fun _ => rfl]
  cases arg.ty with
  | struct struct =>
    cases hasEarly : arg.early with
    | none => exact done pairs₁ rfl
    | some value =>
      cases arg.late with
      | some _ => exact done pairs₁ rfl
      | none =>
        obtain ⟨tree, atTree, live⟩ := trees data arg value here atIndex hasEarly
        refine next (given pairs₁) fun layout known pairs₂ _ => ?_
        obtain ⟨_, rfl⟩ := (lift_fault_ok_iff _ _ _ _).mp known
        by_cases indirect : arg.placement.byRef = true
        · rw [if_pos indirect, if_pos indirect]
          exact passCopy pairs₂ settings id index _ value fun twins _ => .addNode twins .ptr (.localAddr _ _) nofun
        · rw [if_neg indirect, if_neg indirect]
          by_cases several : arg.placement.isMulti = true
          · rw [if_pos several, if_pos several]
            refine next (given pairs₂) fun pieces cut pairs₃ _ => ?_
            obtain ⟨_, rfl⟩ := (lift_fault_ok_iff _ _ _ _).mp cut
            exact decompose pairs₃ settings id index pieces atTree live
          · rw [if_neg several, if_neg several]
            exact done pairs₂ rfl
  | _ => exact done pairs₁ rfl

end Pairs

-- Before its turn a slot is as it was, and shaping others adds nodes only.
structure Waits (id : CallId) (data : Call) (index : Nat) (p q : Procedure) : Prop where
  grown : Reworks id p q
  slots : ∃ args, q.calls[id]? = some (data.withArgs args)
    ∧ ∀ later, index ≤ later → args[later]? = data.args.args[later]?

theorem Waits.next {p : Procedure} {settings : Settings} {t u : LoweringState}
    (waits : Waits id data index p t.proc) (bound : index < data.args.size)
    (shaped : Shape.shapeArg settings id index t = .ok () u) : Waits id data (index + 1) p u.proc := by
  obtain ⟨args, here, same⟩ := waits.slots
  have atIndex := (same index (Nat.le_refl _)).trans (getElem?_eq_getElem bound)
  obtain ⟨grown, after, now, _⟩ := shapeArg_slot here atIndex shaped
  refine ⟨waits.grown.trans grown, _, now, ?_⟩
  intro later isLater
  change (args.set index after)[later]? = _
  rw [getElem?_set_ne (Nat.ne_of_lt isLater)]
  exact same later (Nat.le_of_succ_le isLater)

theorem shapeArgs {seen : List NodeId} (pairs : Pairs era rename s s')
    (settings : Settings) (holds : Holds s.proc id data seen) (live : ∀ node ∈ seen, era.Live node) :
    Alike (fun _ t _ t' => ∃ rename', Pairs era rename' t t') (fun _ _ _ _ => True)
      (Shape.shapeArgs (settings.atLevel .minimal) id s) (Shape.shapeArgs (settings.atLevel .full) id s') := by
  obtain ⟨data', here', both⟩ := pairs.twins.call id data holds.here
  refine Alike.after (Step.asks (call_answers holds.here))
    (Step.asks (call_answers here')) ?_
  rw [both.list.size]
  have start : Waits id data 0 s.proc s.proc := ⟨.refl, data.args.args, holds.here, fun _ _ => rfl⟩
  refine Alike.mono (Alike.forM_range (fun index t t' => Waits id data index s.proc t.proc
    ∧ ∃ rename', Pairs era rename' t t') ⟨start, rename, pairs⟩ ?_) ?_
  · intro index t t' bound _ now
    obtain ⟨waits, rename', pairs'⟩ := now
    obtain ⟨args, here, same⟩ := waits.slots
    refine Alike.mono (shapeArg pairs' settings fun now arg value atCall atIndex hasEarly => ?_) ?_
    · cases here.symm.trans atCall
      have isArg : data.args.args[index]? = some arg := (same index (Nat.le_refl _)).symm.trans atIndex
      obtain ⟨tree, atTree, apart, mem⟩ := holds.treeOf (mem_of_getElem? isArg) hasEarly
      refine ⟨tree, atTree.frame waits.grown (fun _ _ => not_false) ?_, fun node met => live node (mem node met)⟩
      intro call inTree isId
      exact apart (isId ▸ inTree)
    · intro _ u _ u' shaped _ ended
      obtain ⟨rename'', pairs'', _⟩ := ended
      exact ⟨waits.next bound shaped, rename'', pairs''⟩
  · intro _ t _ t' _ _ ended
    exact ended.2

end Lockstep

end CallLowering
