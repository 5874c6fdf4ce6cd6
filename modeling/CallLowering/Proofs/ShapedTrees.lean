import CallLowering.Proofs.Grafting
import CallLowering.Proofs.Pooling
import CallLowering.Proofs.Slots

/-! Shaping rewrites the tree of one struct argument at a time. -/

namespace CallLowering

open Edit

open List

variable {value list store addr result late : NodeId} {q p u m proc : Procedure} {tree made roots : List NodeId}
  {id : CallId} {ty storeTy : ValueType} {after before : Argument} {copies : List LocalId} {nonFaulting : Bool}
  {settings : Settings} {var copy : LocalId} {data : Call} {pieces : List Piece} {s t : LoweringState}
  {kind : NodeKind}

-- Another tree takes the place of one, without a store to a copy.
structure Spread (p q : Procedure) (tree : List NodeId) (list : NodeId) (after : List NodeId) :
    Prop where
  grown : Adds p q
  forest : Forest q [list] after
  carries : Carries p q tree after []
  done : Done p tree → Done q after

section Slots

variable {call : CallId} {p m q : Procedure} {tree early late : List NodeId} {after : Argument}
  {copies : List LocalId}

theorem SlotStep.ofEdits (edited : Extends (· ∈ tree) (fun _ => False) p m) (apart : call ∉ p.callsIn tree)
    (validTree : ∀ id ∈ tree, id < p.nodes.size) (atEarly : Forest m after.early.toList early)
    (atLate : Forest m after.late.toList late) (once : (early ++ late).Nodup)
    (carries : Carries p m tree (early ++ late) copies) (done : Done p tree → Done m (early ++ late))
    (set : q = m.setCall call data) : SlotStep call p q tree after early late copies := by
  have grown := setCall_extends set
  have outside : call ∉ m.callsIn (early ++ late) := by
    rw [carries.callsIn.mem_iff, edited.callsIn validTree]
    exact apart
  have outsideEarly : ∀ other ∈ m.callsIn early, ¬ other = call := fun other mem same => by
    rw [m.callsIn_append] at outside
    exact outside (mem_append_left _ (same ▸ mem))
  have outsideLate : ∀ other ∈ m.callsIn late, ¬ other = call := fun other mem same => by
    rw [m.callsIn_append] at outside
    exact outside (mem_append_right _ (same ▸ mem))
  refine ⟨?_, ?_, ?_, once, ?_, ?_⟩
  · exact (edited.mono (fun _ mem => mem) (fun _ => False.elim)).trans grown
      (fun _ mem _ => mem.elim) (fun _ same => same)
  · exact atEarly.frame grown (fun _ _ => not_false) outsideEarly
  · exact atLate.frame grown (fun _ _ => not_false) outsideLate
  · exact carries.later (by rw [set]; rfl) (by rw [set]; rfl)
  · intro before
    have made := done before
    have first := (made.subset fun id met => mem_append_left _ met).frame atEarly grown
      (fun _ _ => not_false) outsideEarly
    have second := (made.subset fun id met => mem_append_right _ met).frame atLate grown
      (fun _ _ => not_false) outsideLate
    exact first.append second

theorem Spread.slot {after : List NodeId} (spread : Spread p m tree list after) {arg : Argument}
    (loose : arg.late = none) (validTree : ∀ id ∈ tree, id < p.nodes.size) (apart : call ∉ p.callsIn tree)
    (set : q = m.setCall call data) : SlotStep call p q tree { arg with early := some list } after [] []
      ∧ ∀ var ∈ q.storedIn tree, var ∈ q.storedIn after := by
  have noLate : Forest m ({ arg with early := some list } : Argument).late.toList [] := by
    simp only [loose, Option.toList_none]
    exact Forest.nil m
  have carries : Carries p m tree (after ++ []) [] := by
    rw [append_nil]
    exact spread.carries
  refine ⟨SlotStep.ofEdits spread.grown.anywhere apart validTree spread.forest noLate ?_ carries ?_
    set, (spread.carries.later (r := q) (by rw [set]; rfl) (by rw [set]; rfl)).stored⟩
  · rw [append_nil]
    exact spread.forest.once
  · intro done
    rw [append_nil]
    exact spread.done done

theorem stored_carries (atTree : Forest p [value] tree) (before : Adds p u)
    (stored : Edit.addNode (.storeLocal var value) ty u = .ok store m) (reads : Grafts m q [] roots made (· = var))
    (target : List.Perm [some var] ((q.tempsFrom p.locals.size ++ copies).map some)) :
    Forest q [store] (tree ++ [store]) ∧ (tree ++ [store] ++ made).Nodup
      ∧ Carries p q tree (tree ++ [store] ++ made) copies
      ∧ (Done p tree → Done q (tree ++ [store] ++ made)) := by
  have storing := addNode_adds stored
  obtain ⟨new, here⟩ := addNode_kindAt stored
  have topped : Forest m [store] (tree ++ [store]) := addNode_forest stored rfl (atTree.added before)
  have storeNew : p.nodes.size ≤ store := new ▸ before.size_le
  have atStore : q.storeAt store = some var := by
    rw [reads.grown.storeAt (topped.valid store (by simp)), m.storeAt_eq here]
    rfl
  have storeActs : q.actsAt store = true := by
    rw [reads.grown.actsAt (topped.valid store (by simp)), m.actsAt_eq here]
    rfl
  have noMention : q.mentionAt store = none := by
    rw [reads.grown.mentionAt (topped.valid store (by simp)), m.mentionAt_eq here]
    rfl
  refine ⟨topped.added reads.grown, ?_, ?_, ?_⟩
  · refine nodup_append'.mpr ⟨topped.once, ?_, ?_⟩
    · exact reads.forest.once
    · intro id mem met
      exact Nat.lt_irrefl _ (Nat.lt_of_lt_of_le (topped.valid id mem) (reads.new id met))
  · rw [append_assoc]
    apply Carries.extend
    · intro id met
      rcases mem_cons.mp met with rfl | later
      · exact storeNew
      · exact Nat.le_trans (before.trans storing).size_le (reads.new id later)
    · simpa [filter_cons, storeActs, reads.acting, atStore] using target
    · intro known _
      refine ⟨by simp [noMention], ?_⟩
      exact reads.reads_known fun var same => .inr (same ▸ atStore)
  · intro done
    have doneStore := addNode_done stored rfl (atTree.added before)
      (done.added atTree before)
    exact (doneStore.added topped reads.grown).append (reads.done (Done.nil m))

section Spilled

variable {temp : LocalId} (atTree : Forest p [value] tree)
  (fresh : Edit.addLocal { ty, kind := .argTemp } p = .ok temp u)
  (stored : Edit.addNode (.storeLocal temp value) storeTy u = .ok store m)

include atTree fresh stored

theorem spilled_carries (reads : Grafts m q [] roots made (· = temp)) :
    Adds p q ∧ q.tempsFrom p.locals.size = [temp] ∧ Forest q [store] (tree ++ [store])
      ∧ (tree ++ [store] ++ made).Nodup ∧ Carries p q tree (tree ++ [store] ++ made) []
      ∧ (Done p tree → Done q (tree ++ [store] ++ made)) := by
  have before := addLocal_adds fresh
  have temps : q.tempsFrom p.locals.size = [temp] := by
    have sameLocals : q.locals = u.locals := by
      obtain ⟨_, _, _, same⟩ := addNode_ok stored
      rw [reads.sameLocals, same]
      rfl
    rw [Procedure.tempsFrom_congr u q sameLocals, addLocal_tempsFrom fresh, if_pos rfl]
  refine ⟨(before.trans (addNode_adds stored)).trans reads.grown, temps, ?_⟩
  apply stored_carries atTree before stored reads
  rw [temps]
  exact .refl _

theorem spilled_joined {r : Procedure} {joinTy : ValueType} (reads : Grafts m q [] [list] made (· = temp))
    (joined : Edit.addNode (.comma store list) joinTy q = .ok result r) :
    Spread p r tree result (tree ++ [store] ++ made ++ [result]) := by
  obtain ⟨grown, _, atStore, once, carries, done⟩ := spilled_carries atTree fresh stored reads
  have both : Forest q [store, list] (tree ++ [store] ++ made) := by
    apply atStore.append reads.forest
    · exact (nodup_append'.mp once).2.2
    · rw [nil_append, q.quiet_callsIn reads.quiet]
      simp
  have top : Grafts q r (tree ++ [store] ++ made) [result] [result] (fun _ => False) :=
    (Grafts.start both).node joined rfl (by simp [NodeKind.mentionsLocal?])
  have last : Carries q r (tree ++ [store] ++ made) (tree ++ [store] ++ made ++ [result]) [] := by
    have carries := top.carries [] (fun _ met => absurd met not_mem_nil) (fun _ _ _ => False.elim)
    rwa [append_nil] at carries
  exact ⟨grown.trans top.grown, top.forest,
    carries.trans last grown top.grown atTree.valid both.valid, fun before => top.done (done before)⟩

end Spilled

end Slots

theorem Step.structCopy_tempsFrom (done : structCopy settings ty s = .ok var t) :
    t.proc.tempsFrom s.proc.locals.size = [] := by
  cases (structCopy_ok done).1 with
  | reused _ _ _ _ same _ => exact same ▸ s.proc.tempsFrom_self
  | fresh _ _ made _ => exact made ▸ addLocal_tempsFrom rfl

namespace Shape

open Edit

theorem localFields_spread {base : Nat} (atTree : Forest p [value] tree) (here : p.kindAt value = some kind)
    (isRead : kind.readsLocal? = some var) (done : localFields var base pieces p = .ok list q) :
    ∃ after, Spread p q tree list after := by
  obtain ⟨made, grafts⟩ := localFields_grafts done
  have facts : kind.call? = none ∧ kind.children = [] ∧ kind.acts = false
      ∧ kind.mentionsLocal? = some var := by
    cases kind with
    | readLocal other => exact ⟨rfl, rfl, rfl, isRead⟩
    | readField other offset => exact ⟨rfl, rfl, rfl, isRead⟩
    | _ => cases isRead
  obtain ⟨isPlain, childless, isQuiet, mentions⟩ := facts
  cases atTree.atLeaf here isPlain childless
  have bound := p.kindAt_lt here
  refine ⟨made, grafts.grown, grafts.forest, ?_, fun _ => grafts.done (Done.nil p)⟩
  apply grafts.carries [value]
  · intro other met
    rw [mem_singleton.mp met, grafts.grown.actsAt bound, p.actsAt_eq here, isQuiet]
  · intro known reads other same
    refine .inl (reads.1 other ?_)
    rw [same, grafts.grown.mentionAt bound, p.mentionAt_eq here, mentions]

section Loads

variable (atTree : Forest p [value] tree) (here : p.kindAt value = some (.load addr nonFaulting))
  {uses : List FieldUse}

include atTree here

theorem loadFields_plain (atAddr : p.kindAt addr = some kind)
    (isPlain : isPlainAddr kind = true)
    (loaded : (pieces.zipIdx.mapM (fun (piece, index) => loadPiece id addr nonFaulting index piece) :
      Attempt (List FieldUse)) p = .ok uses m) (made : addNode (.fieldList uses) .void m = .ok list q) :
    ∃ after, Spread p q tree list after := by
  obtain ⟨below, rfl, under, _⟩ := atTree.plain here rfl
  have facts : kind.call? = none ∧ kind.children = [] ∧ kind.acts = false := by
    cases kind with
    | readLocal var => exact ⟨rfl, rfl, rfl⟩
    | localAddr var => exact ⟨rfl, rfl, rfl⟩
    | _ => cases isPlain
  obtain ⟨noCall, childless, isQuiet⟩ := facts
  have atBelow : Forest p [addr] below := under
  cases atBelow.atLeaf atAddr noCall childless
  have valueQuiet : p.actsAt value = false := p.actsAt_eq here
  have addrQuiet : p.actsAt addr = false := (p.actsAt_eq atAddr).trans isQuiet
  have valid := atTree.valid
  rcases loadPieces_grafts atBelow loaded with
    ⟨rfl, rfl⟩ | ⟨loads, grafts⟩
  · -- Without a piece nothing is left of the value but an empty list.
    have grafts : Grafts m q [] [list] [list] (fun _ => False) :=
      Grafts.leaf made rfl rfl (by simp [NodeKind.mentionsLocal?])
    refine ⟨[list], grafts.grown, grafts.forest, ?_, fun _ => grafts.done (Done.nil m)⟩
    apply grafts.carries ([addr] ++ [value])
    · intro other met
      rw [grafts.grown.actsAt (valid other met)]
      rcases mem_append.mp met with atFirst | atLast
      · rw [mem_singleton.mp atFirst, addrQuiet]
      · rw [mem_singleton.mp atLast, valueQuiet]
    · exact fun _ _ _ => False.elim
  · have grafts := grafts.node made rfl (by simp [NodeKind.mentionsLocal?])
    refine ⟨_, grafts.grown, grafts.forest, ?_, fun done => grafts.done (done.subset fun other met => ?_)⟩
    · apply grafts.carries [value]
      · intro other met
        rw [mem_singleton.mp met, grafts.grown.actsAt (valid value (by simp)), valueQuiet]
      · intro known reads var mentioned
        obtain ⟨other, mem, atOther⟩ := mentioned
        have before := ((q.reads_append known [addr] [value]).mp reads).1
        apply q.reads_mention before mem var
        rw [grafts.grown.mentionAt (atBelow.valid other mem), atOther]
    · exact mem_append_left _ met

theorem loadFields_hoisted {m₁ m₂ m₃ : Procedure} {base : NodeId} {temp : LocalId}
    (made : Edit.addLocal { ty := .ptr, kind := .argTemp } p = .ok temp u)
    (stored : addNode (.storeLocal temp addr) .void u = .ok store m)
    (read : addNode (.readLocal temp) .ptr m = .ok base m₁)
    (loaded : (pieces.zipIdx.mapM (fun (piece, index) => loadPiece id base nonFaulting index piece) :
      Attempt (List FieldUse)) m₁ = .ok uses m₂) (listed : addNode (.fieldList uses) .void m₂ = .ok list m₃)
    (joined : addNode (.comma store list) .void m₃ = .ok result q) : ∃ after, Spread p q tree result after := by
  obtain ⟨below, rfl, under, _⟩ := atTree.plain here rfl
  have atAddr : Forest p [addr] below := under
  have start : Grafts m m₁ [] [base] [base] (· = temp) :=
    Grafts.leaf read rfl rfl fun _ mentioned => (Option.some.inj mentioned).symm
  obtain ⟨loads, grafts⟩ : ∃ loads, Grafts m m₃ [] [list] loads (· = temp) := by
    rcases loadPieces_grafts start.forest loaded with
      ⟨rfl, rfl⟩ | ⟨loads, grafts⟩
    · exact ⟨_, Grafts.unused start.grown start.sameLocals
        (Grafts.leaf listed rfl rfl (by simp [NodeKind.mentionsLocal?]))⟩
    · have allowed := grafts.weaken (· = temp) fun var mentioned => by
        obtain ⟨other, mem, atOther⟩ := mentioned
        exact start.mentions other mem var atOther
      exact ⟨_, start.onto (allowed.node listed rfl (by simp [NodeKind.mentionsLocal?]))⟩
  have spread := spilled_joined atAddr made stored grafts joined
  have dropped : Carries p p (below ++ [value]) below [] := by
    have kept : Grafts p p below [addr] [] (fun _ => False) := Grafts.start atAddr
    have carries := kept.carries [value] (fun other met => by
      rw [mem_singleton.mp met]
      exact p.actsAt_eq here) (fun _ _ _ => False.elim)
    rwa [append_nil] at carries
  refine ⟨_, spread.grown, spread.forest, ?_, fun before => ?_⟩
  · exact dropped.trans spread.carries (Extends.refl : Adds p p) spread.grown atTree.valid atAddr.valid
  · exact spread.done (before.subset fun other met => mem_append_left _ met)

theorem loadFields_spread (done : loadFields id addr nonFaulting pieces p = .ok result q) :
    ∃ after, Spread p q tree result after := by
  obtain ⟨hoisted, base, m, uses, m', list, atBase, loaded, last⟩ := loadFields_ok done
  obtain ⟨node, atAddr, ⟨isPlain, rfl, rfl, rfl⟩ | ⟨_, temp, store, u, u', made, stored, read, rfl⟩⟩ :=
    hoistAddr_ok atBase
  · rcases last with ⟨_, rfl, listed⟩ | ⟨_, _, impossible, _⟩
    · exact loadFields_plain atTree here (m.kindAt_of atAddr rfl) isPlain loaded listed
    · cases impossible
  · rcases last with ⟨impossible, _⟩ | ⟨same, m'', isStore, listed, joined⟩
    · cases impossible
    · cases isStore
      exact loadFields_hoisted atTree here made stored read loaded listed joined

end Loads

theorem TakenApart.spread (taken : TakenApart id pieces p list q kind)
    (atTree : Forest p [value] tree) (here : p.kindAt value = some kind) : ∃ after, Spread p q tree list after := by
  cases taken with
  | reads _ var base isRead done =>
    refine localFields_spread atTree here ?_ done
    rcases isRead with ⟨rfl, _⟩ | rfl <;> rfl
  | loads addr nonFaulting done => exact loadFields_spread atTree here done

theorem PassesCopy.grafts {arg : Argument}
    (passes : PassesCopy settings arg copy p late q) : ∃ made, Grafts p q [] [late] made (· = copy) := by
  cases passes with
  | address done => exact ⟨_, Grafts.leaf done rfl rfl fun _ mentioned => (Option.some.inj mentioned).symm⟩
  | fields _ _ _ done => exact localFields_grafts done

-- How shaping leaves an argument behind: with another early node or none, or with a copy.
inductive SlotKept (proc : Procedure) (arg : Argument) : Argument → List LocalId → Prop where
  | early (value : NodeId) : SlotKept proc arg { arg with early := some value } []
  | copied (copy : LocalId) (store late : NodeId) (isCopy : proc.IsCopy copy arg.ty)
      (stores : proc.storeAt store = some copy) :
      SlotKept proc arg (arg.viaTemp copy store late) [copy]

-- One argument is shaped: a step on its slot that leaves the stores in front, a late tree that only
-- computes, and a pool that holds the copy if one was taken.
structure SlotShape (call : CallId) (index : Nat) (data : Call) (arg : Argument)
    (s t : LoweringState) (tree : List NodeId) (after : Argument) (early late : List NodeId)
    (copies : List LocalId) : Prop where
  step : SlotStep call s.proc t.proc tree after early late copies
  now : t.proc.calls[call]? = some (data.withArgs (data.args.args.set index after))
  inFront : ∀ var ∈ t.proc.storedIn tree, var ∈ t.proc.storedIn early
  quiet : t.proc.Quiet late
  kept : SlotKept t.proc arg after copies
  sound : t.pool.Sound t.proc
  holding : CopyPool.Holding s.pool t.pool copies

section SlotShapes

variable {call : CallId} {index : Nat} {data : Call} {arg : Argument} {value : NodeId}
  {tree : List NodeId} {s t : LoweringState}

theorem early_shape {after : List NodeId} (sound : s.Sound)
    (here : s.proc.calls[call]? = some data) (atIndex : data.args.args[index]? = some arg)
    (loose : arg.late = none) (atTree : Forest s.proc [value] tree) (apart : call ∉ s.proc.callsIn tree)
    (spread : Spread s.proc m tree list after) (set : setEarly call index list m = .ok () q)
    (same : t = { s with proc := q }) :
    SlotShape call index data arg s t tree { arg with early := some list } after [] [] := by
  obtain ⟨now, other, _, _, setEq⟩ := modifyArg_ok set
  subst same
  have grown : Reworks call m q := modifyArg_extends set
  obtain ⟨step, inFront⟩ := spread.slot loose atTree.valid apart setEq
  exact {
    step
    now := modifyArg_slot (spread.grown.calls ▸ here) atIndex set
    inFront
    quiet := fun _ met => nomatch met
    kept := .early list
    sound := (sound.kept spread.grown).kept grown
    holding := CopyPool.holding_refl }

theorem copied_shape {u : LoweringState} {m' : Procedure} (sound : s.Sound)
    (here : s.proc.calls[call]? = some data) (atIndex : data.args.args[index]? = some arg)
    (atTree : Forest s.proc [value] tree) (apart : call ∉ s.proc.callsIn tree)
    (taken : Step.structCopy settings arg.ty s = .ok copy u)
    (stored : addNode (.storeLocal copy value) .void u.proc = .ok store m)
    (reads : Grafts m m' [] [late] made (· = copy)) (set : setCopy call index copy store late m' = .ok () q)
    (same : t = { u with proc := q }) :
    SlotShape call index data arg s t tree (arg.viaTemp copy store late) (tree ++ [store]) made [copy] := by
  have before := Step.structCopy_adds taken
  have storing := addNode_adds stored
  have grown : Adds s.proc m' := (before.trans storing).trans reads.grown
  obtain ⟨now, other, atNow, atOther, setEq⟩ := modifyArg_ok set
  rw [grown.calls] at atNow
  cases here.symm.trans atNow
  cases atIndex.symm.trans atOther
  subst same
  obtain ⟨soundAfter, holding, isCopy⟩ := Step.structCopy_sound sound taken
  have sameLocals : m'.locals = u.proc.locals := by
    obtain ⟨_, _, _, rfl⟩ := addNode_ok stored
    exact reads.sameLocals
  have target : List.Perm [some copy] ((m'.tempsFrom s.proc.locals.size ++ [copy]).map some) := by
    rw [Procedure.tempsFrom_congr _ m' sameLocals, Step.structCopy_tempsFrom taken]
    exact .refl _
  obtain ⟨atStore, once, carries, done⟩ := stored_carries atTree before stored reads target
  have setting : Reworks call m' q := modifyArg_extends set
  have storeAt : q.storeAt store = some copy := by
    obtain ⟨_, atKind⟩ := addNode_kindAt stored
    rw [setting.storeAt (atStore.valid store (by simp)),
      reads.grown.storeAt (m.kindAt_lt atKind), m.storeAt_eq atKind]
    rfl
  exact {
    step := SlotStep.ofEdits grown.anywhere apart atTree.valid atStore reads.forest once carries done setEq
    now := modifyArg_slot (grown.calls ▸ here) atIndex set
    inFront := fun var held => by
      rw [q.storedIn_append]
      exact mem_append_left _ held
    quiet := fun other met =>
      (setting.actsAt (reads.validMade other met)).trans (reads.quiet other met)
    kept := .copied copy store late (((isCopy.kept storing).kept reads.grown).kept setting) storeAt
    sound := ((soundAfter.kept storing).kept reads.grown).kept setting
    holding := holding }

end SlotShapes

theorem shapeArg_slotShape {index : Nat} {arg : Argument} (sound : s.Sound)
    (here : s.proc.calls[id]? = some data) (atIndex : data.args.args[index]? = some arg)
    (hasEarly : arg.early = some value) (loose : arg.late = none) (atTree : Forest s.proc [value] tree)
    (apart : id ∉ s.proc.callsIn tree) (done : shapeArg settings id index s = .ok () t) :
    ∃ after early late copies, SlotShape id index data arg s t tree after early late copies := by
  cases shapeArg_by here atIndex done with
  | unchanged _ same =>
    subst same
    refine ⟨arg, tree, [], [], {
      step := ⟨Extends.refl, hasEarly ▸ atTree, loose ▸ Forest.nil _, ?_, ?_, fun done => by rwa [append_nil]⟩
      now := by rw [Call.withArgs_set atIndex, here]
      inFront := fun _ held => held
      quiet := fun _ met => nomatch met
      kept := by
        obtain ⟨early, late, role, ty, placement, flags, temp⟩ := arg
        cases hasEarly
        exact .early value
      sound
      holding := CopyPool.holding_refl }⟩
    · rw [append_nil]
      exact atTree.once
    · rw [append_nil]
      exact Carries.refl _ _
  | apart value' node layout pieces list m q fits _ taken set same =>
    cases hasEarly.symm.trans fits.early
    obtain ⟨after, spread⟩ := taken.spread atTree (s.proc.kindAt_of fits.here rfl)
    exact ⟨_, _, _, _, early_shape sound here atIndex loose atTree apart spread set same⟩
  | copied value' copy store late u m m' q _ early _ taken stored passes set same =>
    cases hasEarly.symm.trans early
    obtain ⟨made, reads⟩ := passes.grafts
    exact ⟨_, _, _, _, copied_shape sound here atIndex atTree apart taken stored reads set same⟩

-- What shaping establishes of an argument and no later round of it can undo.
def Kept (before : Argument) (proc : Procedure) (after : Argument) : Prop :=
  (∃ copies, SlotKept proc before after copies)
    ∧ ∀ late, after.late = some late → ∃ part, Forest proc [late] part ∧ proc.Quiet part

theorem SlotKept.kept {nodes : NodeId → Prop} {calls : CallId → Prop}
    (kept : SlotKept p before after copies) (grown : Extends nodes calls p q) : SlotKept q before after copies := by
  cases kept with
  | early value => exact .early value
  | copied copy store late isCopy stores =>
    have bound : store < p.nodes.size := by
      obtain ⟨kind, here, _⟩ := Option.bind_eq_some_iff.mp stores
      exact p.kindAt_lt here
    exact .copied copy store late (isCopy.kept grown) ((grown.storeAt bound).trans stores)

theorem kept_framed (before : Argument) : Framed (Kept before) := by
  rintro p q nodes calls after ⟨⟨copies, kept⟩, quiet⟩ grown apart
  refine ⟨⟨copies, kept.kept grown⟩, fun late isLate => ?_⟩
  obtain ⟨part, atPart, isQuiet⟩ := quiet late isLate
  obtain ⟨nodesApart, callsApart⟩ := apart late (.inr isLate) part atPart
  exact ⟨part, atPart.frame grown nodesApart callsApart, isQuiet.kept grown atPart.valid⟩

theorem SlotKept.temp (kept : SlotKept proc before after copies) (mem : copy ∈ copies) :
    after.temp = some copy := by
  cases kept with
  | early value => cases mem
  | copied other store late isCopy stores => rw [mem_singleton.mp mem]

-- Each of the copies is the temp of one of the first arguments.
def Tracked (args : List Argument) (count : Nat) (copies : List LocalId) : Prop :=
  ∀ copy ∈ copies, ∃ (index : Nat) (arg : Argument), index < count ∧ args[index]? = some arg
    ∧ arg.temp = some copy

theorem Tracked.step {args : List Argument} {count : Nat} {copies' : List LocalId}
    (tracked : Tracked args count copies) (bound : count < args.length) (kept : SlotKept proc before after copies') :
    Tracked (args.set count after) (count + 1) (copies ++ copies') := by
  intro copy mem
  rcases mem_append.mp mem with earlier | here
  · obtain ⟨index, arg, early, atIndex, held⟩ := tracked copy earlier
    refine ⟨index, arg, Nat.lt_succ_of_lt early, ?_, held⟩
    rw [getElem?_set_ne (Nat.ne_of_gt early), atIndex]
  · exact ⟨count, after, Nat.lt_succ_self count, getElem?_set_self bound, kept.temp here⟩

theorem shapeArgs_progress (rounds : Rounds)
    (round : ∀ (index : Nat) (now : Call) (arg after : Argument) (u v : LoweringState)
      (tree early late : List NodeId) (copies : List LocalId), arg ∈ data.args.args →
      rounds.waiting u.proc arg → u.proc.calls[id]? = some now → now.args.args[index]? = some arg →
      SlotShape id index now arg u v tree after early late copies →
      shapeArg settings id index u = .ok () v → rounds.reached arg v.proc after)
    {seen : List NodeId} (holds : Holds s.proc id data seen)
    (isOpen : data.args.isMaterialized = false)
    (loose : ∀ arg ∈ data.args.args, arg.early.isSome = true ∧ arg.late = none)
    (waiting : ∀ arg ∈ data.args.args, rounds.waiting s.proc arg)
    (sound : s.Sound) (done : shapeArgs settings id s = .ok () t) :
    ∃ seen' args copies, Progress rounds id data (· < data.args.args.length) s.proc t.proc seen
      seen' args copies ∧ Tracked args data.args.args.length copies ∧ t.Sound
      ∧ CopyPool.Holding s.pool t.pool copies := by
  rw [shapeArgs, bind_of_ok (Step.asks (call_answers holds.here))] at done
  apply forM_range_ok (shapeArg settings id)
    (fun count u => ∃ seen' args copies, Progress rounds id data (· < count) s.proc u.proc seen
      seen' args copies ∧ Tracked args count copies ∧ u.Sound
      ∧ CopyPool.Holding s.pool u.pool copies) ?_ ?_ done
  · exact ⟨seen, data.args.args, [], (Progress.start holds waiting).touching fun _ => by simp,
      (fun _ mem => (not_mem_nil mem).elim), sound, CopyPool.holding_refl⟩
  · rintro count u v bound ⟨seen', args, copies, progress, tracked, soundU, holding⟩ ran
    have mem : count < data.args.args.length := bound
    have atCount := getElem?_eq_getElem mem
    obtain ⟨hasEarly, hasNoLate⟩ := loose _ (getElem_mem mem)
    obtain ⟨value, atValue⟩ := Option.isSome_iff_exists.mp hasEarly
    have atArgs := (progress.untouched count (Nat.lt_irrefl _)).trans atCount
    obtain ⟨tree, atTree, apart, _⟩ :=
      progress.passage.holds.treeOf (mem_of_getElem? atArgs) atValue
    obtain ⟨after, early, late, copies', shape⟩ := shapeArg_slotShape
      soundU progress.passage.holds.here atArgs atValue hasNoLate atTree apart ran
    obtain ⟨seen'', further⟩ := progress.step holds.forest.valid isOpen (Nat.lt_irrefl _)
      atCount hasNoLate (atValue ▸ atTree) shape.step shape.now (.inr shape.inFront)
      (round count _ _ after u v tree early late copies' (getElem_mem mem)
        (progress.waiting count _ (Nat.lt_irrefl _) atCount) progress.passage.holds.here atArgs shape ran)
    refine ⟨seen'', _, _, further.touching fun index => ?_,
      tracked.step (progress.sameLength ▸ mem) shape.kept, shape.sound,
      CopyPool.holding_trans holding shape.holding⟩
    omega

end Shape

end CallLowering
