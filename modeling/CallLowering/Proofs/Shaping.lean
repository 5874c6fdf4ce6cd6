import CallLowering.Lowering.Shape
import CallLowering.Proofs.NewNodes

/-!
What shaping does to one struct argument: nothing, another early node, or a store to a copy with the
reads of that copy behind it.
-/

namespace CallLowering

open List

variable {id : CallId} {p q m m' : Procedure} {index : Nat} {s t : LoweringState} {settings : Settings}
  {ty : ValueType} {value addr base late list result : NodeId} {data : Call} {arg after : Argument}
  {nonFaulting : Bool} {var copy : LocalId} {field : FieldUse} {pieces : List Piece} {piece : Piece}
  {accept : LocalId → Bool}

theorem LocalSet.find?_lowest (set : LocalSet) (found : set.members.find? accept = some var) {other : LocalId}
    (member : other ∈ set.members) (accepted : accept other = true) : var ≤ other := by
  obtain ⟨_, before, after, split, unaccepted⟩ := find?_eq_some_iff_append.mp found
  have ascending := set.ascending
  rw [split] at member ascending
  rcases mem_append.mp member with early | late
  · exact absurd accepted (by simpa using unaccepted other early)
  · rcases mem_cons.mp late with rfl | later
    · exact Nat.le_refl _
    · have behind := (pairwise_append.mp ascending).2.1
      exact Nat.le_of_lt ((pairwise_cons.mp behind).1 other later)

theorem CopyPool.reuse_some {pool after : CopyPool} (found : pool.reuse? accept = some (var, after)) :
    var ∈ pool.available.members ∧ accept var = true
      ∧ (∀ other ∈ pool.available.members, accept other = true → var ≤ other)
      ∧ after = { pool with available := pool.available.erase var } := by
  unfold reuse? LocalSet.takeFirst at found
  simp only [Option.map_map, Option.map_eq_some_iff, Function.comp_apply, Prod.mk.injEq] at found
  obtain ⟨other, first, rfl, rfl⟩ := found
  exact ⟨mem_of_find?_eq_some first, by simpa using find?_some first,
    fun other => pool.available.find?_lowest first, rfl⟩

theorem Call.slot_inj {after' : Argument} {found : Option Call} (atIndex : data.args.args[index]? = some arg)
    (first : found = some (data.withArgs (data.args.args.set index after)))
    (second : found = some (data.withArgs (data.args.args.set index after'))) : after = after' := by
  have bound := lt_length atIndex
  have lists : data.args.args.set index after = data.args.args.set index after' :=
    congrArg (fun call => call.args.args) (Option.some.inj (first.symm.trans second))
  have both := congrArg (fun list => list[index]?) lists
  simpa [getElem?_set_self bound] using both

namespace Step

-- How a copy is chosen: the lowest free local of the type if copies are shared and there is one, and
-- otherwise a new local.
inductive Choice (settings : Settings) (ty : ValueType) (s t : LoweringState) (var : LocalId) : Prop where
  | reused (shared : settings.sharesCopies = true) (free : var ∈ s.pool.available.members)
      (fits : s.proc.locals[var]?.map LocalVar.ty = some ty)
      (lowest : ∀ other ∈ s.pool.available.members, s.proc.locals[other]?.map LocalVar.ty = some ty →
        var ≤ other)
      (same : t.proc = s.proc) (left : t.pool.available = s.pool.available.erase var)
  | fresh (why : settings.sharesCopies = false
        ∨ ∀ other ∈ s.pool.available.members, s.proc.locals[other]?.map LocalVar.ty ≠ some ty)
      (new : var = s.proc.locals.size)
      (made : t.proc = { s.proc with locals := s.proc.locals.push { ty, kind := .structCopy } })
      (left : t.pool.available = s.pool.available)

theorem Choice.congr {t' : LoweringState} (choice : Choice settings ty s t var) (sameProc : t'.proc = t.proc)
    (sameFree : t'.pool.available = t.pool.available) : Choice settings ty s t' var := by
  cases choice with
  | reused shared free fits lowest same left =>
    exact .reused shared free fits lowest (sameProc.trans same) (sameFree.trans left)
  | fresh why new made left => exact .fresh why new (sameProc.trans made) (sameFree.trans left)

theorem structCopy_chooses (settings : Settings) (ty : ValueType) (s : LoweringState) :
    ∃ var u, structCopy settings ty s = keep u var ∧ u.pool.scopes = s.pool.scopes
      ∧ Choice settings ty s u var := by
  have accepts : ∀ var : LocalId, (s.proc.locals[var]?.any fun data => data.ty == ty) = true
      ↔ s.proc.locals[var]?.map LocalVar.ty = some ty := fun var => by
    cases s.proc.locals[var]? <;> simp
  unfold structCopy
  by_cases shared : settings.sharesCopies = true
  · simp only [if_pos shared]
    cases found : s.pool.reuse? fun var => s.proc.locals[var]?.any fun data => data.ty == ty with
    | some taken =>
      obtain ⟨var, pool⟩ := taken
      obtain ⟨free, accepted, lowest, rfl⟩ := CopyPool.reuse_some found
      exact ⟨var, _, rfl, rfl, .reused shared free ((accepts var).mp accepted)
        (fun other member fits => lowest other member ((accepts other).mpr fits)) rfl rfl⟩
    | none =>
      simp only [CopyPool.reuse?, LocalSet.takeFirst, Option.map_eq_none_iff, find?_eq_none] at found
      exact ⟨_, _, rfl, rfl, .fresh (.inr fun other member fits => found other member ((accepts other).mpr fits))
        rfl rfl rfl⟩
  · simp only [if_neg shared]
    exact ⟨_, _, rfl, rfl, .fresh (.inl (by simpa using shared)) rfl rfl rfl⟩

theorem structCopy_ok (done : structCopy settings ty s = .ok var t) :
    Choice settings ty s t var
      ∧ ∃ inner rest, s.pool.scopes = inner :: rest ∧ t.pool.scopes = (inner ++ [var]) :: rest := by
  obtain ⟨_, u, ran, sameScopes, choice⟩ := structCopy_chooses settings ty s
  rw [ran, keep, CopyPool.hold?, sameScopes] at done
  cases isOpen : s.pool.scopes with
  | nil =>
    rw [isOpen] at done
    cases done
  | cons inner rest =>
    rw [isOpen] at done
    cases done
    exact ⟨choice.congr rfl rfl, inner, rest, rfl, rfl⟩

theorem structCopy_error {stop : Stop} (failed : structCopy settings ty s = .error stop t) :
    stop = .fault .copyOutsideScope := by
  obtain ⟨_, u, ran, _, _⟩ := structCopy_chooses settings ty s
  rw [ran, keep] at failed
  split at failed
  · cases failed
  · cases failed
    rfl

theorem structCopy_adds (done : structCopy settings ty s = .ok var t) : Adds s.proc t.proc := by
  cases (structCopy_ok done).1 with
  | reused _ _ _ _ same _ => exact same ▸ Extends.refl
  | fresh _ _ made _ => exact made ▸ s.proc.addLocal_adds { ty, kind := .structCopy }

end Step

namespace Shape

open Edit Materialize

structure LocalUse (p q : Procedure) (var : LocalId) (base : Nat) (piece : Piece) (use : FieldUse) : Prop where
  offset : use.offset = piece.offset
  ty : use.ty = piece.ty
  reads : NewNode p q use.node (.readField var (base + piece.offset)) piece.ty

theorem LocalUse.within {base : Nat} {use : FieldUse} (way : Within p m m' q)
    (one : LocalUse m m' var base piece use) : LocalUse p q var base piece use :=
  ⟨one.offset, one.ty, one.reads.within way⟩

theorem localFields_reads {base : Nat} (done : localFields var base pieces p = .ok list q) :
    Adds p q ∧ ∃ uses, NewNode p q list (.fieldList uses) .void
      ∧ List.Forall₂ (LocalUse p q var base) pieces uses ∧ (uses.map FieldUse.node).Nodup := by
  simp only [localFields, bind_ok_iff] at done
  obtain ⟨uses, m, reads, added⟩ := done
  obtain ⟨front, uses, rfl, each, apart⟩ := mapM_adds id (LocalUse · · var base)
    (fun use other => use.node ≠ other.node)
    (fun piece _ u use v _ ran => by
      simp only [bind_ok_iff, ask_ok_iff, pure_ok_iff] at ran
      obtain ⟨offset, _, ⟨sum, rfl⟩, read, _, here, rfl, rfl⟩ := ran
      obtain ⟨_, rfl⟩ := Word.check_ok_iff.mp sum
      exact ⟨addNode_adds here, _, rfl, rfl, rfl, newNode here⟩)
    (fun _ _ _ _ _ _ front one back => one.within (.adds front back))
    (fun _ _ _ _ _ _ _ one other => Nat.ne_of_lt (Nat.lt_of_lt_of_le one.reads.lt other.reads.isNew))
    Extends.refl reads
  have back := addNode_adds added
  rw [map_id] at added
  exact ⟨front.trans back, uses, (newNode added).within (.last front),
    each.imp fun _ _ one => one.within (.adds Extends.refl back), pairwise_map.mpr apart⟩

theorem localFields_adds {base : Nat} (done : localFields var base pieces p = .ok list q) : Adds p q :=
  (localFields_reads done).1

theorem fieldAddr_adds {offset : Nat} (done : fieldAddr base offset p = .ok addr q) : Adds p q := by
  unfold fieldAddr at done
  split at done
  · obtain ⟨_, rfl⟩ := pure_ok_iff.mp done
    exact Extends.refl
  · simp only [bind_ok_iff] at done
    obtain ⟨amount, middle, first, second⟩ := done
    exact (addNode_adds first).trans (addNode_adds second)

theorem loadPiece_ok (done : loadPiece id base nonFaulting index piece p = .ok field q) :
    ∃ start m addr m', (index = 0 ∧ start = base ∧ m = p
        ∨ index ≠ 0 ∧ cloneSimple base p = .ok (some start) m)
      ∧ fieldAddr start piece.offset m = .ok addr m'
      ∧ addNode (.load addr nonFaulting) piece.ty m' = .ok field.node q
      ∧ field.offset = piece.offset ∧ field.ty = piece.ty := by
  simp only [loadPiece, loadThrough, bind_ok_iff, lift_edit_ok_iff, pure_ok_iff] at done
  obtain ⟨start, m, started, addr, m', atAddr, load, _, added, rfl, rfl⟩ := done
  refine ⟨start, m, addr, m', ?_, atAddr, added, rfl, rfl⟩
  unfold pieceBase at started
  split at started
  · rename_i first
    obtain ⟨rfl, rfl⟩ := pure_ok_iff.mp started
    exact .inl ⟨first, rfl, rfl⟩
  · rename_i later
    simp only [bind_ok_iff, lift_edit_ok_iff] at started
    obtain ⟨copy, _, cloned, started⟩ := started
    cases copy with
    | none => exact (refuse_ok_iff.mp started).elim
    | some copied =>
      obtain ⟨rfl, rfl⟩ := pure_ok_iff.mp started
      exact .inr ⟨later, cloned⟩

theorem cloneSimple_plain {copy : Option NodeId} {node : Node} (here : p.nodes[base]? = some node)
    (plain : isPlainAddr node.kind = true) (cloned : cloneSimple base p = .ok copy q) :
    ∃ start, copy = some start ∧ addNode node.kind node.ty p = .ok start q := by
  cases kind : node.kind with
  | readLocal | localAddr =>
    cases cloneSimple_cloned cloned with
    | leaf atSource _ added =>
      cases here.symm.trans atSource
      exact ⟨_, rfl, kind ▸ added⟩
    | other atSource _ noLeaf =>
      cases here.symm.trans atSource
      simp [kind, isSimpleLeaf] at noLeaf
    | raising atSource isBinary | noLeft atSource isBinary | noRight atSource isBinary
    | arithmetic atSource isBinary =>
      cases here.symm.trans atSource
      cases kind.symm.trans isBinary
  | _ => simp [kind, isPlainAddr] at plain

theorem loadPiece_adds (done : loadPiece id base nonFaulting index piece p = .ok field q) : Adds p q := by
  obtain ⟨start, m, addr, m', from_, atAddr, added, _⟩ := loadPiece_ok done
  have first : Adds p m := by
    rcases from_ with ⟨_, _, rfl⟩ | ⟨_, cloned⟩
    · exact Extends.refl
    · exact cloneSimple_adds cloned
  exact (first.trans (fieldAddr_adds atAddr)).trans (addNode_adds added)

theorem hoistAddr_ok {hoisted : Option NodeId} (done : hoistAddr addr p = .ok (hoisted, base) q) :
    ∃ node, p.nodes[addr]? = some node ∧
      (isPlainAddr node.kind = true ∧ hoisted = none ∧ base = addr ∧ q = p
        ∨ isPlainAddr node.kind = false ∧ ∃ temp store m m',
          Edit.addLocal { ty := .ptr, kind := .argTemp } p = .ok temp m
          ∧ addNode (.storeLocal temp addr) .void m = .ok store m'
          ∧ addNode (.readLocal temp) .ptr m' = .ok base q ∧ hoisted = some store) := by
  simp only [hoistAddr, bind_ok_iff] at done
  obtain ⟨node, _, found, done⟩ := done
  obtain ⟨here, rfl⟩ := node_ok found
  refine ⟨node, here, ?_⟩
  split at done
  · rename_i plain
    simp only [pure_ok_iff, Prod.mk.injEq] at done
    obtain ⟨⟨rfl, rfl⟩, rfl⟩ := done
    exact .inl ⟨plain, rfl, rfl, rfl⟩
  · rename_i notPlain
    simp only [bind_ok_iff, pure_ok_iff, Prod.mk.injEq] at done
    obtain ⟨temp, m, atTemp, store, m', atStore, read, _, atRead, ⟨rfl, rfl⟩, rfl⟩ := done
    exact .inr ⟨by simpa using notPlain, temp, store, m, m', atTemp, atStore, atRead, rfl⟩

theorem hoistAddr_adds {result : Option NodeId × NodeId} (done : hoistAddr addr p = .ok result q) : Adds p q := by
  obtain ⟨hoisted, base⟩ := result
  obtain ⟨node, _, ⟨_, _, _, rfl⟩ | ⟨_, temp, store, m, m', atTemp, atStore, atRead, _⟩⟩ :=
    hoistAddr_ok done
  · exact Extends.refl
  · exact ((addLocal_adds atTemp).trans (addNode_adds atStore)).trans (addNode_adds atRead)

theorem loadFields_ok (done : loadFields id addr nonFaulting pieces p = .ok result q) :
    ∃ hoisted base m uses m' list, hoistAddr addr p = .ok (hoisted, base) m
      ∧ (pieces.zipIdx.mapM (fun (piece, index) => loadPiece id base nonFaulting index piece) :
        Attempt (List FieldUse)) m = .ok uses m'
      ∧ ((hoisted = none ∧ result = list ∧ addNode (.fieldList uses) .void m' = .ok list q)
        ∨ ∃ store m'', hoisted = some store ∧ addNode (.fieldList uses) .void m' = .ok list m''
          ∧ addNode (.comma store list) .void m'' = .ok result q) := by
  simp only [loadFields, bind_ok_iff, lift_edit_ok_iff] at done
  obtain ⟨⟨hoisted, base⟩, m, atBase, uses, m', atUses, list, m'', atList, done⟩ := done
  refine ⟨hoisted, base, m, uses, m', list, atBase, atUses, ?_⟩
  cases hoisted with
  | none =>
    obtain ⟨rfl, rfl⟩ := pure_ok_iff.mp done
    exact .inl ⟨rfl, rfl, atList⟩
  | some store => exact .inr ⟨store, m'', rfl, atList, lift_edit_ok_iff.mp done⟩

theorem loadFields_adds (done : loadFields id addr nonFaulting pieces p = .ok result q) : Adds p q := by
  obtain ⟨hoisted, base, m, uses, m', list, atBase, atUses, last⟩ := loadFields_ok done
  have loads : Adds m m' := by
    apply mapM_ok_related Adds (fun _ => Extends.refl) (fun _ _ _ => Adds.trans) ?_ m uses atUses
    intro item _ s field t round
    exact loadPiece_adds round
  have before : Adds p m' := (hoistAddr_adds atBase).trans loads
  rcases last with ⟨_, _, added⟩ | ⟨store, m'', _, added, joined⟩
  · exact before.trans (addNode_adds added)
  · exact (before.trans (addNode_adds added)).trans (addNode_adds joined)

-- The list that reads the pieces of a value where they are.
inductive TakenApart (id : CallId) (pieces : List Piece) (p : Procedure) (list : NodeId) (q : Procedure) :
    NodeKind → Prop where
  | reads (kind : NodeKind) (var : LocalId) (base : Nat)
      (isRead : kind = .readLocal var ∧ base = 0 ∨ kind = .readField var base)
      (done : localFields var base pieces p = .ok list q) : TakenApart id pieces p list q kind
  | loads (addr : NodeId) (nonFaulting : Bool) (done : loadFields id addr nonFaulting pieces p = .ok list q) :
      TakenApart id pieces p list q (.load addr nonFaulting)

structure Cut (settings : Settings) (arg : Argument) (layout : Layout) (pieces : List Piece) : Prop where
  several : arg.placement.isMulti = true
  known : settings.types.layoutOf arg.ty = .ok (some layout)
  cut : Shape.pieces arg.placement layout settings.pointerSize = .ok pieces

inductive PassesCopy (settings : Settings) (arg : Argument) (copy : LocalId) (p : Procedure) (late : NodeId)
    (q : Procedure) : Prop where
  | address (done : addNode (.localAddr copy) .ptr p = .ok late q)
  | fields (layout : Layout) (pieces : List Piece) (cut : Cut settings arg layout pieces)
      (done : localFields copy 0 pieces p = .ok late q)

def isInPlace : NodeKind → Bool
  | .readLocal _ | .readField _ _ | .load _ _ => true
  | _ => false

-- A struct argument that goes to several places and whose value lies in a local or in memory.
structure InPlace (proc : Procedure) (arg : Argument) (value : NodeId) (node : Node) : Prop where
  early : arg.early = some value
  loose : arg.late = none
  isStruct : arg.ty.isStruct = true
  direct : arg.placement.byRef = false
  several : arg.placement.isMulti = true
  here : proc.nodes[value]? = some node
  inPlace : isInPlace node.kind = true

-- What can happen to an argument: nothing, a list in place of its value, or a copy.
inductive ShapedBy (settings : Settings) (id : CallId) (index : Nat) (arg : Argument) (s t : LoweringState) :
    Prop where
  | unchanged (unfit : ∀ value node, ¬ InPlace s.proc arg value node) (same : t = s)
  | apart (value : NodeId) (node : Node) (layout : Layout) (pieces : List Piece) (list : NodeId)
      (m q : Procedure) (fits : InPlace s.proc arg value node) (cut : Cut settings arg layout pieces)
      (taken : TakenApart id pieces s.proc list m node.kind) (set : setEarly id index list m = .ok () q)
      (same : t = { s with proc := q })
  | copied (value : NodeId) (copy : LocalId) (store late : NodeId) (u : LoweringState) (m m' q : Procedure)
      (unfit : ∀ value node, ¬ InPlace s.proc arg value node) (early : arg.early = some value)
      (loose : arg.late = none) (taken : Step.structCopy settings arg.ty s = .ok copy u)
      (stored : addNode (.storeLocal copy value) .void u.proc = .ok store m)
      (passes : PassesCopy settings arg copy m late m') (set : setCopy id index copy store late m' = .ok () q)
      (same : t = { u with proc := q })

-- A value that is no read is spread through a copy, unless it is a list already.
theorem decompose_by {layout : Layout} (early : arg.early = some value)
    (loose : arg.late = none) (isStruct : arg.ty.isStruct = true) (direct : arg.placement.byRef = false)
    (cut : Cut settings arg layout pieces) (done : decompose settings id index arg.ty value pieces s = .ok () t) :
    ShapedBy settings id index arg s t := by
  simp only [decompose, bind_ok_iff, lift_step_edit_ok_iff] at done
  obtain ⟨node, _, ⟨q, found, rfl⟩, done⟩ := done
  obtain ⟨here, rfl⟩ := node_ok found
  have apart : ∀ list m q, isInPlace node.kind = true → TakenApart id pieces s.proc list m node.kind →
      setEarly id index list m = .ok () q → t = { s with proc := q } → ShapedBy settings id index arg s t :=
    fun list m q inPlace taken set same =>
      .apart value node layout pieces list m q ⟨early, loose, isStruct, direct, cut.several, here, inPlace⟩ cut
        taken set same
  have unfit : isInPlace node.kind = false → ∀ value node, ¬ InPlace s.proc arg value node := by
    intro moved other found fits
    cases early.symm.trans fits.early
    cases here.symm.trans fits.here
    exact Bool.false_ne_true (moved.symm.trans fits.inPlace)
  cases kindEq : node.kind with
  | fieldList uses =>
    simp only [kindEq, pure_ok_iff] at done
    exact .unchanged (unfit (by rw [kindEq]; rfl)) done.2.symm
  | readLocal var =>
    simp only [kindEq, bind_ok_iff, lift_step_edit_ok_iff] at done apart
    obtain ⟨list, _, ⟨m, read, rfl⟩, q, set, rfl⟩ := done
    exact apart list m q rfl (.reads _ var 0 (.inl ⟨rfl, rfl⟩) read) set rfl
  | readField var offset =>
    simp only [kindEq, bind_ok_iff, lift_step_edit_ok_iff] at done apart
    obtain ⟨list, _, ⟨m, read, rfl⟩, q, set, rfl⟩ := done
    exact apart list m q rfl (.reads _ var offset (.inr rfl) read) set rfl
  | load addr nonFaulting =>
    simp only [kindEq, bind_ok_iff, lift_step_edit_ok_iff, lift_attempt_ok_iff] at done apart
    obtain ⟨list, _, ⟨m, loaded, rfl⟩, q, set, rfl⟩ := done
    exact apart list m q rfl (.loads addr nonFaulting loaded) set rfl
  | _ =>
    simp only [kindEq, passCopy, bind_ok_iff, lift_step_edit_ok_iff] at done
    obtain ⟨copy, u, taken, store, _, ⟨m, stored, rfl⟩, list, _, ⟨m', read, rfl⟩, q, set, rfl⟩ := done
    exact .copied value copy store list u m m' q (unfit (by rw [kindEq]; rfl)) early loose taken stored
      (.fields layout pieces cut read) set rfl

theorem shapeArg_by (here : s.proc.calls[id]? = some data) (atIndex : data.args.args[index]? = some arg)
    (done : shapeArg settings id index s = .ok () t) : ShapedBy settings id index arg s t := by
  simp only [shapeArg, bind_ok_iff, lift_step_edit_ok_iff] at done
  obtain ⟨_, _, ⟨_, found, rfl⟩, done⟩ := done
  obtain ⟨_, atSame, atArg, rfl⟩ := arg_ok found
  cases here.symm.trans atSame
  cases atIndex.symm.trans atArg
  obtain ⟨early, late, role, ty, placement, flags, temp⟩ := arg
  cases ty with
  | struct struct =>
    cases early with
    | none => exact .unchanged (fun _ _ fits => by cases fits.early) (pure_ok_iff.mp done).2.symm
    | some value =>
      cases late with
      | some late => exact .unchanged (fun _ _ fits => by cases fits.loose) (pure_ok_iff.mp done).2.symm
      | none =>
        simp only [bind_ok_iff, lift_fault_ok_iff] at done
        obtain ⟨layout, _, ⟨found, rfl⟩, done⟩ := done
        split at done
        · rename_i indirect
          simp only [passCopy, bind_ok_iff, lift_step_edit_ok_iff] at done
          obtain ⟨copy, u, taken, store, _, ⟨m, stored, rfl⟩, addr, _, ⟨m', pointed, rfl⟩, q, set, rfl⟩ := done
          exact .copied value copy store addr u m m' q
            (fun _ _ fits => Bool.false_ne_true (fits.direct.symm.trans indirect)) rfl rfl
            taken stored (.address pointed) set rfl
        · rename_i direct
          split at done
          · rename_i several
            simp only [bind_ok_iff, lift_fault_ok_iff] at done
            obtain ⟨pieces, _, ⟨cut, rfl⟩, done⟩ := done
            exact decompose_by rfl rfl rfl (by simpa using direct)
              ⟨several, except_bind_ok_iff.mpr ⟨layout, found, rfl⟩, cut⟩ done
          · rename_i lone
            exact .unchanged (fun _ _ fits => lone fits.several) (pure_ok_iff.mp done).2.symm
  | _ => exact .unchanged (fun _ _ fits => by cases fits.isStruct) (pure_ok_iff.mp done).2.symm

theorem TakenApart.adds {kind : NodeKind} (taken : TakenApart id pieces p list q kind) : Adds p q := by
  cases taken with
  | reads _ _ _ _ done => exact localFields_adds done
  | loads _ _ done => exact loadFields_adds done

theorem PassesCopy.adds (passes : PassesCopy settings arg copy p late q) : Adds p q := by
  cases passes with
  | address done => exact addNode_adds done
  | fields _ _ _ done => exact localFields_adds done

inductive Shaped (proc : Procedure) (arg : Argument) : Argument → Prop where
  | early (value : Option NodeId) : Shaped proc arg { arg with early := value }
  | copied (copy : LocalId) (store late : NodeId) (node : Node) (loose : arg.late = none)
      (here : proc.nodes[store]? = some node) (stores : node.kind.storesLocal? = some copy) :
      Shaped proc arg (arg.viaTemp copy store late)

-- One slot of the list changes, and beyond it nothing that was there.
structure SlotShaped (id : CallId) (index : Nat) (data : Call) (arg : Argument) (p q : Procedure) :
    Prop where
  grown : Reworks id p q
  slot : ∃ after, q.calls[id]? = some (data.withArgs (data.args.args.set index after))
    ∧ Shaped q arg after

theorem shapeArg_slot (here : s.proc.calls[id]? = some data) (atIndex : data.args.args[index]? = some arg)
    (done : shapeArg settings id index s = .ok () t) : SlotShaped id index data arg s.proc t.proc := by
  cases shapeArg_by here atIndex done with
  | unchanged _ same =>
    subst same
    exact ⟨Extends.refl, arg, by rw [Call.withArgs_set atIndex, here], .early _⟩
  | apart value node layout pieces list m q _ _ taken set same =>
    subst same
    exact ⟨taken.adds.anywhere.follow (modifyArg_extends set), _,
      modifyArg_slot (taken.adds.calls ▸ here) atIndex set, .early (some list)⟩
  | copied value copy store late u m m' q _ _ loose taken stored passes set same =>
    subst same
    have added := ((Step.structCopy_adds taken).trans (addNode_adds stored)).trans passes.adds
    have grown := modifyArg_extends set
    obtain ⟨node, atStore, kind, _⟩ := addNode_here stored
    exact ⟨added.anywhere.follow grown, _, modifyArg_slot (added.calls ▸ here) atIndex set,
      .copied copy _ late node loose (grown.node (passes.adds.node atStore) not_false)
        (by simp [kind, NodeKind.storesLocal?])⟩

theorem Shaped.kept {calls : CallId → Prop} {before : Argument}
    (grown : Extends (fun _ => False) calls p q) (shaped : Shaped p before after) : Shaped q before after := by
  cases shaped with
  | early value => exact .early value
  | copied copy store late node loose here stores =>
    exact .copied copy store late node loose (grown.node here not_false) stores

-- Each argument became one that it is so related to.
structure Reshaped (id : CallId) (data : Call) (p q : Procedure)
    (related : Nat → Argument → Argument → Prop) : Prop where
  grown : Reworks id p q
  slots : ∃ args, q.calls[id]? = some (data.withArgs args)
    ∧ args.length = data.args.args.length
    ∧ ∀ (index : Nat) (arg : Argument), data.args.args[index]? = some arg →
      ∃ after, args[index]? = some after ∧ related index arg after

theorem shapeArgs_each (fact : Argument → Argument → Procedure → Prop) (here : s.proc.calls[id]? = some data)
    (round : ∀ index arg after data u v, Reworks id s.proc u.proc →
      u.proc.calls[id]? = some data → data.args.args[index]? = some arg → shapeArg settings id index u = .ok () v →
      v.proc.calls[id]? = some (data.withArgs (data.args.args.set index after)) → Shaped v.proc arg after →
      fact arg after v.proc)
    (kept : ∀ p q arg after, Reworks id p q → fact arg after p → fact arg after q)
    (done : shapeArgs settings id s = .ok () t) :
    Reshaped id data s.proc t.proc fun _ arg after => fact arg after t.proc := by
  rw [shapeArgs, bind_of_ok (Step.asks (call_answers here))] at done
  -- Slots from `count` on are as they were.
  have run := forM_range_ok (shapeArg settings id)
    (fun count u => Reshaped id data s.proc u.proc fun index arg after =>
      count ≤ index ∧ after = arg ∨ index < count ∧ fact arg after u.proc)
    ⟨Extends.refl, data.args.args, here, rfl,
      fun index arg atIndex => ⟨arg, atIndex, .inl ⟨Nat.zero_le index, rfl⟩⟩⟩ ?_ done
  · obtain ⟨grown, args, atEnd, sameLength, each⟩ := run
    refine ⟨grown, args, atEnd, sameLength, fun index arg atIndex => ?_⟩
    obtain ⟨after, atAfter, ⟨outside, _⟩ | ⟨_, holds⟩⟩ := each index arg atIndex
    · exact absurd (lt_length atIndex) (Nat.not_lt_of_le outside)
    · exact ⟨after, atAfter, holds⟩
  · rintro count u v bound ⟨grown, args, atU, sameLength, each⟩ ran
    have mem : count < data.args.args.length := bound
    obtain ⟨current, atCurrent, _⟩ := each count _ (getElem?_eq_getElem mem)
    obtain ⟨more, after, atV, shaped⟩ := shapeArg_slot atU atCurrent ran
    refine ⟨grown.follow more, args.set count after, atV, by rw [length_set, sameLength], ?_⟩
    intro index arg atIndex
    obtain ⟨slot, atSlot, cases⟩ := each index arg atIndex
    by_cases here : count = index
    · subst here
      cases atCurrent.symm.trans atSlot
      obtain ⟨_, rfl⟩ | ⟨past, _⟩ := cases
      · exact ⟨after, getElem?_set_self (sameLength ▸ mem), .inr ⟨Nat.lt_succ_self count,
          round count _ after _ u v grown atU atCurrent ran atV shaped⟩⟩
      · exact absurd past (Nat.lt_irrefl count)
    · refine ⟨slot, by rw [getElem?_set_ne here, atSlot], cases.imp (fun ahead => ⟨?_, ahead.2⟩) fun past => ?_⟩
      · exact Nat.lt_of_le_of_ne ahead.1 here
      · exact ⟨Nat.lt_succ_of_lt past.1, kept _ _ _ _ more past.2⟩

theorem shapeArgs_slots (here : s.proc.calls[id]? = some data) (done : shapeArgs settings id s = .ok () t) :
    Reshaped id data s.proc t.proc fun _ => Shaped t.proc :=
  shapeArgs_each (fun arg after proc => Shaped proc arg after) here
    (fun _ _ _ _ _ _ _ _ _ _ _ shaped => shaped) (fun _ _ _ _ grown shaped => shaped.kept grown) done

end Shape

end CallLowering
