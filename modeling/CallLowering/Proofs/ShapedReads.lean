import CallLowering.Proofs.Grafting
import CallLowering.Proofs.MaterializedShapes
import CallLowering.Proofs.Tiling

/-!
The bytes that a struct argument is passed as. A struct that lies in a local or in memory becomes a list with
one use for each piece.
-/

namespace CallLowering

namespace Shape

open Edit Materialize

variable {p q m m' : Procedure} {id : CallId} {nonFaulting : Bool} {base addr list : NodeId} {node : Node}
  {kind : NodeKind} {ty : ValueType} {pieces : List Piece} {item : Piece × Nat} {use : FieldUse} {uses : List FieldUse}
  {seen : List NodeId}

-- The first piece is loaded from the base, the others from nodes that repeat it. The offset of a piece is
-- added unless it is zero.
structure LoadUse (p q : Procedure) (base : NodeId) (kind : NodeKind) (ty : ValueType) (nonFaulting : Bool)
    (item : Piece × Nat) (use : FieldUse) : Prop where
  sameOffset : use.offset = item.1.offset
  sameTy : use.ty = item.1.ty
  loads : ∃ start addr, NewNode p q use.node (.load addr nonFaulting) item.1.ty
    ∧ (item.2 = 0 ∧ start = base ∨ item.2 ≠ 0 ∧ NewNode p q start kind ty)
    ∧ (item.1.offset = 0 ∧ addr = start ∨ item.1.offset ≠ 0 ∧ ∃ amount,
      NewNode p q addr (.binary .add start amount) .ptr
      ∧ NewNode p q amount (.intConst (Int64.ofNat item.1.offset)) .ptr)

theorem LoadUse.within (way : Within p m m' q) (one : LoadUse m m' base kind ty nonFaulting item use) :
    LoadUse p q base kind ty nonFaulting item use := by
  obtain ⟨start, addr, loads, starts, sums⟩ := one.loads
  refine ⟨one.sameOffset, one.sameTy, start, addr, loads.within way, ?_, ?_⟩
  · exact starts.imp_right fun later => ⟨later.1, later.2.within way⟩
  · refine sums.imp_right ?_
    rintro ⟨moved, amount, sum, counts⟩
    exact ⟨moved, amount, sum.within way, counts.within way⟩

theorem loadPiece_use (here : p.nodes[base]? = some node) (plain : isPlainAddr node.kind = true)
    (done : loadPiece id base nonFaulting item.2 item.1 p = .ok use q) :
    LoadUse p q base node.kind node.ty nonFaulting item use := by
  obtain ⟨start, m, addr, m', from_, atAddr, added, sameOffset, sameTy⟩ := loadPiece_ok done
  have last := addNode_adds added
  have back := (fieldAddr_adds atAddr).trans last
  obtain ⟨front, starts⟩ : Adds p m
      ∧ (item.2 = 0 ∧ start = base ∨ item.2 ≠ 0 ∧ NewNode p q start node.kind node.ty) := by
    rcases from_ with ⟨first, rfl, rfl⟩ | ⟨later, cloned⟩
    · exact ⟨Extends.refl, .inl ⟨first, rfl⟩⟩
    · obtain ⟨_, isStart, again⟩ := cloneSimple_plain here plain cloned
      cases isStart
      exact ⟨addNode_adds again, .inr ⟨later, (newNode again).within (.adds Extends.refl back)⟩⟩
  refine ⟨sameOffset, sameTy, start, addr, (newNode added).within (.last (front.trans (fieldAddr_adds atAddr))),
    starts, ?_⟩
  by_cases zero : item.1.offset = 0
  · simp only [fieldAddr, zero, if_true, pure_ok_iff] at atAddr
    exact .inl ⟨zero, atAddr.1.symm⟩
  · simp only [fieldAddr, zero, if_false, bind_ok_iff] at atAddr
    obtain ⟨amount, u, counted, summed⟩ := atAddr
    exact .inr ⟨zero, amount, (newNode summed).within (.adds (front.trans (addNode_adds counted)) last),
      (newNode counted).within (.adds front ((addNode_adds summed).trans last))⟩

-- The uses load the pieces through the base. Evaluating them visits no node twice, the base once, and else
-- what is new.
structure LoadUses (p q : Procedure) (base : NodeId) (kind : NodeKind) (ty : ValueType) (nonFaulting : Bool)
    (pieces : List Piece) (uses : List FieldUse) (visited : List NodeId) : Prop where
  each : List.Forall₂ (LoadUse p q base kind ty nonFaulting) pieces.zipIdx uses
  forest : Forest q (uses.map FieldUse.node) visited
  quiet : q.Quiet visited
  occurs : visited.count base = 1
  new : ∀ id ∈ visited, id = base ∨ p.nodes.size ≤ id

theorem LoadUses.within {calls : CallId → Prop} (way : Within p m m' q) (back : Extends (fun _ => False) calls m' q)
    (loading : LoadUses m m' base kind ty nonFaulting pieces uses seen) :
    LoadUses p q base kind ty nonFaulting pieces uses seen where
  each := loading.each.imp fun _ _ one => one.within way
  forest := loading.forest.frame back (fun _ _ => not_false) (by simp [m'.quiet_callsIn loading.quiet])
  quiet := loading.quiet.kept back loading.forest.valid
  occurs := loading.occurs
  new := fun other met => (loading.new other met).imp_right way.nodes.trans

theorem loadPieces_uses (filled : pieces ≠ []) (here : p.nodes[base]? = some node)
    (plain : isPlainAddr node.kind = true)
    (done : (pieces.zipIdx.mapM (fun (piece, index) => loadPiece id base nonFaulting index piece) :
      Attempt (List FieldUse)) p = .ok uses q) :
    Adds p q ∧ ∃ seen, LoadUses p q base node.kind node.ty nonFaulting pieces uses seen := by
  obtain ⟨grown, made, rfl, each, _⟩ := mapM_adds (fun use : FieldUse => use)
    (fun p q => LoadUse p q base node.kind node.ty nonFaulting) (fun _ _ => True)
    (fun item _ _ _ _ reached ran => ⟨loadPiece_adds ran, _, rfl, loadPiece_use (reached.node here) plain ran⟩)
    (fun _ _ _ _ _ _ front one back => one.within (.adds front back)) (fun _ _ _ _ _ _ _ _ _ => trivial)
    Extends.refl done
  rw [List.map_id'] at done ⊢
  refine ⟨grown, ?_⟩
  have atBase := p.kindAt_of here rfl
  obtain ⟨isPlain, childless, isQuiet⟩ : node.kind.call? = none ∧ node.kind.children = [] ∧ node.kind.acts = false := by
    cases kind : node.kind with
    | readLocal var | localAddr var => exact ⟨rfl, rfl, rfl⟩
    | _ => simp [kind, isPlainAddr] at plain
  have alone : Forest p [base] [base] :=
    Forest.withTop atBase isPlain (by rw [childless]; exact Forest.nil p) (by simp)
  rcases loadPieces_grafts alone done with ⟨rfl, rfl⟩ | ⟨loads, grafts⟩
  · exact absurd (List.zipIdx_eq_nil_iff.mp (List.forall₂_nil_right_iff.mp each)) filled
  · refine ⟨_, each, grafts.forest, ?_, ?_, ?_⟩
    · intro other met
      rcases List.mem_append.mp met with isBase | isMade
      · rw [List.mem_singleton.mp isBase]
        exact q.actsAt_eq (q.kindAt_of (grown.node here) rfl) ▸ isQuiet
      · exact grafts.quiet other isMade
    · exact List.count_eq_one_of_mem grafts.forest.once (by simp)
    · exact fun other met => (List.mem_append.mp met).imp List.mem_singleton.mp (grafts.new other)

-- A struct value in a local or in memory, as the list of its pieces reads it. An address that is no plain
-- local is stored to a temp first, and the loads go through the temp.
inductive ReadsPieces (p q : Procedure) (pieces : List Piece) : NodeKind → NodeId → Prop where
  | fromLocal (kind : NodeKind) (var : LocalId) (base : Nat) (list : NodeId) (uses : List FieldUse)
      (isRead : kind = .readLocal var ∧ base = 0 ∨ kind = .readField var base)
      (lists : NewNode p q list (.fieldList uses) .void)
      (reads : List.Forall₂ (LocalUse p q var base) pieces uses) (once : (uses.map FieldUse.node).Nodup) :
      ReadsPieces p q pieces kind list
  | throughAddr (addr list : NodeId) (nonFaulting : Bool) (node : Node) (uses : List FieldUse) (visited : List NodeId)
      (here : q.nodes[addr]? = some node) (plain : isPlainAddr node.kind = true)
      (lists : NewNode p q list (.fieldList uses) .void)
      (through : LoadUses p q addr node.kind node.ty nonFaulting pieces uses visited) :
      ReadsPieces p q pieces (.load addr nonFaulting) list
  | throughTemp (addr store read list top : NodeId) (nonFaulting : Bool) (node : Node) (temp : LocalId)
      (uses : List FieldUse) (visited : List NodeId) (here : q.nodes[addr]? = some node)
      (complex : isPlainAddr node.kind = false)
      (isTemp : NewTemp p q temp .ptr) (stores : NewNode p q store (.storeLocal temp addr) .void)
      (reads : NewNode p q read (.readLocal temp) .ptr)
      (lists : NewNode p q list (.fieldList uses) .void)
      (joins : NewNode p q top (.comma store list) .void)
      (through : LoadUses p q read (.readLocal temp) .ptr nonFaulting pieces uses visited)
      (once : addr ∉ visited) :
      ReadsPieces p q pieces (.load addr nonFaulting) top

theorem ReadsPieces.within (way : Within p m m' q) (back : Reworks id m' q)
    (reads : ReadsPieces m m' pieces kind list) : ReadsPieces p q pieces kind list := by
  cases reads with
  | fromLocal _ var offset _ uses isRead lists reads once =>
    exact .fromLocal _ var offset _ uses isRead (lists.within way) (reads.imp fun _ _ one => one.within way) once
  | throughAddr addr _ nonFaulting node uses seen here plain lists through =>
    exact .throughAddr addr _ nonFaulting node uses seen (back.node here not_false) plain (lists.within way)
      (through.within way back)
  | throughTemp addr store read inner _ nonFaulting node temp uses seen here complex isTemp stores reads lists joins
      through once =>
    exact .throughTemp addr store read inner _ nonFaulting node temp uses seen (back.node here not_false) complex
      (isTemp.within way) (stores.within way) (reads.within way) (lists.within way) (joins.within way)
      (through.within way back) once

theorem loadFields_readsPieces (filled : pieces ≠ []) (done : loadFields id addr nonFaulting pieces p = .ok list q) :
    ReadsPieces p q pieces (.load addr nonFaulting) list := by
  obtain ⟨hoisted, base, m, uses, m', inner, atBase, loaded, last⟩ := loadFields_ok done
  obtain ⟨node, here, ⟨plain, rfl, rfl, rfl⟩ | ⟨complex, temp, store, u, u', made, stored, read, rfl⟩⟩ :=
    hoistAddr_ok atBase
  · rcases last with ⟨_, rfl, listed⟩ | ⟨_, _, impossible, _⟩
    · have back := addNode_adds listed
      obtain ⟨front, seen, through⟩ := loadPieces_uses filled here plain loaded
      exact .throughAddr _ _ _ node uses seen (back.node (front.node here)) plain
        ((newNode listed).within (.last front))
        (through.within (.adds Extends.refl back) back)
    · cases impossible
  · rcases last with ⟨impossible, _⟩ | ⟨_, m'', isStore, listed, joined⟩
    · cases impossible
    · cases isStore
      have first := addLocal_adds made
      have second := first.trans (addNode_adds stored)
      have third := second.trans (addNode_adds read)
      obtain ⟨isRead, atRead, kindEq, tyEq, _⟩ := addNode_here read
      obtain ⟨loading, seen, through⟩ := loadPieces_uses filled atRead (by rw [kindEq]; rfl) loaded
      rw [kindEq, tyEq] at through
      have joins := addNode_adds joined
      have lists := (addNode_adds listed).trans joins
      have back := loading.trans lists
      refine .throughTemp addr store base inner _ nonFaulting node temp uses seen ((third.trans back).node here) complex
        ((newTemp made).within (.adds Extends.refl
          (((addNode_adds stored).trans (addNode_adds read)).trans back)))
        ((newNode stored).within (.adds first ((addNode_adds read).trans back)))
        ((newNode read).within (.adds second back))
        ((newNode listed).within (.adds (third.trans loading) joins))
        ((newNode joined).within (.last ((third.trans loading).trans (addNode_adds listed))))
        (through.within (.adds third lists) lists) fun mem => ?_
      have bound := lt_size here
      rcases through.new addr mem with isRead | isNew
      · exact Nat.not_lt_of_le (Nat.le_trans second.size_le (newNode read).isNew) (isRead ▸ bound)
      · exact Nat.not_lt_of_le (Nat.le_trans third.size_le isNew) bound

theorem TakenApart.readsPieces (filled : pieces ≠ []) (taken : TakenApart id pieces p list q kind) :
    ReadsPieces p q pieces kind list := by
  cases taken with
  | reads kind var base isRead done =>
    obtain ⟨_, uses, lists, reads, once⟩ := localFields_reads done
    exact .fromLocal kind var base list uses isRead lists reads once
  | loads addr nonFaulting done => exact loadFields_readsPieces filled done

-- After shaping, the value of an argument of a finalized list is a list that reads the pieces where they lie.
theorem struct_argument_reads_pieces (settings : Settings) (triple : Triple) (id : CallId) (s t : LoweringState)
    (data : Call) (index : Nat) (arg : Argument) (value : NodeId) (node : Node)
    (shipped : settings.target = Target.ofTriple triple)
    (declared : ∀ layout ∈ settings.types.layouts, layout.Declared)
    (here : s.proc.calls[id]? = some data) (classified : data.args.Classified settings)
    (atIndex : data.args.args[index]? = some arg) (fits : InPlace s.proc arg value node)
    (done : shapeArgs settings id s = .ok () t) :
    ∃ after layout pieces list, t.proc.calls[id]? = some after
      ∧ after.args.args[index]? = some { arg with early := some list } ∧ Cut settings arg layout pieces
      ∧ ReadsPieces s.proc t.proc pieces node.kind list := by
  have run := shapeArgs_each (fun before after proc => arg = before →
      ∃ layout pieces list, after = { arg with early := some list } ∧ Cut settings arg layout pieces
        ∧ ReadsPieces s.proc proc pieces node.kind list) here ?_ ?_ done
  · obtain ⟨_, args, atEnd, _, each⟩ := run
    obtain ⟨_, atAfter, reads⟩ := each index arg atIndex
    obtain ⟨layout, pieces, list, rfl, cut, reads⟩ := reads rfl
    exact ⟨_, layout, pieces, list, atEnd, atAfter, cut, reads⟩
  · rintro index _ after now u v grown atNow atArg ran atV _ rfl
    have still : InPlace u.proc arg value node := { fits with here := grown.node fits.here not_false }
    cases shapeArg_by atNow atArg ran with
    | unchanged unfit _ => exact absurd still (unfit value node)
    | copied _ _ _ _ _ _ _ _ unfit => exact absurd still (unfit value node)
    | apart _ _ layout pieces list m q found cut taken set same =>
      cases fits.early.symm.trans found.early
      cases still.here.symm.trans found.here
      subst same
      have isAfter := Call.slot_inj atArg atV (modifyArg_slot (taken.adds.calls ▸ atNow) atArg set)
      have last := modifyArg_extends set
      have filled := classified.divides shipped declared (List.mem_of_getElem? atIndex) cut.known fits.several
        fits.direct pieces cut.cut
      exact ⟨layout, pieces, list, isAfter, cut,
        (taken.readsPieces filled).within (.between grown last fun _ => False.elim) last⟩
  · rintro p q _ after grown reads rfl
    obtain ⟨layout, pieces, list, isAfter, cut, reads⟩ := reads rfl
    exact ⟨layout, pieces, list, isAfter, cut, reads.within (.first grown fun _ => False.elim) grown⟩

-- A pair of numbers behind an address that is computed.
def loadsPair : Procedure where
  name := "loads"
  nodes := #[⟨.readLocal 0, .ptr, {}⟩, ⟨.intConst 16, .ptr, {}⟩, ⟨.binary .add 0 1, .ptr, {}⟩,
    ⟨.load 2 false, .struct 0, {}⟩]
  locals := #[{ ty := .ptr, kind := .user }]
  calls := #[{ target := .method "callee", returnType := .void, args.args := [.ofValue 3 (.struct 0) .ordinary] }]

theorem pair_read_through_temp : ∃ (p : Procedure) (t : LoweringState) (after : Call) (list : NodeId),
    AbiInfo.finalize withPair 0 loadsPair = .ok () p ∧ shapeArgs withPair 0 { proc := p } = .ok () t
      ∧ t.proc.calls[0]? = some after ∧ (after.args.args.map Argument.early)[0]? = some (some list)
      ∧ ReadsPieces p t.proc [⟨0, .i64⟩, ⟨8, .i64⟩] (.load 2 false) list := by
  have finalized := ok_of_answerOf (AbiInfo.finalize withPair 0 loadsPair) () (by decide +kernel)
  have done := ok_of_answerOf (shapeArgs withPair 0 { proc := endOf (AbiInfo.finalize withPair 0 loadsPair) }) ()
    (by decide +kernel)
  have declared : ∀ layout ∈ withPair.types.layouts, layout.Declared := by
    intro layout mem
    obtain rfl := Array.mem_singleton.mp mem
    exact ⟨"pair", [.i64, .i64], 8, .inr rfl, by decide +kernel⟩
  obtain ⟨data, here, classified⟩ := AbiInfo.finalize_classified rfl rfl finalized
  obtain rfl := Option.some.inj here
  obtain ⟨after, layout, pieces, list, atEnd, atIndex, cut, reads⟩ := struct_argument_reads_pieces withPair
    ⟨.x64, .linux⟩ 0 _ _ _ 0 _ 3 ⟨.load 2 false, .struct 0, {}⟩ rfl
    declared rfl classified rfl
    ⟨rfl, rfl, rfl, rfl, rfl, rfl, rfl⟩ done
  obtain rfl := Option.some.inj (Except.ok.inj cut.known)
  obtain rfl := Except.ok.inj cut.cut
  exact ⟨_, _, after, list, finalized, done, atEnd, by simp [atIndex], reads⟩

end Shape

end CallLowering
