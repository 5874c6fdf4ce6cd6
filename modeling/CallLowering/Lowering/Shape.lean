import CallLowering.Lowering.Step

/-! Shaping struct arguments after their placement. -/

namespace CallLowering

-- A piece of a struct as one register holds it.
structure Piece where
  offset : Nat
  ty : ValueType
deriving DecidableEq, Repr

namespace Shape

open Edit

def intType : Nat → ValueType
  | 1 => .i8
  | 2 => .i16
  | 3 | 4 => .i32
  | _ => .i64

-- A float register holds its segment whole; everything else takes integers of pointer size. The
-- offsets ascend, so they all fit a word if the last one does.
def piecesOf (layout : Layout) (pointerSize : Nat) (segment : Segment) :
    Except Fault (List Piece) := do
  let unit := if segment.inFloatReg then segment.size else pointerSize
  if unit = 0 then throw .zeroChunk
  let _ ← Word.add segment.start ((chunkCount segment.size unit - 1) * unit)
  (chunks segment.size unit).mapM fun chunk => do
    let offset := segment.start + chunk.offset
    let isFloat ← if segment.inFloatReg then layout.isFloatRange offset chunk.len else pure false
    let ty := if isFloat then (if chunk.len = 4 then .f32 else .f64) else intType chunk.len
    pure ⟨offset, ty⟩

def pieces (placement : Placement) (layout : Layout) (pointerSize : Nat) :
    Except Fault (List Piece) := do
  let parts ← placement.byStart.mapM (piecesOf layout pointerSize)
  pure parts.flatten

-- Reads the pieces of a struct that lies in a local, `base` bytes from its beginning.
def localFields (var : LocalId) (base : Nat) (pieces : List Piece) : Edit NodeId := do
  let uses ← pieces.mapM fun piece => do
    let offset ← ask fun _ => Word.add base piece.offset
    let read ← addNode (.readField var offset) piece.ty
    pure { node := read, offset := piece.offset, ty := piece.ty : FieldUse }
  addNode (.fieldList uses) .void

def fieldAddr (base : NodeId) (offset : Nat) : Edit NodeId := do
  if offset = 0 then pure base
  else
    let amount ← addNode (.intConst (Int64.ofNat offset)) .ptr
    addNode (.binary .add base amount) .ptr

-- All pieces but the first go through a copy of the address.
def pieceBase (id : CallId) (base : NodeId) (index : Nat) : Attempt NodeId := do
  if index = 0 then pure base
  else
    let some copy ← cloneSimple base | refuse id .addressNotDuplicable
    pure copy

def loadThrough (start : NodeId) (nonFaulting : Bool) (piece : Piece) : Edit FieldUse := do
  let addr ← fieldAddr start piece.offset
  let load ← addNode (.load addr nonFaulting) piece.ty
  pure { node := load, offset := piece.offset, ty := piece.ty }

def loadPiece (id : CallId) (base : NodeId) (nonFaulting : Bool) (index : Nat) (piece : Piece) :
    Attempt FieldUse := do
  let start ← pieceBase id base index
  loadThrough start nonFaulting piece

def isPlainAddr : NodeKind → Bool
  | .readLocal _ | .localAddr _ => true
  | _ => false

-- An address that is no plain local is stored to a temp ahead of the loads.
def hoistAddr (addr : NodeId) : Edit (Option NodeId × NodeId) := do
  if isPlainAddr (← node addr).kind then pure (none, addr)
  else
    let temp ← addLocal { ty := .ptr, kind := .argTemp }
    let store ← addNode (.storeLocal temp addr) .void
    let read ← addNode (.readLocal temp) .ptr
    pure (some store, read)

def loadFields (id : CallId) (addr : NodeId) (nonFaulting : Bool) (pieces : List Piece) :
    Attempt NodeId := do
  let (hoisted, base) ← hoistAddr addr
  let uses ← pieces.zipIdx.mapM fun (piece, index) => loadPiece id base nonFaulting index piece
  let list ← addNode (.fieldList uses) .void
  match hoisted with
  | some store => addNode (.comma store list) .void
  | none => pure list

def setCopy (id : CallId) (index : Nat) (copy : LocalId) (early late : NodeId) : Edit Unit :=
  modifyArg id index fun arg => arg.viaTemp copy early late

-- Stores a struct to a copy early and passes what `use` makes of the copy.
def passCopy (settings : Settings) (id : CallId) (index : Nat) (ty : ValueType) (value : NodeId)
    (use : LocalId → Edit NodeId) : Step Unit := do
  let copy ← Step.structCopy settings ty
  let store ← addNode (.storeLocal copy value) .void
  setCopy id index copy store (← use copy)

def setEarly (id : CallId) (index : Nat) (value : NodeId) : Edit Unit :=
  modifyArg id index fun arg => { arg with early := some value }

def decompose (settings : Settings) (id : CallId) (index : Nat) (ty : ValueType) (value : NodeId)
    (pieces : List Piece) : Step Unit := do
  let data ← node value
  match data.kind with
  | .fieldList _ => pure ()
  | .readLocal var => do
    let list ← localFields var 0 pieces
    setEarly id index list
  | .readField var offset => do
    let list ← localFields var offset pieces
    setEarly id index list
  | .load addr nonFaulting => do
    let list ← loadFields id addr nonFaulting pieces
    setEarly id index list
  | _ => passCopy settings id index ty value (localFields · 0 pieces)

def shapeArg (settings : Settings) (id : CallId) (index : Nat) : Step Unit := do
  let data ← arg id index
  match data.ty, data.early, data.late with
  | .struct struct, some value, none => do
    let layout ← settings.types.layoutAt struct
    if data.placement.byRef then
      passCopy settings id index data.ty value fun copy => addNode (.localAddr copy) .ptr
    else if data.placement.isMulti then
      let pieces ← pieces data.placement layout settings.pointerSize
      decompose settings id index data.ty value pieces
  | _, _, _ => pure ()

def shapeArgs (settings : Settings) (id : CallId) : Step Unit := do
  let data ← call id
  (List.range data.args.size).forM (shapeArg settings id)

end Shape

end CallLowering
