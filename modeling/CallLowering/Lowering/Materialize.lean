import CallLowering.Lowering.Shape

/-! Splitting every argument into its final early and late nodes, in the scheduled order. -/

namespace CallLowering

namespace Materialize

open Edit

-- A value that yields a field list, possibly behind an effect that runs first.
structure FieldValue where
  hoisted : Option NodeId
  list : NodeId
  uses : List FieldUse
deriving DecidableEq, Repr

def fieldValue? (proc : Procedure) (value : NodeId) : Except Fault (Option FieldValue) := do
  match (← proc.node value).kind with
  | .fieldList uses => pure (some ⟨none, value, uses⟩)
  | .comma first second =>
    match (← proc.node second).kind with
    | .fieldList uses => pure (some ⟨some first, second, uses⟩)
    | _ => pure none
  | _ => pure none

-- Stores one field to a temp; the use that reads the temp takes its place.
def fieldToTemp (field : FieldUse) : Edit (NodeId × FieldUse) := do
  let temp ← addLocal { ty := field.ty.actual, kind := .argTemp }
  let store ← addNode (.storeLocal temp field.node) .void
  let read ← addNode (.readLocal temp) field.ty.actual
  pure (store, { field with node := read })

def sequence : List NodeId → Edit NodeId
  | [] => addNode .nop .void
  | [only] => pure only
  | first :: second :: rest => do
    let chain ← sequence (second :: rest)
    addNode (.comma first chain) .void

def fieldsToTemps (value : FieldValue) : Edit NodeId := do
  let fields ← value.uses.mapM fieldToTemp
  replaceNode value.list (.fieldList (fields.map Prod.snd)) .void
  sequence (value.hoisted.toList ++ fields.map Prod.fst)

def tempType (ty valueTy : ValueType) : ValueType := if ty.isStruct then ty else valueTy.actual

-- Reads a temp the way the argument is passed.
def readTemp (settings : Settings) (data : Argument) (temp : LocalId) (ty : ValueType) :
    Edit NodeId := do
  match ← ask (fun _ => settings.types.layoutOf data.ty), data.placement.isMulti with
  | some layout, true => do
    let pieces ← ask fun _ => Shape.pieces data.placement layout settings.pointerSize
    Shape.localFields temp 0 pieces
  | _, _ => addNode (.readLocal temp) ty

def toTemps (settings : Settings) (id : CallId) (index : Nat) (data : Argument) (value : NodeId) :
    Attempt Unit := do
  match ← ask fun proc => fieldValue? proc value with
  | some fields => do
    let early ← fieldsToTemps fields
    modifyArg id index fun arg => { arg with early := some early, late := some fields.list }
  | none => do
    let ty := tempType data.ty (← node value).ty
    if ty = .void then refuse id (.noValue index)
    let temp ← addLocal { ty, kind := .argTemp }
    let store ← addNode (.storeLocal temp value) .void
    let read ← readTemp settings data temp ty
    Shape.setCopy id index temp store read

-- Settles one argument and tells whether it belongs to the late order.
def materializeArg (settings : Settings) (id : CallId) (retbufAsLocal : Bool) (index : Nat) :
    Attempt Bool := do
  let data ← arg id index
  if data.late.isSome then return true
  let some value := data.early | refuse id (.noNode index)
  if data.flags.needsTemp then
    if data.role = .returnBuffer && retbufAsLocal then refuse id .pinnedReturnBuffer
    toTemps settings id index data value
    return true
  else if data.placement.hasReg || data.flags.needsPlace then
    modifyArg id index fun arg => { arg with early := none, late := some value }
    return true
  else return false

def materializeArgs (settings : Settings) (id : CallId) (retbufAsLocal : Bool) :
    List Nat → Attempt (List Nat)
  | [] => pure []
  | index :: rest => do
    let isLate ← materializeArg settings id retbufAsLocal index
    let later ← materializeArgs settings id retbufAsLocal rest
    pure (if isLate then index :: later else later)

def materialize (settings : Settings) (id : CallId) (order : List Nat) : Attempt Unit := do
  let data ← call id
  if data.args.stage ≠ .completed then refuse id (.materializedIn data.args.stage)
  let lateOrder ← materializeArgs settings id data.flags.retbufAsLocal order
  modifyArgs id fun list => list.markMaterialized lateOrder

end Materialize

end CallLowering
