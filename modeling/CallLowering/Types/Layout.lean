import CallLowering.Fault
import CallLowering.Types.Value

/-!
Struct layouts. Fields lie in declaration order, each at the first multiple of its own size that is
free, and the struct ends at a multiple of its widest field.
-/

namespace CallLowering

def ValueType.check : ValueType → Except Fault ValueType
  | .struct index => ValueType.struct <$> Identity.check index
  | ty => .ok ty

structure Field where
  offset : Nat
  ty : ValueType
deriving DecidableEq, Repr

structure Layout where
  name : String
  size : Nat
  fields : List Field
deriving DecidableEq, Repr

namespace Layout

-- Lays the fields out from byte `next` on; the second result is the end of the last one.
def place (name : String) (pointerSize : Nat) :
    Nat → List ValueType → Except Fault (List Field × Nat)
  | next, [] => .ok ([], next)
  | next, ty :: rest =>
    match ty.scalarSize pointerSize with
    | none => .error (.nestedStruct name)
    | some size => do
      let offset ← Word.roundUp next (max size 1)
      let fieldEnd ← Word.add offset size
      let (fields, last) ← place name pointerSize fieldEnd rest
      pure (⟨offset, ty⟩ :: fields, last)

def alignment (pointerSize : Nat) (types : List ValueType) : Nat :=
  (types.filterMap (ValueType.scalarSize pointerSize)).foldl max 1

def ofFields (name : String) (types : List ValueType) (pointerSize : Nat) : Except Fault Layout :=
  if types.isEmpty then .error (.emptyStruct name)
  else do
    let (fields, last) ← place name pointerSize 0 types
    let size ← Word.roundUp last (alignment pointerSize types)
    pure { name, size, fields }

-- The member type of a homogeneous aggregate of at most four floats.
def floatAggregate (layout : Layout) : Option ValueType :=
  match layout.fields with
  | [] => none
  | first :: rest =>
    if first.ty.isFloat && layout.fields.length ≤ 4
        && rest.all (fun field => field.ty == first.ty) then
      some first.ty
    else none

-- Some field starts in the `len` bytes from `start` on, and all that do are floats.
def isFloatRange (layout : Layout) (start len : Nat) : Except Fault Bool := do
  let stop ← Word.add start len
  let inside := layout.fields.filter fun field => start ≤ field.offset && field.offset < stop
  pure (!inside.isEmpty && inside.all fun field => field.ty.isFloat)

end Layout

structure TypeTable where
  layouts : Array Layout := #[]
deriving Repr

namespace TypeTable

def lookup (table : TypeTable) (name : String) : Option Nat :=
  table.layouts.findIdx? fun layout => layout.name == name

-- A name that is already known keeps its first declaration.
def declare (table : TypeTable) (name : String) (types : List ValueType) (pointerSize : Nat) :
    Except Fault (ValueType × TypeTable) :=
  match table.lookup name with
  | some index => .ok (.struct index, table)
  | none => do
    let layout ← Layout.ofFields name types pointerSize
    pure (.struct table.layouts.size, { layouts := table.layouts.push layout })

def layoutAt (table : TypeTable) (index : Nat) : Except Fault Layout :=
  match table.layouts[index]? with
  | some layout => .ok layout
  | none => .error (.unknownStruct index)

def layoutOf (table : TypeTable) : ValueType → Except Fault (Option Layout)
  | .struct index => do pure (some (← table.layoutAt index))
  | _ => .ok none

def sizeOf (table : TypeTable) (pointerSize : Nat) (ty : ValueType) : Except Fault Nat := do
  match ← table.layoutOf ty with
  | some layout => pure layout.size
  | none => pure ((ty.scalarSize pointerSize).getD 0)

end TypeTable

end CallLowering
