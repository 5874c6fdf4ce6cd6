import CallLowering.Graph.Edit

/-!
Building a procedure. A body is a list of instructions; each one declares a local, appends a
statement, or makes a node from nodes that earlier instructions made.
-/

namespace CallLowering

-- The pieces of a call. The arguments are laid out as this-pointer, return buffer, varargs cookie,
-- instantiation parameter and then the ordinary ones, whatever the order in which they were given.
structure CallSpec where
  target : CallTarget
  returnType : ValueType := .void
  flags : CallFlags := {}
  -- when absent, a cookie makes the call unmanaged
  convention : Option Convention := none
  thisPointer : Option (NodeId × ValueType) := none
  returnBuffer : Option NodeId := none
  varargsCookie : Option NodeId := none
  instParam : Option NodeId := none
  args : List (NodeId × ValueType) := []
  stubCell : Option Int64 := none
  r2rCell : Option Int64 := none
  cookie : Option NodeId := none
  wrapperOffset : Option Nat := none

namespace CallSpec

def impliedFlags (spec : CallSpec) : CallFlags where
  managedVarargs := spec.varargsCookie.isSome
  virtualStub := spec.stubCell.isSome
  r2r := spec.r2rCell.isSome
  wrapperDelegate := spec.wrapperOffset.isSome

def impliedConvention (spec : CallSpec) : Convention :=
  if spec.cookie.isSome then .unmanaged else .managed

def arguments (spec : CallSpec) : List Argument :=
  let pointer (role : ArgRole) (value : NodeId) : Argument := .ofValue value .ptr role
  (spec.thisPointer.map fun (value, ty) => Argument.ofValue value ty .thisPointer).toList
    ++ (spec.returnBuffer.map (pointer .returnBuffer)).toList
    ++ (spec.varargsCookie.map (pointer .varargsCookie)).toList
    ++ (spec.instParam.map (pointer .instParam)).toList
    ++ spec.args.map fun (value, ty) => Argument.ofValue value ty .ordinary

def toCall (spec : CallSpec) : Call where
  target := spec.target
  flags := spec.flags.union spec.impliedFlags
  convention := spec.convention.getD spec.impliedConvention
  returnType := spec.returnType
  args := { args := spec.arguments }
  stubCell := spec.stubCell
  r2rCell := spec.r2rCell
  cookie := spec.cookie
  wrapperOffset := spec.wrapperOffset

end CallSpec

inductive Instruction where
  | declare (ty : ValueType)
  | declareExposed (ty : ValueType)
  | statement (node : NodeId)
  | intConst (value : Int64) (ty : ValueType)
  | floatConst (bits : UInt64) (ty : ValueType)
  | readLocal (var : LocalId)
  | readField (var : LocalId) (offset : Nat) (ty : ValueType)
  | localAddr (var : LocalId)
  | load (addr : NodeId) (nonFaulting : Bool) (ty : ValueType)
  | storeLocal (var : LocalId) (value : NodeId)
  | storeInd (addr value : NodeId)
  -- stores to a local and yields what was stored
  | assign (var : LocalId) (value : NodeId)
  | binary (op : BinaryOp) (lhs rhs : NodeId)
  | unary (op : UnaryOp) (operand : NodeId) (ty : ValueType)
  | boundsCheck (index len : NodeId)
  | comma (first second : NodeId)
  -- an element of an array of four-byte elements, checked against `len`
  | element (base index : LocalId) (len : NodeId) (ty : ValueType)
  | stackAlloc (size : NodeId)
  | fieldList (fields : List (NodeId × Nat))
  | call (spec : CallSpec)

inductive Made where
  | var (id : LocalId)
  | node (id : NodeId)
  | nothing
deriving DecidableEq, Repr

namespace Edit

def readLocal (var : LocalId) : Edit NodeId := do
  let data ← ask fun proc => proc.localVar var
  addNode (.readLocal var) data.ty

-- An operation has the type of its first operand.
def binary (op : BinaryOp) (lhs rhs : NodeId) : Edit NodeId := do
  let first ← node lhs
  addNode (.binary op lhs rhs) first.ty

def comma (first second : NodeId) : Edit NodeId := do
  let result ← node second
  addNode (.comma first second) result.ty

def assign (var : LocalId) (value : NodeId) : Edit NodeId := do
  let store ← addNode (.storeLocal var value) .void
  let read ← readLocal var
  comma store read

def element (base index : LocalId) (len : NodeId) (ty : ValueType) : Edit NodeId := do
  let checkedIndex ← readLocal index
  let check ← addNode (.boundsCheck checkedIndex len) .void
  let start ← readLocal base
  let position ← readLocal index
  let four ← addNode (.intConst 4) .ptr
  let scaled ← binary .mul position four
  let addr ← binary .add start scaled
  let load ← addNode (.load addr false) ty
  comma check load

def fieldList (fields : List (NodeId × Nat)) : Edit NodeId := do
  let uses ← fields.mapM fun (id, offset) => do
    let field ← node id
    pure { node := id, offset, ty := field.ty : FieldUse }
  addNode (.fieldList uses) .void

end Edit

namespace Instruction

open Edit in
def run : Instruction → Edit Made
  | declare ty => .var <$> addLocal { ty }
  | declareExposed ty => .var <$> addLocal { ty, exposed := true }
  | statement id => do
    change fun proc => pure (proc.addStatement id)
    pure .nothing
  | intConst value ty => .node <$> addNode (.intConst value) ty
  | floatConst bits ty => do
    if ty.isFloat then .node <$> addNode (.floatConst bits) ty
    else throw .notFloat
  | readLocal var => .node <$> Edit.readLocal var
  | readField var offset ty => .node <$> addNode (.readField var offset) ty
  | localAddr var => .node <$> addNode (.localAddr var) .ptr
  | load addr nonFaulting ty => .node <$> addNode (.load addr nonFaulting) ty
  | storeLocal var value => .node <$> addNode (.storeLocal var value) .void
  | storeInd addr value => .node <$> addNode (.storeInd addr value) .void
  | assign var value => .node <$> Edit.assign var value
  | binary op lhs rhs => .node <$> Edit.binary op lhs rhs
  | unary op operand ty => .node <$> addNode (.unary op operand) ty
  | boundsCheck index len => .node <$> addNode (.boundsCheck index len) .void
  | comma first second => .node <$> Edit.comma first second
  | element base index len ty => .node <$> Edit.element base index len ty
  | stackAlloc size => .node <$> addNode (.stackAlloc size) .ptr
  | fieldList fields => .node <$> Edit.fieldList fields
  | call spec => do
    let id ← addCall spec.toCall
    .node <$> addNode (.call id) spec.returnType

end Instruction

def Procedure.build (name : String) (body : List Instruction) :
    Except Fault (List Made × Procedure) :=
  match body.mapM Instruction.run { name } with
  | .ok made proc => .ok (made, proc)
  | .error fault _ => .error fault

end CallLowering
