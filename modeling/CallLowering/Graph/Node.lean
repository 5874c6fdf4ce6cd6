import CallLowering.Fault
import CallLowering.Types.Value
import CallLowering.Graph.Effect

/-!
Expression nodes. A node names its children by identity, so a subtree can be moved or replaced
behind the same identity; a call names its argument list and has no children here.
-/

namespace CallLowering

inductive BinaryOp where
  | add
  | sub
  | mul
  | div
  | rem
  | and
  | or
  | xor
  | shl
  | shr
  | addOvf
  | subOvf
  | mulOvf
deriving DecidableEq, Repr

namespace BinaryOp

def exceptions : BinaryOp → Exceptions
  | div | rem => { divideByZero := true }
  | addOvf | subOvf | mulOvf => { overflow := true }
  | _ => {}

def text : BinaryOp → String
  | add => "add"
  | sub => "sub"
  | mul => "mul"
  | div => "div"
  | rem => "rem"
  | and => "and"
  | or => "or"
  | xor => "xor"
  | shl => "shl"
  | shr => "shr"
  | addOvf => "add.ovf"
  | subOvf => "sub.ovf"
  | mulOvf => "mul.ovf"

def all : List BinaryOp :=
  [add, sub, mul, div, rem, and, or, xor, shl, shr, addOvf, subOvf, mulOvf]

end BinaryOp

inductive UnaryOp where
  | neg
  | not
  | cast
deriving DecidableEq, Repr

namespace UnaryOp

def text : UnaryOp → String
  | neg => "neg"
  | not => "not"
  | cast => "cast"

def all : List UnaryOp := [neg, not, cast]

end UnaryOp

-- One member of a field list: the node yields the bytes of type `ty` at `offset`.
structure FieldUse where
  node : NodeId
  offset : Nat
  ty : ValueType
deriving DecidableEq, Repr

inductive NodeKind where
  | intConst (value : Int64)
  | floatConst (bits : UInt64)
  | readLocal (var : LocalId)
  | readField (var : LocalId) (offset : Nat)
  | localAddr (var : LocalId)
  | load (addr : NodeId) (nonFaulting : Bool)
  | storeLocal (var : LocalId) (value : NodeId)
  | storeInd (addr value : NodeId)
  | unary (op : UnaryOp) (operand : NodeId)
  | binary (op : BinaryOp) (lhs rhs : NodeId)
  | boundsCheck (index len : NodeId)
  | comma (first second : NodeId)
  | stackAlloc (size : NodeId)
  | call (call : CallId)
  | fieldList (uses : List FieldUse)
  | nop
deriving DecidableEq, Repr

namespace NodeKind

def children : NodeKind → List NodeId
  | intConst _ | floatConst _ | readLocal _ | readField _ _ | localAddr _ | call _ | nop => []
  | load addr _ => [addr]
  | storeLocal _ value => [value]
  | storeInd addr value => [addr, value]
  | unary _ operand => [operand]
  | binary _ lhs rhs => [lhs, rhs]
  | boundsCheck index len => [index, len]
  | comma first second => [first, second]
  | stackAlloc size => [size]
  | fieldList uses => uses.map FieldUse.node

def mapChildren (f : NodeId → NodeId) : NodeKind → NodeKind
  | load addr nonFaulting => load (f addr) nonFaulting
  | storeLocal var value => storeLocal var (f value)
  | storeInd addr value => storeInd (f addr) (f value)
  | unary op operand => unary op (f operand)
  | binary op lhs rhs => binary op (f lhs) (f rhs)
  | boundsCheck index len => boundsCheck (f index) (f len)
  | comma first second => comma (f first) (f second)
  | stackAlloc size => stackAlloc (f size)
  | fieldList uses => fieldList (uses.map fun field => { field with node := f field.node })
  | kind => kind

def isIntConst : NodeKind → Bool
  | intConst _ => true
  | _ => false

def readsLocal? : NodeKind → Option LocalId
  | readLocal var | readField var _ => some var
  | _ => none

def isLocalRead (kind : NodeKind) : Bool := kind.readsLocal?.isSome

def storesLocal? : NodeKind → Option LocalId
  | storeLocal var _ => some var
  | _ => none

def mentionsLocal? : NodeKind → Option LocalId
  | readLocal var | readField var _ | localAddr var => some var
  | _ => none

def isStore : NodeKind → Bool
  | storeLocal _ _ | storeInd _ _ => true
  | _ => false

theorem isStore_of_storesLocal? (kind : NodeKind) (var : LocalId) (stores : kind.storesLocal? = some var) :
    kind.isStore = true := by
  cases kind with
  | storeLocal _ _ => rfl
  | _ => cases stores

def isStackAlloc : NodeKind → Bool
  | stackAlloc _ => true
  | _ => false

def call? : NodeKind → Option CallId
  | call c => some c
  | _ => none

theorem call?_eq_some_iff (kind : NodeKind) (id : CallId) : kind.call? = some id ↔ kind = .call id := by
  cases kind <;> simp [call?]

end NodeKind

-- The impact is cached: it is the one the node had when it was made or last refreshed.
structure Node where
  kind : NodeKind
  ty : ValueType
  impact : Impact
deriving DecidableEq, Repr

namespace Node

def effects (node : Node) : Effects := node.impact.effects

def exceptions (node : Node) : Exceptions := node.impact.exceptions

end Node

end CallLowering
