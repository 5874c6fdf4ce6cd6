import CallLowering.Graph.Argument

/-! Calls: what is called, how, and with which arguments. -/

namespace CallLowering

inductive CallTarget where
  | method (name : String)
  -- the helper that makes an indirect unmanaged call through a cookie
  | pinvokeHelper
  | runtimeHelper (number : Nat)
  | indirect (node : NodeId)
deriving DecidableEq, Repr, Inhabited

namespace CallTarget

def text : CallTarget → String
  | method name => "%" ++ name
  | pinvokeHelper => "helper.pinvoke_calli"
  | runtimeHelper number => s!"helper.{number}"
  | indirect node => s!"indirect(n{node})"

def isHelper : CallTarget → Bool
  | pinvokeHelper | runtimeHelper _ => true
  | _ => false

def node? : CallTarget → Option NodeId
  | indirect node => some node
  | _ => none

end CallTarget

inductive Convention where
  | managed
  | unmanaged
deriving DecidableEq, Repr, Inhabited

structure CallFlags where
  virtualStub : Bool := false
  -- dispatch through a slot loaded from `this`
  virtualVtable : Bool := false
  delegateInvoke : Bool := false
  r2r : Bool := false
  wrapperDelegate : Bool := false
  nativeVarargs : Bool := false
  managedVarargs : Bool := false
  -- the return buffer is a local itself and not a copy
  retbufAsLocal : Bool := false
deriving DecidableEq, Repr, Inhabited

namespace CallFlags

def union (a b : CallFlags) : CallFlags where
  virtualStub := a.virtualStub || b.virtualStub
  virtualVtable := a.virtualVtable || b.virtualVtable
  delegateInvoke := a.delegateInvoke || b.delegateInvoke
  r2r := a.r2r || b.r2r
  wrapperDelegate := a.wrapperDelegate || b.wrapperDelegate
  nativeVarargs := a.nativeVarargs || b.nativeVarargs
  managedVarargs := a.managedVarargs || b.managedVarargs
  retbufAsLocal := a.retbufAsLocal || b.retbufAsLocal

def without (a b : CallFlags) : CallFlags where
  virtualStub := a.virtualStub && !b.virtualStub
  virtualVtable := a.virtualVtable && !b.virtualVtable
  delegateInvoke := a.delegateInvoke && !b.delegateInvoke
  r2r := a.r2r && !b.r2r
  wrapperDelegate := a.wrapperDelegate && !b.wrapperDelegate
  nativeVarargs := a.nativeVarargs && !b.nativeVarargs
  managedVarargs := a.managedVarargs && !b.managedVarargs
  retbufAsLocal := a.retbufAsLocal && !b.retbufAsLocal

def bits (flags : CallFlags) : Nat :=
  flags.virtualStub.toNat + 2 * flags.virtualVtable.toNat + 4 * flags.delegateInvoke.toNat
    + 8 * flags.r2r.toNat + 16 * flags.wrapperDelegate.toNat + 32 * flags.nativeVarargs.toNat
    + 64 * flags.managedVarargs.toNat + 128 * flags.retbufAsLocal.toNat

def named : List (String × CallFlags) :=
  [("virtual_stub", { virtualStub := true }), ("virtual_vtable", { virtualVtable := true }),
    ("delegate_invoke", { delegateInvoke := true }), ("r2r", { r2r := true }),
    ("wrapper_delegate", { wrapperDelegate := true }),
    ("native_varargs", { nativeVarargs := true }), ("managed_varargs", { managedVarargs := true }),
    ("retbuf_as_local", { retbufAsLocal := true })]

end CallFlags

structure Call where
  target : CallTarget
  flags : CallFlags := {}
  convention : Convention := .managed
  returnType : ValueType
  args : ArgList := {}
  stubCell : Option Int64 := none
  r2rCell : Option Int64 := none
  -- signature cookie of an indirect unmanaged call
  cookie : Option NodeId := none
  wrapperOffset : Option Nat := none
deriving DecidableEq, Repr

namespace Call

def hasThis (call : Call) : Bool := call.args.thisIndex.isSome

def hasReturnBuffer (call : Call) : Bool := (call.args.findRole .returnBuffer).isSome

def isVarargs (call : Call) : Bool := call.flags.nativeVarargs || call.flags.managedVarargs

-- The code address is computed from `this` before the late arguments run.
def dispatchesOnThis (call : Call) : Bool := call.flags.virtualVtable || call.flags.delegateInvoke

def references (call : Call) : List NodeId :=
  call.args.args.flatMap (fun arg => arg.early.toList ++ arg.late.toList)
    ++ call.target.node?.toList

-- The nodes the call evaluates, in order: the early nodes, the late nodes, the target. Before the
-- list is materialized there is no late order, and late nodes count in list order.
def evaluated (call : Call) : Except Fault (List NodeId) := do
  let lateArgs ← if call.args.isMaterialized then call.args.lateArgs else pure call.args.args
  pure (call.args.args.filterMap Argument.early ++ lateArgs.filterMap Argument.late
    ++ call.target.node?.toList)

end Call

end CallLowering
