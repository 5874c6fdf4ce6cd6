import CallLowering.Fault
import CallLowering.Types.Value
import CallLowering.Placement.Segment

/-! The argument list of a call, in the order in which places are assigned. -/

namespace CallLowering

-- What an argument is for. All roles but the first two are fixed by the runtime and not by the
-- callee's signature.
inductive ArgRole where
  | ordinary
  | thisPointer
  | returnBuffer
  | varargsCookie
  | instParam
  | stubCell
  | r2rCell
  | pinvokeCookie
  | pinvokeTarget
  | wrapperCell
  | pinvokeFrame
deriving DecidableEq, Repr

namespace ArgRole

def all : List ArgRole :=
  [ordinary, thisPointer, returnBuffer, varargsCookie, instParam, stubCell, r2rCell, pinvokeCookie,
    pinvokeTarget, wrapperCell, pinvokeFrame]

def text : ArgRole → String
  | ordinary => "ordinary"
  | thisPointer => "this"
  | returnBuffer => "retbuf"
  | varargsCookie => "varargs-cookie"
  | instParam => "inst-param"
  | stubCell => "stub-cell"
  | r2rCell => "r2r-cell"
  | pinvokeCookie => "pinvoke-cookie"
  | pinvokeTarget => "pinvoke-target"
  | wrapperCell => "wrapper-delegate-cell"
  | pinvokeFrame => "pinvoke-frame"

def isUser : ArgRole → Bool
  | ordinary | thisPointer => true
  | _ => false

end ArgRole

structure ArgFlags where
  needsTemp : Bool := false
  -- defer to the late list, since a call would overwrite the outgoing slot
  needsPlace : Bool := false
  processed : Bool := false
  lateAdded : Bool := false
  isTemp : Bool := false
deriving DecidableEq, Repr, Inhabited

namespace ArgFlags

def bits (flags : ArgFlags) : Nat :=
  flags.needsTemp.toNat + 2 * flags.needsPlace.toNat + 4 * flags.processed.toNat
    + 8 * flags.lateAdded.toNat + 16 * flags.isTemp.toNat

def ofBits (bits : Nat) : ArgFlags where
  needsTemp := bits.testBit 0
  needsPlace := bits.testBit 1
  processed := bits.testBit 2
  lateAdded := bits.testBit 3
  isTemp := bits.testBit 4

end ArgFlags

structure Argument where
  early : Option NodeId := none
  late : Option NodeId := none
  role : ArgRole := .ordinary
  -- the declared type of the parameter
  ty : ValueType
  placement : Placement := {}
  flags : ArgFlags := {}
  temp : Option LocalId := none
deriving DecidableEq, Repr

namespace Argument

def ofValue (value : NodeId) (ty : ValueType) (role : ArgRole) : Argument :=
  { early := some value, role, ty }

def hidden (value : NodeId) (ty : ValueType) (role : ArgRole) : Argument :=
  { early := some value, role, ty, flags := { lateAdded := true } }

def value (arg : Argument) : Option NodeId := arg.early.or arg.late

-- Stored to a temp early and read from there late.
abbrev viaTemp (arg : Argument) (temp : LocalId) (store read : NodeId) : Argument :=
  { arg with
    early := some store, late := some read, temp := some temp
    flags := { arg.flags with isTemp := true } }

end Argument

-- The life of an argument list. It moves forward only, but for a reset before completion.
inductive Stage where
  | unfinalized
  | finalized
  | completed
  | materialized
deriving DecidableEq, Repr, Inhabited

namespace Stage

def text : Stage → String
  | unfinalized => "Unfinalized"
  | finalized => "Finalized"
  | completed => "Completed"
  | materialized => "Materialized"

def isFinalized : Stage → Bool
  | unfinalized => false
  | _ => true

def isCompleted : Stage → Bool
  | completed | materialized => true
  | _ => false

end Stage

structure ArgList where
  args : List Argument := []
  lateOrder : List Nat := []
  stage : Stage := .unfinalized
  hasRegArgs : Bool := false
  hasStackArgs : Bool := false
  stackSize : Nat := 0
deriving DecidableEq, Repr, Inhabited

namespace ArgList

def size (list : ArgList) : Nat := list.args.length

def arg (list : ArgList) (index : Nat) : Except Fault Argument :=
  match list.args[index]? with
  | some arg => .ok arg
  | none => .error (.unknownArgument index)

def modifyArg (list : ArgList) (index : Nat) (change : Argument → Argument) : ArgList :=
  { list with args := list.args.modify index change }

def findRole (list : ArgList) (role : ArgRole) : Option Nat :=
  list.args.findIdx? fun arg => arg.role == role

def thisIndex (list : ArgList) : Option Nat := list.findRole .thisPointer

def push (list : ArgList) (arg : Argument) : ArgList :=
  { list with args := list.args ++ [arg] }

def pushThis (list : ArgList) (value : NodeId) (ty : ValueType) : Except Fault ArgList :=
  match list.thisIndex with
  | some _ => .error .secondThis
  | none => .ok { list with args := .ofValue value ty .thisPointer :: list.args }

def afterThis (list : ArgList) : Nat :=
  match list.thisIndex with
  | some index => index + 1
  | none => 0

def insertAfterThis (list : ArgList) (arg : Argument) : ArgList :=
  { list with args := list.args.insertIdx list.afterThis arg }

def earlyIndices (list : ArgList) : List Nat :=
  (List.range list.size).filter fun index => list.args[index]?.any fun arg => arg.early.isSome

def lateArgs (list : ArgList) : Except Fault (List Argument) := list.lateOrder.mapM list.arg

def isMaterialized (list : ArgList) : Bool := list.stage == .materialized

-- Freezes the placements that the arguments already carry.
def markFinalized (list : ArgList) (stackSize : Nat) : Except Fault ArgList :=
  if list.stage = .unfinalized then
    .ok { list with
      hasRegArgs := list.args.any fun arg => arg.placement.hasReg
      hasStackArgs := list.args.any fun arg => arg.placement.hasStack
      stackSize
      stage := .finalized }
  else .error .wrongStage

def markComplete (list : ArgList) : Except Fault ArgList :=
  if list.stage = .finalized then .ok { list with stage := .completed }
  else .error .wrongStage

def markMaterialized (list : ArgList) (lateOrder : List Nat) : Except Fault ArgList :=
  if list.stage = .completed then .ok { list with lateOrder, stage := .materialized }
  else .error .wrongStage

-- Drops the hidden arguments and all placement information, so that the list can be finalized
-- again. After completion nodes may have moved between the lists, and there is no way back.
def reset (list : ArgList) : Except Fault ArgList :=
  match list.stage with
  | .unfinalized => .ok list
  | .finalized => .ok { list with
      args := (list.args.filter fun arg => !arg.flags.lateAdded).map fun arg =>
        { arg with placement := {} }
      hasRegArgs := false
      hasStackArgs := false
      stackSize := 0
      stage := .unfinalized }
  | .completed | .materialized => .error .resetAfterCompletion

end ArgList

end CallLowering
