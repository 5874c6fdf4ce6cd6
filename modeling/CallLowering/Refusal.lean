import CallLowering.Check.Diagnostic
import CallLowering.Placement.Triple

/-!
Refusals: the reasons for which a call is not lowered. A refusal ends the work on a procedure but
leaves it as it stands, unlike a fault, after which there is nothing to go on with.
-/

namespace CallLowering

inductive Unsupported where
  | nativeVarargs (triple : Triple)
  | managedVarargs (triple : Triple)
  | other (what : String)
deriving DecidableEq, Repr

def Unsupported.text : Unsupported → String
  | .nativeVarargs triple => "native varargs calls on " ++ triple.text
  | .managedVarargs triple => "managed varargs calls on " ++ triple.text
  | .other what => what

inductive PlacementError where
  | noLayout (role : ArgRole) (ty : ValueType)
  | voidArgument (role : ArgRole)
  | registersExhausted
  | splitFits (size : Nat)
  | other (what : String)
deriving DecidableEq, Repr

def PlacementError.text : PlacementError → String
  | .noLayout role ty => role.text ++ " argument of type " ++ ty.text ++ " has no layout"
  | .voidArgument role => role.text ++ " argument has type void"
  | .registersExhausted => "ran out of argument registers"
  | .splitFits size => s!"{size}-byte argument was split but fits in registers"
  | .other what => what

-- What a call lacks, or what went wrong inside the lowering itself.
inductive Inconsistency where
  | wrapperWithoutThis
  | wrapperWithoutOffset
  | thisWithoutEarlyNode
  | stubWithoutCell
  | r2rWithoutCell
  | placementCount (placed expected : Nat)
  | placementsRanOut
  | resetAfterCompletion
  | completedNotMaterialized
  | analysedIn (stage : Stage)
  | checkedDispatchWithoutThis
  | addressNotDuplicable
  | materializedIn (stage : Stage)
  | noNode (index : Nat)
  | noValue (index : Nat)
  | pinnedReturnBuffer
  | unfinishedSort (head tail count : Nat)
deriving DecidableEq, Repr

def Inconsistency.text : Inconsistency → String
  | .wrapperWithoutThis => "wrapper delegate call without this"
  | .wrapperWithoutOffset => "wrapper delegate call without a cell offset"
  | .thisWithoutEarlyNode => "this has no early node"
  | .stubWithoutCell => "stub dispatch without a stub cell"
  | .r2rWithoutCell => "R2R call without an indirection cell"
  | .placementCount placed expected => s!"classifier placed {placed} arguments, expected {expected}"
  | .placementsRanOut => "classifier placements ran out"
  | .resetAfterCompletion => "ABI info reset after the arguments were completed"
  | .completedNotMaterialized => "arguments completed but never materialized"
  | .analysedIn stage => "interference analysis in state " ++ stage.text
  | .checkedDispatchWithoutThis => "checked virtual dispatch without this"
  | .addressNotDuplicable => "struct address cannot be duplicated"
  | .materializedIn stage => "arguments materialized in state " ++ stage.text
  | .noNode index => s!"arg{index} has no node to materialize"
  | .noValue index => s!"arg{index} produces no value"
  | .pinnedReturnBuffer => "return buffer pointing at a local cannot move to a temp"
  | .unfinishedSort head tail count =>
    s!"argument sort ended with head {head} and tail {tail} of {count}"

inductive Refusal where
  | notYetImplemented (what : Unsupported)
  | inconsistent (call : CallId) (reason : Inconsistency)
  | unplaceable (cause : PlacementError)
  | failedCheck (call : CallId) (report : Report)
deriving DecidableEq, Repr

namespace Refusal

def name : Refusal → String
  | notYetImplemented _ => "NotYetImplemented"
  | inconsistent _ _ => "Internal"
  | unplaceable _ => "Abi"
  | failedCheck _ _ => "Verification"

def message : Refusal → String
  | notYetImplemented what => "not yet implemented: " ++ what.text
  | inconsistent id reason => s!"internal consistency violation in call{id}: " ++ reason.text
  | unplaceable cause => "ABI classification failed: " ++ cause.text
  | failedCheck id report => s!"lowered call{id} failed verification:\n" ++ report.text

-- Refusals that no input should bring about.
def isInternal : Refusal → Bool
  | inconsistent _ _ | failedCheck _ _ => true
  | _ => false

end Refusal

-- Why a computation ended early.
inductive Stop where
  | fault (fault : Fault)
  | refusal (refusal : Refusal)
deriving DecidableEq, Repr

instance : MonadLift (Except Fault) (Except Stop) where
  monadLift
    | .ok result => .ok result
    | .error fault => .error (.fault fault)

end CallLowering
