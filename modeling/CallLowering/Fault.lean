/-!
Faults and 32-bit quantities. A fault is a broken precondition: an identity that names nothing, a quantity that
leaves 32 bits, an operation asked for in the wrong stage.
-/

namespace CallLowering

abbrev NodeId := Nat
abbrev LocalId := Nat
abbrev CallId := Nat

inductive Fault where
  | unknownNode (index : Nat)
  | unknownLocal (index : Nat)
  | unknownCall (index : Nat)
  | unknownArgument (index : Nat)
  | unknownStruct (index : Nat)
  | unknownProcedure (index : Nat)
  | reservedIdentity
  | wordOverflow
  | zeroChunk
  | emptyStruct (name : String)
  | nestedStruct (name : String)
  | resetAfterCompletion
  | copyOutsideScope
  | secondThis
  | wrongStage
  | notFloat
  | tooDeep
  | outOfBounds
  | underflow
deriving DecidableEq, Repr

-- The words a fault is announced with. The others are announced by their occurrence alone.
def Fault.message : Fault → Option String
  | .emptyStruct name => some s!"struct {name} has no fields"
  | .nestedStruct name => some s!"nested struct in {name} is not supported"
  | .resetAfterCompletion => some "cannot reset an argument list after it was completed"
  | .copyOutsideScope => some "struct copy taken outside a call scope"
  | _ => none

namespace Word

def limit : Nat := 0x100000000

-- Sizes and offsets are 32-bit words; one that does not fit is a fault.
def check (n : Nat) : Except Fault Nat :=
  if n < limit then .ok n else .error .wordOverflow

def add (a b : Nat) : Except Fault Nat := check (a + b)

end Word

-- An identity is a 32-bit word below the largest one, which is reserved and names nothing.
def Identity.check (n : Nat) : Except Fault Nat :=
  if n + 1 < Word.limit then .ok n else .error .reservedIdentity

-- The least multiple of `unit` that is not below `n`.
def roundUp (n unit : Nat) : Nat := (n + (unit - 1)) / unit * unit

def Word.roundUp (n unit : Nat) : Except Fault Nat := Word.check (CallLowering.roundUp n unit)

end CallLowering
