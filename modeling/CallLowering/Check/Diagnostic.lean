import CallLowering.Graph.Argument

/-! Diagnostics about lowered calls, and the reports that collect them. -/

namespace CallLowering

inductive DiagnosticCode where
  | argListNotMaterialized
  | argWithoutNode
  | illegalArgShape
  | lateOrderOutOfRange
  | lateOrderDuplicate
  | lateOrderWithoutLateNode
  | lateNodeMissingFromLateOrder
  | emptyPlacement
  | nonContiguousPlacement
  | overlappingStackSlots
  | registerUsedTwice
  | stackSizeMismatch
  | tempStoreMismatch
  | tempReadMismatch
  | unloweredCall
deriving DecidableEq, Repr

namespace DiagnosticCode

def all : List DiagnosticCode :=
  [argListNotMaterialized, argWithoutNode, illegalArgShape, lateOrderOutOfRange, lateOrderDuplicate,
    lateOrderWithoutLateNode, lateNodeMissingFromLateOrder, emptyPlacement, nonContiguousPlacement,
    overlappingStackSlots, registerUsedTwice, stackSizeMismatch, tempStoreMismatch,
    tempReadMismatch, unloweredCall]

def name : DiagnosticCode → String
  | argListNotMaterialized => "ArgListNotMaterialized"
  | argWithoutNode => "ArgWithoutNode"
  | illegalArgShape => "IllegalArgShape"
  | lateOrderOutOfRange => "LateOrderOutOfRange"
  | lateOrderDuplicate => "LateOrderDuplicate"
  | lateOrderWithoutLateNode => "LateOrderWithoutLateNode"
  | lateNodeMissingFromLateOrder => "LateNodeMissingFromLateOrder"
  | emptyPlacement => "EmptyPlacement"
  | nonContiguousPlacement => "NonContiguousPlacement"
  | overlappingStackSlots => "OverlappingStackSlots"
  | registerUsedTwice => "RegisterUsedTwice"
  | stackSizeMismatch => "StackSizeMismatch"
  | tempStoreMismatch => "TempStoreMismatch"
  | tempReadMismatch => "TempReadMismatch"
  | unloweredCall => "UnloweredCall"

def number : DiagnosticCode → Nat
  | argListNotMaterialized => 1
  | argWithoutNode => 100
  | illegalArgShape => 101
  | lateOrderOutOfRange => 200
  | lateOrderDuplicate => 201
  | lateOrderWithoutLateNode => 202
  | lateNodeMissingFromLateOrder => 203
  | emptyPlacement => 300
  | nonContiguousPlacement => 301
  | overlappingStackSlots => 302
  | registerUsedTwice => 303
  | stackSizeMismatch => 304
  | tempStoreMismatch => 400
  | tempReadMismatch => 401
  | unloweredCall => 500

def text (code : DiagnosticCode) : String :=
  let digits := toString code.number
  "ARG" ++ String.ofList (List.replicate (4 - digits.length) '0') ++ digits

end DiagnosticCode

inductive Severity where
  | error
  | warning
deriving DecidableEq, Repr

def Severity.text : Severity → String
  | .error => "error"
  | .warning => "warning"

inductive Location where
  | procedure (name : String)
  | call (call : CallId)
  | argument (call : CallId) (index : Nat)
deriving DecidableEq, Repr

def Location.text : Location → String
  | .procedure name => "%" ++ name
  | .call id => s!"call{id}"
  | .argument id index => s!"call{id}:arg{index}"

structure Diagnostic where
  code : DiagnosticCode
  severity : Severity
  message : String
  primary : Location
  notes : List String := []
  snippet : Option String := none
deriving DecidableEq, Repr

namespace Diagnostic

def isError (diagnostic : Diagnostic) : Bool := diagnostic.severity == .error

def text (diagnostic : Diagnostic) : String :=
  diagnostic.severity.text ++ " [" ++ diagnostic.code.text ++ "] " ++ diagnostic.message ++ " @ "
    ++ diagnostic.primary.text ++ "\n"
    ++ String.join (diagnostic.notes.map fun note => "  note: " ++ note ++ "\n")
    ++ diagnostic.snippet.getD ""

end Diagnostic

structure Report where
  diagnostics : List Diagnostic := []
deriving DecidableEq, Repr

namespace Report

def errors (report : Report) : List Diagnostic := report.diagnostics.filter Diagnostic.isError

def isOk (report : Report) : Bool := !report.diagnostics.any Diagnostic.isError

def isFull (report : Report) (cap : Nat) : Bool := cap != 0 && report.diagnostics.length ≥ cap

def push (report : Report) (cap : Nat) (diagnostic : Diagnostic) : Report :=
  if report.isFull cap then report else ⟨report.diagnostics ++ [diagnostic]⟩

-- Takes over diagnostics one by one until the report is full.
def merge (report : Report) (cap : Nat) : List Diagnostic → Report
  | [] => report
  | diagnostic :: rest =>
    if report.isFull cap then report else merge ⟨report.diagnostics ++ [diagnostic]⟩ cap rest

def mergeAll (report : Report) (cap : Nat) : List Report → Report
  | [] => report
  | other :: rest =>
    if report.isFull cap then report else (report.merge cap other.diagnostics).mergeAll cap rest

def text (report : Report) : String :=
  if report.diagnostics.isEmpty then "verification succeeded"
  else "\n".intercalate (report.diagnostics.map Diagnostic.text)

end Report

end CallLowering
