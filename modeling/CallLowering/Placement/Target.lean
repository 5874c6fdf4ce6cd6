import CallLowering.Placement.Arm32
import CallLowering.Placement.Arm64
import CallLowering.Placement.X64
import CallLowering.Placement.X86

/-! Targets: what lowering has to know about a platform. -/

namespace CallLowering

inductive FaultRule where
  | raises
  | allocatesStack
deriving DecidableEq, Repr

structure Target where
  triple : Triple
  classify : CallShape → List ArgShape → Except Stop Classification
  -- the register of a role that bypasses the convention
  customReg : ArgRole → Option Reg
  -- stack arguments are stored to a preallocated area rather than pushed
  fixedOut : Bool := true
  -- the stack part of a split argument is overwritten by a later call like a stack argument
  splitNeedsPlace : Bool := false
  faultRule : FaultRule := .allocatesStack
  nativeVarargs : Bool := false
  guardedDispatch : Bool := false

namespace Target

def pointerSize (target : Target) : Nat := target.triple.pointerSize

def x64CustomReg : ArgRole → Option Reg
  | .stubCell | .wrapperCell | .pinvokeCookie => some (.int 11)
  | .pinvokeTarget => some (.int 10)
  | .r2rCell => some (.int 0)
  | _ => none

def x86CustomReg : ArgRole → Option Reg
  | .stubCell | .wrapperCell | .r2rCell | .pinvokeTarget => some (.int 0)
  | _ => none

def arm32CustomReg : ArgRole → Option Reg
  | .stubCell | .wrapperCell | .r2rCell | .pinvokeCookie => some (.int 4)
  | .pinvokeTarget => some (.int 12)
  | _ => none

def arm64CustomReg : ArgRole → Option Reg
  | .stubCell | .wrapperCell | .r2rCell => some (.int 11)
  | .pinvokeCookie => some (.int 15)
  | .pinvokeTarget => some (.int 14)
  | _ => none

def ofTriple (triple : Triple) : Target :=
  match triple.architecture with
  | .x64 =>
    if triple.isWindows then
      { triple, classify := WindowsX64.classify, customReg := x64CustomReg, nativeVarargs := true,
        guardedDispatch := true }
    else { triple, classify := SystemV.classify, customReg := x64CustomReg }
  | .x86 =>
    { triple, classify := X86.classify, customReg := x86CustomReg, fixedOut := false,
      faultRule := .raises, nativeVarargs := triple.isWindows }
  | .arm64 =>
    { triple, classify := Arm64.classify triple.isWindows, customReg := arm64CustomReg,
      nativeVarargs := triple.isWindows, guardedDispatch := triple.isWindows }
  | .arm32 =>
    { triple, classify := Arm32.classify, customReg := arm32CustomReg, splitNeedsPlace := true }

-- A target that places every call alike, whatever its arguments are.
structure Script where
  triple : Triple
  answer : Except String Classification
  customRegs : List (ArgRole × Reg) := []
  fixedOut : Bool := true
  splitNeedsPlace : Bool := false
  nativeVarargs : Bool := false
  guardedDispatch : Bool := false

def ofScript (script : Script) : Target where
  triple := script.triple
  classify := fun _ _ =>
    match script.answer with
    | .ok classification => .ok classification
    | .error what => .error (.refusal (.unplaceable (.other what)))
  customReg := fun role => script.customRegs.lookup role
  fixedOut := script.fixedOut
  splitNeedsPlace := script.splitNeedsPlace
  nativeVarargs := script.nativeVarargs
  guardedDispatch := script.guardedDispatch

end Target

end CallLowering
