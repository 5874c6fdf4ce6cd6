import CallLowering.Lowering.Step

/-!
Finalizing an argument list: the arguments that the runtime expects beyond the signature are added, and every
argument gets its placement.
-/

namespace CallLowering

namespace AbiInfo

open Edit

def pushHidden (id : CallId) (value : NodeId) (role : ArgRole) : Edit Unit :=
  modifyCall id fun call => { call with args := call.args.push (.hidden value .ptr role) }

-- An indirect call with a cookie goes through a helper that takes cookie and target.
def routeThroughHelper (id : CallId) : Edit Unit := do
  let data ← call id
  match data.target, data.cookie with
  | .indirect target, some cookie => do
    pushHidden id cookie .pinvokeCookie
    pushHidden id target .pinvokeTarget
    modifyCall id fun call => { call with target := .pinvokeHelper, cookie := none }
  | _, _ => pure ()

-- Stores `this` to a temp in front of its use, and yields a second read of that temp.
def spillThis (id : CallId) (index : Nat) (value : NodeId) (ty : ValueType) : Edit NodeId := do
  let temp ← addLocal { ty, kind := .argTemp }
  let store ← addNode (.storeLocal temp value) .void
  let read ← addNode (.readLocal temp) ty
  let spilled ← addNode (.comma store read) ty
  modifyArg id index fun arg => { arg with early := some spilled }
  addNode (.readLocal temp) ty

-- A second node for the value of `this`.
def thisAgain (id : CallId) (index : Nat) (value : NodeId) : Edit NodeId := do
  let ty := (← node value).ty
  match ← cloneSimple value with
  | some copy => pure copy
  | none => spillThis id index value ty

def loadCell (id : CallId) (base : NodeId) (offset : Nat) : Edit Unit := do
  let amount ← addNode (.intConst (Int64.ofNat offset)) .ptr
  let addr ← addNode (.binary .add base amount) .ptr
  let cell ← addNode (.load addr false) .ptr
  modifyCall id fun call =>
    { call with args := call.args.insertAfterThis (.hidden cell .ptr .wrapperCell) }

def addWrapperCell (id : CallId) : Attempt Unit := do
  let data ← call id
  let some index := data.args.thisIndex | refuse id .wrapperWithoutThis
  let some offset := data.wrapperOffset | refuse id .wrapperWithoutOffset
  let some value := (← arg id index).early | refuse id .thisWithoutEarlyNode
  let base ← thisAgain id index value
  loadCell id base offset

def addCell (id : CallId) (role : ArgRole) (missing : Inconsistency) (cell : Option Int64) :
    Attempt Unit := do
  let some addr := cell | refuse id missing
  let value ← addNode (.intConst addr) .ptr
  pushHidden id value role

def addHiddenArgs (id : CallId) : Attempt Unit := do
  let data ← call id
  routeThroughHelper id
  if data.flags.wrapperDelegate then addWrapperCell id
  if data.flags.virtualStub && !data.flags.r2r then
    addCell id .stubCell .stubWithoutCell data.stubCell
  if data.flags.r2r then addCell id .r2rCell .r2rWithoutCell data.r2rCell

def checkVarargs (target : Target) (flags : CallFlags) : Except Stop Unit :=
  if flags.nativeVarargs && !target.nativeVarargs then
    .error (.refusal (.notYetImplemented (.nativeVarargs target.triple)))
  else if flags.managedVarargs && !target.triple.isWindows then
    .error (.refusal (.notYetImplemented (.managedVarargs target.triple)))
  else .ok ()

def callShape (data : Call) : CallShape where
  convention := data.convention
  isVarargs := data.isVarargs
  hasThis := data.hasThis
  hasReturnBuffer := data.hasReturnBuffer

def argShape (types : TypeTable) (arg : Argument) : Except Fault ArgShape := do
  pure { ty := arg.ty, layout := ← types.layoutOf arg.ty, role := arg.role }

-- Hands the placements out to the arguments without a custom register, in order.
def assign (target : Target) : List Argument → List Placement → Option (List Argument)
  | [], _ => some []
  | arg :: rest, placements =>
    match target.customReg arg.role, placements with
    | some reg, _ =>
      (assign target rest placements).map fun later =>
        { arg with placement := .inReg reg target.pointerSize } :: later
    | none, placement :: others =>
      (assign target rest others).map fun later => { arg with placement } :: later
    | none, [] => none

def placeArgs (settings : Settings) (id : CallId) : Attempt Unit := do
  let data ← call id
  let target := settings.target
  let classified := data.args.args.filter fun arg => (target.customReg arg.role).isNone
  let shapes ← (classified.mapM (argShape settings.types) : Except Fault _)
  let answer ← target.classify (callShape data) shapes
  if answer.placements.length ≠ shapes.length then
    refuse id (.placementCount answer.placements.length shapes.length)
  let some args := assign target data.args.args answer.placements | refuse id .placementsRanOut
  modifyArgs id fun list => { list with args }.markFinalized answer.stackSize

def finalize (settings : Settings) (id : CallId) : Attempt Unit := do
  let data ← call id
  if data.args.stage.isFinalized then pure ()
  else
    addHiddenArgs id
    checkVarargs settings.target data.flags
    placeArgs settings id

-- The indirect call that a helper call with cookie and target stands for.
def restoreIndirect (data : Call) : Call :=
  let value (role : ArgRole) : Option NodeId := do
    (← data.args.args[← data.args.findRole role]?).value
  match data.target, value .pinvokeCookie, value .pinvokeTarget with
  | .pinvokeHelper, some cookie, some target =>
    { data with target := .indirect target, cookie := some cookie }
  | _, _, _ => data

def reset (id : CallId) : Attempt Unit := do
  let data ← call id
  if data.args.stage.isCompleted then refuse id .resetAfterCompletion
  modifyCall id restoreIndirect
  modifyArgs id ArgList.reset

end AbiInfo

end CallLowering
