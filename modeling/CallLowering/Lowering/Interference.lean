import CallLowering.Graph.Traversal
import CallLowering.Lowering.Step

/-!
Which arguments have to be evaluated to a temp before the call, so that moving the others to the
late list reorders nothing that can be observed, and which stack arguments have to wait for the late
list, so that no call overwrites their slot.
-/

namespace CallLowering

-- What the analysis knows about one argument. Without an early node there are no effects.
structure ArgSummary where
  value : Option NodeId := none
  effects : Effects := {}
  exceptions : Exceptions := {}
  inReg : Bool := false
  stackOnly : Bool := false
  isSplit : Bool := false
  hasStack : Bool := false
  spreadStruct : Bool := false
  -- the whole value is a call that returns a float
  floatCall : Bool := false
  stored : List LocalId := []
  -- locals that the value reads, where a later argument stores anything
  read : List LocalId := []
deriving DecidableEq, Repr

namespace ArgSummary

def ofPlacement (placement : Placement) : ArgSummary where
  inReg := placement.hasReg
  stackOnly := placement.isStackOnly
  isSplit := placement.isSplit
  hasStack := placement.hasStack

def ofArgument (proc : Procedure) (arg : Argument) : Except Fault ArgSummary := do
  let summary := ofPlacement arg.placement
  match arg.early with
  | none => pure summary
  | some value =>
    let node ← proc.node value
    let stored ← if node.effects.assigns then proc.storedLocals value else pure []
    pure { summary with
      value := some value
      effects := node.effects
      exceptions := node.exceptions
      spreadStruct := arg.ty.isStruct && arg.placement.isMulti && !node.kind.isLocalRead
      floatCall := node.kind.call?.isSome && node.ty.isFloat
      stored }

def addReads (proc : Procedure) : List ArgSummary → Except Fault (List ArgSummary)
  | [] => .ok []
  | arg :: later => do
    let laterDone ← addReads proc later
    match arg.value with
    | some value =>
      if later.any fun other => !other.stored.isEmpty then
        pure ({ arg with read := ← proc.localsRead value } :: laterDone)
      else pure (arg :: laterDone)
    | none => pure (arg :: laterDone)

def ofArguments (proc : Procedure) (args : List Argument) : Except Fault (List ArgSummary) := do
  addReads proc (← args.mapM (ofArgument proc))

def storesWhatIsRead (later earlier : ArgSummary) : Bool :=
  later.stored.any fun var => earlier.read.contains var

end ArgSummary

namespace Interference

structure Rules where
  fixedOut : Bool
  splitNeedsPlace : Bool
  debugCode : Bool
  several : Bool
deriving DecidableEq, Repr

structure Profile where
  arg : ArgSummary
  -- keeps its position like a call
  likeCall : Bool
  -- may raise something else than the argument that raised last before it
  differs : Bool
deriving DecidableEq, Repr

-- In debug code a range or overflow check keeps its position relative to stack arguments.
def isChecked (rules : Rules) (otherStack : Bool) (arg : ArgSummary) : Bool :=
  rules.debugCode && rules.fixedOut && rules.several && arg.effects.raises
    && (arg.exceptions.indexOutOfRange || arg.exceptions.overflow) && otherStack

-- Goes through the arguments with what was seen before: a stack part, and the exceptions of the
-- last argument that raised any.
def profilesFrom (rules : Rules) : Bool → Option Exceptions → List ArgSummary → List Profile
  | _, _, [] => []
  | stackBefore, last, arg :: later =>
    let checked := isChecked rules (stackBefore || later.any ArgSummary.hasStack) arg
    let tracked := arg.effects.raises && !checked
    let differs := tracked && last.any fun exceptions =>
      exceptions != arg.exceptions || !arg.exceptions.isSingleKind
    { arg, likeCall := arg.effects.calls || checked, differs }
      :: profilesFrom rules (stackBefore || arg.hasStack)
        (if tracked then some arg.exceptions else last) later

def profiles (rules : Rules) (args : List ArgSummary) : List Profile :=
  profilesFrom rules false none args

def pinsItself (rules : Rules) (profile : Profile) : Bool :=
  let arg := profile.arg
  arg.effects.assigns && (rules.fixedOut || !arg.stackOnly) && rules.several
    || profile.likeCall && !rules.several && arg.floatCall
    || arg.spreadStruct && arg.effects.isAny && rules.several

def pins (later earlier : Profile) : Bool :=
  later.arg.effects.assigns && earlier.arg.value.isSome
      && (earlier.arg.effects.isGlobal || later.arg.storesWhatIsRead earlier.arg)
    || later.differs && earlier.arg.effects.raises
    || later.likeCall && earlier.arg.effects.isGlobal

def requests (rules : Rules) : List Profile → List Bool
  | [] => []
  | profile :: later =>
    (pinsItself rules profile || later.any fun other => pins other profile) :: requests rules later

def unpinned (profiles : List Profile) : List Bool := profiles.map fun _ => false

-- There is a value, and it has not got a temp yet.
def isOpen (profiles : List Profile) (pinned : List Bool) (index : Nat) : Bool :=
  (profiles[index]?.any fun profile => profile.arg.value.isSome) && pinned[index]? == some false

-- Pins the side effects among the first `count` arguments, each of them with those in front of it.
def pinEffects (profiles : List Profile) : (count : Nat) → List Bool → List Bool
  | 0, pinned => pinned
  | index + 1, pinned =>
    let pinned := pinEffects profiles index pinned
    if (profiles[index]?.any fun profile => profile.arg.effects.isSideEffect)
        && isOpen profiles pinned index then
      pinEffects profiles index (pinned.set index true)
    else pinned

-- Once an argument runs in the early list, a side effect in front of it that is left behind would run after it.
def pin (profiles : List Profile) (pinned : List Bool) (target : Nat) : List Bool :=
  if isOpen profiles pinned target then pinEffects profiles target (pinned.set target true) else pinned

def pinAll (profiles : List Profile) (pinned requested : List Bool) : List Bool :=
  requested.zipIdx.foldl (fun pinned (wanted, index) =>
    if wanted then pin profiles pinned index else pinned) pinned

-- The outgoing slot is written before the call and can be overwritten by a call in between.
def slotAtRisk (rules : Rules) (arg : ArgSummary) : Bool :=
  rules.fixedOut && arg.stackOnly || arg.isSplit && rules.splitNeedsPlace

-- Arguments that wait for the late list: those without global effects in front of a call, since the
-- others get a temp, and all of them behind one, since that call may run late itself.
def placesFrom (rules : Rules) : Bool → List Profile → List Bool
  | _, [] => []
  | callBefore, profile :: later =>
    let callAfter := later.any Profile.likeCall && !profile.arg.effects.isGlobal
    (profile.arg.value.isSome && slotAtRisk rules profile.arg && (callBefore || callAfter))
      :: placesFrom rules (callBefore || profile.likeCall) later

def places (rules : Rules) (profiles : List Profile) : List Bool := placesFrom rules false profiles

def faultBlocks (rule : FaultRule) (proc : Procedure) (value : NodeId) : Except Fault Bool := do
  match rule with
  | .raises => pure (← proc.node value).effects.raises
  | .allocatesStack =>
    if proc.allocatesStack then proc.contains value NodeKind.isStackAlloc else pure false

def blockRequests (rule : FaultRule) (proc : Procedure) (profiles : List Profile)
    (pinned : List Bool) : Except Fault (List Bool) :=
  (profiles.zip pinned).mapM fun (profile, isPinned) =>
    match profile.arg.value with
    | some value =>
      if profile.arg.inReg && !isPinned then faultBlocks rule proc value else pure false
    | none => pure false

-- A checked dispatch reads `this` early, so `this` and every side effect come before it.
def dispatchRequests (thisIndex : Nat) (profiles : List Profile) : List Bool :=
  profiles.zipIdx.map fun (profile, index) => index == thisIndex || profile.arg.effects.isSideEffect

def isGuarded (settings : Settings) (data : Call) : Bool :=
  settings.options.guardDispatch && settings.target.guardedDispatch && data.dispatchesOnThis

def rules (settings : Settings) (data : Call) : Rules where
  fixedOut := settings.target.fixedOut
  splitNeedsPlace := settings.target.splitNeedsPlace
  debugCode := settings.options.debugCode
  several := data.args.size > 1

structure Mark where
  pinned : Bool
  placed : Bool
deriving DecidableEq, Repr

def analyse (settings : Settings) (id : CallId) (proc : Procedure) (data : Call) :
    Except Stop (List Mark) := do
  let rules := rules settings data
  let profiles := profiles rules (← ArgSummary.ofArguments proc data.args.args)
  let pinned := pinAll profiles (unpinned profiles) (requests rules profiles)
  let blocked ← if data.args.hasStackArgs then
      blockRequests settings.target.faultRule proc profiles pinned
    else pure (unpinned profiles)
  let dispatched ← if isGuarded settings data then
      match data.args.thisIndex with
      | some index => pure (dispatchRequests index profiles)
      | none => throw (.refusal (.inconsistent id .checkedDispatchWithoutThis))
    else pure (unpinned profiles)
  let pinned := pinAll profiles (pinAll profiles pinned blocked) dispatched
  pure (List.zipWith Mark.mk pinned (places rules profiles))

def applyMark (arg : Argument) (mark : Mark) : Argument :=
  { arg with flags := { arg.flags with
      needsTemp := arg.flags.needsTemp || mark.pinned
      needsPlace := arg.flags.needsPlace || mark.placed } }

def complete (settings : Settings) (id : CallId) : Attempt Unit := do
  let data ← Edit.call id
  if data.args.stage ≠ .finalized then refuse id (.analysedIn data.args.stage)
  let marks ← analyse settings id (← get) data
  Edit.modifyArgs id fun list =>
    { list with args := List.zipWith applyMark list.args marks }.markComplete

end Interference

end CallLowering
