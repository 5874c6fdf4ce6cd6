import CallLowering.Check.Config
import CallLowering.Check.Diagnostic
import CallLowering.StableSort
import CallLowering.Text.Listing

/-!
Checks of materialized argument lists: the shape of each argument, the late order, the placements,
and the temps. Each check lists what it finds, and a report takes findings until it is full.
-/

namespace CallLowering

inductive Finding where
  | notMaterialized (stage : Stage)
  | noNode
  | storesNothing
  | lateSideEffects
  | onlyEarly
  | orderOutOfRange (index count : Nat)
  | orderDuplicate
  | orderWithoutLateNode
  | missingFromOrder
  | noPlacement
  | gap (segment : Segment) (expected : Nat)
  | registerReused (reg : Reg)
  | pastOutgoingArea (last size : Nat)
  | slotOverlap (other : Nat)
  | tempIncomplete
  | tempNotStored (temp : LocalId)
  | tempNotRead (temp : LocalId)
deriving DecidableEq, Repr

namespace Finding

def code : Finding → DiagnosticCode
  | notMaterialized _ => .argListNotMaterialized
  | noNode => .argWithoutNode
  | storesNothing | lateSideEffects | onlyEarly => .illegalArgShape
  | orderOutOfRange _ _ => .lateOrderOutOfRange
  | orderDuplicate => .lateOrderDuplicate
  | orderWithoutLateNode => .lateOrderWithoutLateNode
  | missingFromOrder => .lateNodeMissingFromLateOrder
  | noPlacement => .emptyPlacement
  | gap _ _ => .nonContiguousPlacement
  | registerReused _ => .registerUsedTwice
  | pastOutgoingArea _ _ => .stackSizeMismatch
  | slotOverlap _ => .overlappingStackSlots
  | tempIncomplete | tempNotStored _ => .tempStoreMismatch
  | tempNotRead _ => .tempReadMismatch

def message : Finding → String
  | notMaterialized stage => "argument list is in state " ++ stage.text
  | noNode => "argument has neither an early nor a late node"
  | storesNothing => "argument has both nodes but its early node stores nothing"
  | lateSideEffects => "late node of a temp argument has side effects"
  | onlyEarly => "register argument is only in the early list"
  | orderOutOfRange index count => s!"late order names arg{index} of {count}"
  | orderDuplicate => "argument appears twice in the late order"
  | orderWithoutLateNode => "late order names an argument without a late node"
  | missingFromOrder => "late node is not in the late order"
  | noPlacement => "argument has no placement"
  | gap segment expected =>
    "segment " ++ segment.text ++ s!" starts at {segment.start} instead of {expected}"
  | registerReused reg => "register " ++ reg.text ++ " is assigned to more than one argument"
  | pastOutgoingArea last size => s!"stack segment ends at {last} past the outgoing area of {size}"
  | slotOverlap other => s!"stack slot overlaps the slot of arg{other}"
  | tempIncomplete => "temp argument lacks its temp, early store or late read"
  | tempNotStored temp => s!"early node does not store l{temp}"
  | tempNotRead temp => s!"late node does not read l{temp}"

end Finding

structure Located where
  index : Option Nat
  finding : Finding
deriving DecidableEq, Repr

def Located.toDiagnostic (call : CallId) (found : Located) : Diagnostic where
  code := found.finding.code
  severity := .error
  message := found.finding.message
  primary := match found.index with
    | some index => .argument call index
    | none => .call call

namespace Verifier

def perArgument (check : Argument → Except Fault (List Finding)) (args : List Argument) :
    Except Fault (List Located) := do
  let found ← args.zipIdx.mapM fun (arg, index) => do
    pure ((← check arg).map fun finding => ⟨some index, finding⟩)
  pure found.flatten

def shape (proc : Procedure) (arg : Argument) : Except Fault (List Finding) := do
  match arg.early, arg.late with
  | none, none => pure [.noNode]
  | some early, some late => do
    let earlyNode ← proc.node early
    let lateNode ← proc.node late
    pure ((if earlyNode.effects.assigns then [] else [.storesNothing])
      ++ if lateNode.effects.isPersistent then [.lateSideEffects] else [])
  | some _, none => pure (if arg.placement.hasReg then [.onlyEarly] else [])
  | none, some _ => pure []

-- The entries of a late order, given those `seen` before them.
def orderEntries (args : List Argument) (seen : List Nat) : List Nat → List Located
  | [] => []
  | index :: rest =>
    let here : List Located := match args[index]? with
      | none => [⟨none, .orderOutOfRange index args.length⟩]
      | some arg =>
        (if seen.contains index then [⟨some index, .orderDuplicate⟩] else [])
          ++ if arg.late.isNone then [⟨some index, .orderWithoutLateNode⟩] else []
    here ++ orderEntries args (index :: seen) rest

def lateOrder (list : ArgList) : List Located :=
  orderEntries list.args [] list.lateOrder
    ++ (list.args.zipIdx.filter fun (arg, index) =>
        arg.late.isSome && !list.lateOrder.contains index).map fun (_, index) =>
      ⟨some index, .missingFromOrder⟩

-- The first of some segments, sorted by start, that does not start where the one before it ends.
def firstGap (expected : Nat) : List Segment → Except Fault (List Finding)
  | [] => .ok []
  | segment :: rest =>
    if segment.start = expected then do firstGap (← Word.add expected segment.size) rest
    else .ok [.gap segment expected]

-- Checks segments against the registers in use and the outgoing area. The registers in use
-- afterwards come with the findings.
def segments (stackSize : Nat) : List Reg → List Segment → Except Fault (List Finding × List Reg)
  | used, [] => .ok ([], used)
  | used, segment :: rest =>
    match segment.place with
    | .reg reg => do
      let (found, after) ← segments stackSize (reg :: used) rest
      pure ((if used.contains reg then [.registerReused reg] else []) ++ found, after)
    | .stack offset => do
      let last ← Word.add offset segment.size
      let (found, after) ← segments stackSize used rest
      pure ((if last > stackSize then [.pastOutgoingArea last stackSize] else []) ++ found, after)

def placement (stackSize : Nat) (used : List Reg) (placement : Placement) :
    Except Fault (List Finding × List Reg) :=
  if placement.isEmpty then .ok ([.noPlacement], used)
  else do
    let gaps ← if placement.byRef then pure [] else firstGap 0 placement.byStart
    let (found, after) ← segments stackSize used placement.segments
    pure (gaps ++ found, after)

def placementsFrom (stackSize : Nat) :
    List Reg → List (Argument × Nat) → Except Fault (List Located)
  | _, [] => .ok []
  | used, (arg, index) :: rest => do
    let (found, after) ← placement stackSize used arg.placement
    let later ← placementsFrom stackSize after rest
    pure (found.map (fun finding => ⟨some index, finding⟩) ++ later)

structure Slot where
  start : Nat
  stop : Nat
  index : Nat
deriving DecidableEq, Repr

def Slot.le (a b : Slot) : Bool :=
  a.start < b.start || a.start == b.start
    && (a.stop < b.stop || a.stop == b.stop && a.index ≤ b.index)

def slots (args : List Argument) : List Slot :=
  args.zipIdx.flatMap fun (arg, index) =>
    arg.placement.segments.filterMap fun segment =>
      segment.stackOffset?.map fun offset => ⟨offset, offset + segment.size, index⟩

-- Neighbours, in sorted order, of which the second starts before the first ends.
def overlaps : List Slot → List Located
  | first :: second :: rest =>
    (if second.start < first.stop then [⟨some second.index, .slotOverlap first.index⟩] else [])
      ++ overlaps (second :: rest)
  | _ => []

def placements (list : ArgList) : Except Fault (List Located) := do
  let found ← placementsFrom list.stackSize [] list.args.zipIdx
  pure (found ++ overlaps (stableSort Slot.le (slots list.args)))

def temps (proc : Procedure) (arg : Argument) : Except Fault (List Finding) := do
  if !arg.flags.isTemp then pure []
  else match arg.temp, arg.early, arg.late with
    | some temp, some early, some late => do
      let stored ← proc.storedLocals early
      let read ← proc.contains late fun kind => kind.mentionsLocal? == some temp
      pure ((if stored.contains temp then [] else [.tempNotStored temp])
        ++ if read then [] else [.tempNotRead temp])
    | _, _, _ => pure [.tempIncomplete]

def findings (config : CheckConfig) (proc : Procedure) (list : ArgList) :
    Except Fault (List Located) := do
  if !list.isMaterialized then pure [⟨none, .notMaterialized list.stage⟩]
  else do
    let shapes ← perArgument (shape proc) list.args
    let order := if config.checksLateOrder then lateOrder list else []
    let placed ← if config.checksPlacements then placements list else pure []
    let temporary ← if config.checksTemps then perArgument (temps proc) list.args else pure []
    pure (shapes ++ order ++ placed ++ temporary)

end Verifier

namespace Procedure

-- Checks one call. The first diagnostic carries the argument table.
def verifyCall (proc : Procedure) (config : CheckConfig) (id : CallId) : Except Fault Report := do
  let call ← proc.call id
  let found ← Verifier.findings config proc call.args
  let report : Report := found.foldl (fun report finding => report.push config.cap (finding.toDiagnostic id)) {}
  match report.diagnostics with
  | [] => pure report
  | first :: rest => pure ⟨{ first with snippet := some (← proc.callText id) } :: rest⟩

def unlowered (proc : Procedure) (id : CallId) : Diagnostic where
  code := .unloweredCall
  severity := .warning
  message := "call was never lowered"
  primary := .call id
  notes := ["in function %" ++ proc.name]

def verifyCalls (proc : Procedure) (config : CheckConfig) :
    Report → List CallId → Except Fault Report
  | report, [] => .ok report
  | report, id :: rest =>
    if report.isFull config.cap then .ok report
    else do
      let call ← proc.call id
      let report ←
        if call.args.isMaterialized then do
          pure (report.merge config.cap (← proc.verifyCall config id).diagnostics)
        else pure (if config.unlowered then report.push config.cap (proc.unlowered id) else report)
      proc.verifyCalls config report rest

def verify (proc : Procedure) (config : CheckConfig) : Except Fault Report :=
  proc.verifyCalls config {} (List.range proc.calls.size)

end Procedure

def Program.verify (program : Program) (config : CheckConfig) : Except Fault Report := do
  let reports ← program.procedures.toList.mapM fun proc => proc.verify config
  pure (Report.mergeAll {} config.cap reports)

end CallLowering
