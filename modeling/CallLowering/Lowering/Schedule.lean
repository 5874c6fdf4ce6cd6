import CallLowering.Lowering.Cost
import CallLowering.Lowering.Step

/-!
The order in which late arguments are evaluated. Sweeps fill a buffer from both ends: constants from the
tail, calls and then pinned arguments from the head, plain local reads from the tail. Whatever is left goes to
the head, the most expensive first.
-/

namespace CallLowering

namespace Schedule

-- An argument with the node of its value.
structure Entry where
  arg : Argument
  node : Option Node
deriving DecidableEq, Repr

namespace Entry

def ofArgument (proc : Procedure) (arg : Argument) : Except Fault Entry :=
  match arg.value with
  | some value => do pure ⟨arg, some (← proc.node value)⟩
  | none => .ok ⟨arg, none⟩

def isConstant (entry : Entry) : Bool := entry.node.any fun node => node.kind.isIntConst

def hasCall (entry : Entry) : Bool := entry.node.any fun node => node.effects.calls

def isPinned (entry : Entry) : Bool := entry.arg.flags.needsTemp

def isLocalRead (entry : Entry) : Bool :=
  entry.node.any fun node => node.kind.isLocalRead && !node.ty.isStruct

def price (cost : CostModel) (proc : Procedure) (entry : Entry) : Except Fault Nat :=
  match entry.arg.value with
  | some value => cost proc value
  | none => .ok 0

end Entry

def entries (proc : Procedure) (list : ArgList) : Except Fault (List Entry) :=
  list.args.mapM (Entry.ofArgument proc)

structure Sorter where
  entries : List Entry
  order : List Nat
  processed : List Bool
  -- the next free slot from the head
  head : Nat
  -- one past the next free slot from the tail
  tail : Nat
  remaining : Nat
deriving DecidableEq, Repr

namespace Sorter

def start (entries : List Entry) : Sorter where
  entries
  order := List.replicate entries.length 0
  processed := List.replicate entries.length false
  head := 0
  tail := entries.length
  remaining := entries.length

def take (sorter : Sorter) (index : Nat) : Except Fault Sorter :=
  if sorter.processed.length ≤ index then .error .outOfBounds
  else if sorter.remaining = 0 then .error .underflow
  else .ok { sorter with
    processed := sorter.processed.set index true, remaining := sorter.remaining - 1 }

def toHead (sorter : Sorter) (index : Nat) : Except Fault Sorter :=
  if sorter.order.length ≤ sorter.head then .error .outOfBounds
  else take { sorter with
    order := sorter.order.set sorter.head index, head := sorter.head + 1 } index

def toTail (sorter : Sorter) (index : Nat) : Except Fault Sorter :=
  if sorter.tail = 0 then .error .underflow
  else if sorter.order.length ≤ sorter.tail - 1 then .error .outOfBounds
  else take { sorter with
    order := sorter.order.set (sorter.tail - 1) index, tail := sorter.tail - 1 } index

def unprocessed (sorter : Sorter) : List Nat :=
  (List.range sorter.entries.length).filter fun index => sorter.processed[index]? == some false

def sweep (put : Sorter → Nat → Except Fault Sorter) (wanted : Entry → Bool) (sorter : Sorter)
    (indices : List Nat) : Except Fault Sorter :=
  indices.foldlM (fun sorter index => do
    if wanted (← elementAt sorter.entries index) then put sorter index else pure sorter) sorter

def sweepToHead (wanted : Entry → Bool) (sorter : Sorter) : Except Fault Sorter :=
  sweep toHead wanted sorter sorter.unprocessed

-- Backwards, so that what the tail takes keeps its order.
def sweepToTail (wanted : Entry → Bool) (sorter : Sorter) : Except Fault Sorter :=
  sweep toTail wanted sorter sorter.unprocessed.reverse

def unlessDone (step : Sorter → Except Fault Sorter) (sorter : Sorter) : Except Fault Sorter :=
  if sorter.remaining = 0 then .ok sorter else step sorter

def sweeps (entries : List Entry) : Except Fault Sorter := do
  let sorter ← (start entries).sweepToTail Entry.isConstant
  let sorter ← sorter.unlessDone (sweepToHead Entry.hasCall)
  let sorter ← sorter.unlessDone (sweepToHead Entry.isPinned)
  sorter.unlessDone (sweepToTail Entry.isLocalRead)

end Sorter

section Cost

variable (cost : CostModel) (proc : Procedure)

-- The prices asked for so far. None is asked for twice.
abbrev Prices := List (Option Nat)

def askPrice (entries : List Entry) (index : Nat) : Except Fault Nat := do
  (← elementAt entries index).price cost proc

def priceFrom (entries : List Entry) (prices : Prices) (index : Nat) : Except Fault (Nat × Prices) :=
  match prices[index]? with
  | none => .error .outOfBounds
  | some (some amount) => .ok (amount, prices)
  | some none => do
    let amount ← askPrice cost proc entries index
    pure (amount, prices.set index (some amount))

-- The first of the most expensive ones.
def costliest (entries : List Entry) (best amount : Nat) (prices : Prices) :
    List Nat → Except Fault (Nat × Prices)
  | [] => .ok (best, prices)
  | index :: rest => do
    let (other, prices) ← priceFrom cost proc entries prices index
    if amount < other then costliest entries index other prices rest
    else costliest entries best amount prices rest

def pick (entries : List Entry) (prices : Prices) : List Nat → Except Fault (Nat × Prices)
  | [] => .error .outOfBounds
  | [only] => .ok (only, prices)
  | first :: rest => do
    let (amount, prices) ← priceFrom cost proc entries prices first
    costliest cost proc entries first amount prices rest

namespace Sorter

-- Every round takes one argument.
def fill : Nat → Prices → Sorter → Except Fault Sorter
  | 0, _, sorter => .ok sorter
  | rounds + 1, prices, sorter =>
    if sorter.remaining = 0 then .ok sorter
    else do
      let (index, prices) ← pick cost proc sorter.entries prices sorter.unprocessed
      fill rounds prices (← sorter.toHead index)

def fillByCost (sorter : Sorter) : Except Fault Sorter :=
  fill cost proc sorter.remaining (List.replicate sorter.entries.length none) sorter

def sort (entries : List Entry) : Except Fault Sorter := do
  (← sweeps entries).unlessDone (fillByCost cost proc)

end Sorter

end Cost

def markProcessed (list : ArgList) : ArgList :=
  { list with args := list.args.map fun arg =>
      { arg with flags := { arg.flags with processed := true } } }

def costModel (settings : Settings) : CostModel :=
  match settings.options.optLevel with
  | .minimal => Cost.flat
  | .full => Cost.tree

def schedule (cost : CostModel) (id : CallId) : Attempt (List Nat) := do
  let data ← Edit.call id
  let sorter ← Edit.ask fun proc => do Sorter.sort cost proc (← entries proc data.args)
  if sorter.head ≠ sorter.tail ∨ sorter.remaining ≠ 0 then
    refuse id (.unfinishedSort sorter.head sorter.tail data.args.size)
  Edit.modifyArgs id fun list => pure (markProcessed list)
  pure sorter.order

end Schedule

end CallLowering
