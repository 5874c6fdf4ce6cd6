import CallLowering.Graph.Traversal
import CallLowering.Text.Decimal

/-! Listings of trees, argument tables and whole procedures. -/

namespace CallLowering

namespace Procedure

-- Kinds that need no brackets as an address.
def isBareAddress : NodeKind → Bool
  | .readLocal _ | .localAddr _ | .intConst _ => true
  | _ => false

def textWithin (proc : Procedure) : Nat → NodeId → Except Fault String
  | 0, _ => .error .tooDeep
  | depth + 1, id => do
    let node ← proc.node id
    let inner := proc.textWithin depth
    let address (addr : NodeId) : Except Fault String := do
      let text ← inner addr
      pure (if isBareAddress (← proc.node addr).kind then text else "(" ++ text ++ ")")
    match node.kind with
    | .intConst value => pure (toString value.toInt)
    | .floatConst bits => pure (FloatFormat.listing.text bits)
    | .readLocal var => pure s!"l{var}"
    | .readField var offset => pure s!"l{var}+{offset}"
    | .localAddr var => pure s!"&l{var}"
    | .load addr _ => pure ("*" ++ (← address addr))
    | .storeLocal var value => pure (s!"l{var} = " ++ (← inner value))
    | .storeInd addr value => pure ("*" ++ (← address addr) ++ " = " ++ (← inner value))
    | .unary op operand => pure (op.text ++ "(" ++ (← inner operand) ++ ")")
    | .binary op lhs rhs => pure (op.text ++ "(" ++ (← inner lhs) ++ ", " ++ (← inner rhs) ++ ")")
    | .boundsCheck index len => pure ("bounds(" ++ (← inner index) ++ ", " ++ (← inner len) ++ ")")
    | .comma first second => pure ("(" ++ (← inner first) ++ ", " ++ (← inner second) ++ ")")
    | .stackAlloc size => pure ("lclheap(" ++ (← inner size) ++ ")")
    | .call call => pure (s!"call{call} " ++ (← proc.call call).target.text)
    | .fieldList uses =>
      let fields ← uses.mapM fun field => do pure ((← inner field.node) ++ s!"@{field.offset}")
      pure ("fields[" ++ ", ".intercalate fields ++ "]")
    | .nop => pure "nop"

def nodeText (proc : Procedure) (id : NodeId) : Except Fault String :=
  proc.textWithin (proc.nodes.size + 1) id

def optionText (proc : Procedure) : Option NodeId → Except Fault String
  | some id => proc.nodeText id
  | none => .ok "-"

def argumentText (proc : Procedure) (index : Nat) (arg : Argument) : Except Fault String := do
  let early ← proc.optionText arg.early
  let late ← proc.optionText arg.late
  let mark (set : Bool) (name : String) : String := if set then s!" [{name}]" else ""
  pure (s!"  arg{index} " ++ arg.role.text ++ " " ++ arg.placement.text
    ++ " early: " ++ early ++ " late: " ++ late
    ++ mark arg.flags.needsTemp "tmp" ++ mark arg.flags.needsPlace "place"
    ++ mark arg.flags.lateAdded "added" ++ "\n")

def callText (proc : Procedure) (id : CallId) : Except Fault String := do
  let call ← proc.call id
  let list := call.args
  let lines ← list.args.zipIdx.mapM fun (arg, index) => proc.argumentText index arg
  let order := if list.isMaterialized
    then "  late order:" ++ String.join (list.lateOrder.map fun index => s!" arg{index}") ++ "\n"
    else ""
  pure (s!"call{id} " ++ call.target.text ++ " (" ++ list.stage.text
    ++ s!", stack {list.stackSize})\n" ++ String.join lines ++ order)

def statementText (proc : Procedure) (id : NodeId) : Except Fault String := do
  let text ← proc.nodeText id
  let calls := (← proc.visited id).filterMap fun node => node.kind.call?
  let tables ← calls.mapM proc.callText
  pure ("  " ++ text ++ "\n" ++ String.join tables)

def text (proc : Procedure) : Except Fault String := do
  let statements ← proc.statements.mapM proc.statementText
  pure ("func %" ++ proc.name ++ " \x7b\n" ++ String.join statements ++ "\x7d\n")

end Procedure

end CallLowering
