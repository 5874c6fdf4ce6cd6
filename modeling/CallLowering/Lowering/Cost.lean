import CallLowering.Graph.Traversal

/-! Estimates of what it costs to evaluate a tree. -/

namespace CallLowering

abbrev CostModel := Procedure → NodeId → Except Fault Nat

namespace Cost

def fitsWord (value : Int64) : Bool := -0x80000000 ≤ value.toInt && value.toInt < 0x80000000

def ofOp : BinaryOp → Nat
  | .div | .rem => 20
  | .mulOvf => 4
  | .mul => 3
  | .addOvf | .subOvf => 2
  | _ => 1

def ofNode (node : Node) : Nat :=
  match node.kind with
  | .intConst value => if fitsWord value then 1 else 2
  | .floatConst _ => 2
  | .readLocal _ | .readField _ _ => if node.effects.readsGlobal then 3 else 1
  | .localAddr _ | .storeLocal _ _ | .unary _ _ => 1
  | .load _ _ | .storeInd _ _ => 3
  | .binary op _ _ => ofOp op
  | .boundsCheck _ _ => 4
  | .stackAlloc _ => 20
  | .call _ => 25
  | .comma _ _ | .fieldList _ | .nop => 0

-- The sum over all nodes of the tree, call arguments included, as far as it fits a word.
def tree : CostModel := fun proc id => do
  let total := (← proc.visited id).foldl (fun sum node => sum + ofNode node) 0
  pure (min total (Word.limit - 1))

def flat : CostModel := fun _ _ => .ok 0

end Cost

end CallLowering
