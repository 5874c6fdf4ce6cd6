import CallLowering.Graph.Procedure

/-!
Walking a tree in evaluation order. A path through an acyclic graph meets each node at most once, so
a walk that goes deeper than there are nodes never ends; it is a fault.
-/

namespace CallLowering

namespace Procedure

-- The nodes under `id` in evaluation order, `id` itself last.
def walkWithin (proc : Procedure) : Nat → NodeId → Except Fault (List NodeId)
  | 0, _ => .error .tooDeep
  | depth + 1, id => do
    let node ← proc.node id
    let inputs ← proc.evaluated node.kind
    let below ← inputs.mapM (proc.walkWithin depth)
    pure (below.flatten ++ [id])

def walk (proc : Procedure) (id : NodeId) : Except Fault (List NodeId) :=
  proc.walkWithin (proc.nodes.size + 1) id

def visited (proc : Procedure) (id : NodeId) : Except Fault (List Node) := do
  pure ((← proc.walk id).filterMap fun other => proc.nodes[other]?)

def contains (proc : Procedure) (id : NodeId) (accept : NodeKind → Bool) : Except Fault Bool := do
  pure ((← proc.visited id).any fun node => accept node.kind)

def storedLocals (proc : Procedure) (id : NodeId) : Except Fault (List LocalId) := do
  let stores := (← proc.visited id).filterMap fun node => node.kind.storesLocal?
  pure (stores.foldl (fun seen var => if seen.contains var then seen else seen ++ [var]) [])

def localsRead (proc : Procedure) (id : NodeId) : Except Fault (List LocalId) := do
  pure ((← proc.visited id).filterMap fun node => node.kind.readsLocal?)

def readsLocal (proc : Procedure) (id : NodeId) (var : LocalId) : Except Fault Bool := do
  pure ((← proc.localsRead id).contains var)

end Procedure

end CallLowering
