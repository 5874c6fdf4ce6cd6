import CallLowering.Graph.LocalSet

/-!
The pool of locals that hold outgoing struct copies. A copy belongs to the scope of the call it was
taken for, then to the scopes around it, and is free again when the outermost one closes.
-/

namespace CallLowering

structure CopyPool where
  available : LocalSet := .empty
  -- what each open scope holds, the innermost one first
  scopes : List (List LocalId) := []
deriving DecidableEq

namespace CopyPool

def depth (pool : CopyPool) : Nat := pool.scopes.length

def held (pool : CopyPool) : List LocalId := pool.scopes.flatten

def openScope (pool : CopyPool) : CopyPool := { pool with scopes := [] :: pool.scopes }

def closeScope (pool : CopyPool) : CopyPool :=
  match pool.scopes with
  | [] => pool
  | [outermost] => { available := outermost.foldl LocalSet.insert pool.available, scopes := [] }
  | inner :: parent :: rest => { pool with scopes := (parent ++ inner) :: rest }

-- Gives a local to the innermost scope; there has to be one.
def hold? (pool : CopyPool) (var : LocalId) : Option CopyPool :=
  match pool.scopes with
  | [] => none
  | inner :: rest => some { pool with scopes := (inner ++ [var]) :: rest }

def reuse? (pool : CopyPool) (accept : LocalId → Bool) : Option (LocalId × CopyPool) :=
  (pool.available.takeFirst accept).map fun (var, available) => (var, { pool with available })

end CopyPool

end CallLowering
