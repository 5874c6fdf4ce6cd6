import CallLowering.Graph.Procedure

/-! What a finalized call needs of the outgoing area, for deciding on tail calls. -/

namespace CallLowering

structure Outgoing where
  args : List Argument
  stackSize : Nat
  hasStackArgs : Bool
  hasRegArgs : Bool
deriving DecidableEq, Repr

def Call.outgoing? (call : Call) : Option Outgoing :=
  let list := call.args
  if list.stage.isFinalized then
    some ⟨list.args, list.stackSize, list.hasStackArgs, list.hasRegArgs⟩
  else none

-- The call can reuse the caller's incoming area. An argument passed by reference points into the
-- caller's frame and never fits.
def Outgoing.fits (outgoing : Outgoing) (incomingSize : Nat) : Bool :=
  !outgoing.args.any (fun arg => arg.placement.byRef) && outgoing.stackSize ≤ incomingSize

end CallLowering
