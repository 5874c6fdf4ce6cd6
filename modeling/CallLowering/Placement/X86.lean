import CallLowering.Placement.Allocation

/-!
32-bit x86. Stack arguments are pushed. Managed calls pass the first two small integers in
registers; unmanaged and varargs calls pass everything on the stack.
-/

namespace CallLowering.X86

structure State where
  regs : RegSequence
  stack : StackArea := {}
deriving DecidableEq, Repr

def start (call : CallShape) : State where
  regs :=
    let regs : RegSequence := { regs := [.int 1, .int 2] }
    if call.convention == .unmanaged || call.isVarargs then regs.exhaust else regs

def place (state : State) (arg : ArgShape) : Except Stop (Placement × State) := do
  let size ← arg.size 4
  let small := arg.layout.isNone && arg.ty.isIntegral && size ≤ 4
  if small then
    let (placement, regs, stack) ← passWord size 4 state.regs state.stack
    pure (placement, { regs, stack })
  else
    let (placement, stack) ← state.stack.put size 4 4
    pure (placement, { state with stack })

def classify (call : CallShape) (args : List ArgShape) : Except Stop Classification := do
  let (placements, state) ← placeAll place (start call) args
  pure { placements, stackSize := ← state.stack.size 4 }

end CallLowering.X86
