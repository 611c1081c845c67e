import Ivmone.Lib.Footprint
import Ivmone.Calls

/-!
# The parts of calls and creations

`call` and `create` pay for everything first, then fix the gas of the message, and then make the
call unless the depth or the balance stop it. Each of these parts is a program of its own here, and
the two implementations are the sequence of their parts.
-/

set_option autoImplicit false

namespace Ivmone.Instructions

open Exec Lib Lib.Program

/-! ## `call` -/

/-- The operands of a call, with the input read from memory. -/
structure CallOperands where
  gas : UInt256
  dst : Address
  value : UInt256
  input : List Byte
  outputOffset : UInt256
  outputSize : UInt256

/-- `call` up to the costs of the value and the new account. -/
def readCall (kind : CallKind) (isStatic : Bool) (ctx : Context) : Exec CallOperands := do
  let gas ← Exec.pop
  let x ← Exec.pop
  let dst := x.toAddress
  let value ← popCallValue kind isStatic
  let inputOffset ← Exec.pop
  let inputSize ← Exec.pop
  let outputOffset ← Exec.pop
  let outputSize ← Exec.pop
  push 0
  chargeColdAccount ctx dst instr.additionalColdAccountAccessCost
  checkMemory inputOffset inputSize
  checkMemory outputOffset outputSize
  let input ← loadRegion inputOffset inputSize
  pure ⟨gas, dst, value, input, outputOffset, outputSize⟩

/-- `call` up to the gas of the message. -/
def payCall (kind : CallKind) (isStatic : Bool) (ctx : Context) : Exec CallOperands := do
  let x ← readCall kind isStatic ctx
  let cost ← callCost kind ctx x.dst (x.value != 0)
  charge cost
  pure x

/-- The gas of the message, with the stipend. -/
def forwardGas (ctx : Context) (gas value : UInt256) : Exec Int := do
  let msgGas ← callGas ctx gas
  let msgGas ← addStipend (value != 0) msgGas
  setReturnData Buffer.empty
  pure msgGas

/-- Makes a call or creation unless the depth or the balance stop it. -/
def gated (ctx : Context) (value : UInt256) (send : Exec Unit) : Exec Unit :=
  if 1024 ≤ ctx.msg.depth then pure ()
  else do
    let enough ← hasBalance ctx value
    if enough then send else pure ()

theorem call_eq (kind : CallKind) (isStatic : Bool) (ctx : Context) :
    call kind isStatic ctx =
      payCall kind isStatic ctx >>= fun x =>
        forwardGas ctx x.gas x.value >>= fun msgGas =>
          gated ctx x.value
            (sendCall (callMessage kind isStatic ctx x.dst x.value x.input msgGas) x.outputOffset
              x.outputSize) := by
  simp only [call, readCall, payCall, forwardGas, gated, bind_assoc, pure_bind]

/-! ## `create` -/

/-- The operands of a creation. -/
structure CreateOperands where
  endowment : UInt256
  initCodeOffset : UInt256
  initCodeSize : UInt256
  salt : UInt256

/-- `create` up to the check of the depth. -/
def payCreate (kind : CallKind) (ctx : Context) : Exec CreateOperands := do
  if ctx.msg.isStatic then
    exit .staticModeViolation
  let endowment ← Exec.pop
  let initCodeOffset ← Exec.pop
  let initCodeSize ← Exec.pop
  checkMemory initCodeOffset initCodeSize
  let salt ← popSalt kind initCodeSize
  push 0
  setReturnData Buffer.empty
  pure ⟨endowment, initCodeOffset, initCodeSize, salt⟩

/-- Makes the creation. -/
def forwardCreate (kind : CallKind) (ctx : Context) (x : CreateOperands) : Exec Unit := do
  let msgGas ← createGas ctx
  let input ← loadRegion x.initCodeOffset x.initCodeSize
  sendCreate (createMessage kind ctx x.endowment x.salt input msgGas)

theorem create_eq (kind : CallKind) (ctx : Context) :
    create kind ctx =
      payCreate kind ctx >>= fun x => gated ctx x.endowment (forwardCreate kind ctx x) := by
  simp only [create, payCreate, gated, forwardCreate, ite_bind, bind_assoc, pure_bind]

end Ivmone.Instructions
