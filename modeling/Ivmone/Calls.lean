import Ivmone.Instructions

/-!
# Calls and creations

`call` and `create` of `instructions_calls.cpp`. Their bodies are cut into the parts the source
separates by blank lines; each part is a program of its own.
-/

set_option autoImplicit false

namespace Ivmone.Instructions

open Exec

/-! ## Parts shared by `call` and `create` -/

/-- The bytes of a memory region that has been checked: none if its size is 0. -/
def loadRegion (offset size : UInt256) : Exec (List Byte) :=
  if 0 < size.toSize then load offset.toSize size.toSize else pure []

/-- Whether the balance of the current account covers a value. The host is only asked if there is
a value. -/
def hasBalance (ctx : Context) (value : UInt256) : Exec Bool :=
  if value ≠ 0 then do
    let balance ← Host.getBalance ctx.msg.recipient
    pure (!decide (balance < value))
  else pure true

/-- The 63/64 rule: `gas_left - gas_left / 64`. -/
def allButOne64th (gas : Int) : Exec Int := int64 (gas - gas.tdiv 64)

/-- `state.gas_left -= msg.gas - result.gas_left`. -/
def spendGas (msg : Message) (result : CallResult) : Exec Unit := do
  let gasUsed ← int64 (msg.gas - result.gasLeft)
  let gas ← gasLeft
  let gas' ← int64 (gas - gasUsed)
  setGasLeft gas'

/-! ## `call` -/

/-- Only CALL and CALLCODE have a value operand. -/
def popCallValue (kind : CallKind) (isStatic : Bool) : Exec UInt256 :=
  if isStatic ∨ kind = .delegatecall then pure 0 else Exec.pop

/-- The message of a call. -/
def callMessage (kind : CallKind) (isStatic : Bool) (ctx : Context) (dst : Address)
    (value : UInt256) (input : List Byte) (gas : Int) : Message where
  kind := kind
  -- The other calls pass the flag on.
  flags := if isStatic then ivmcStatic else ctx.msg.flags
  depth := toInt32 (ctx.msg.depth + 1)
  gas := gas
  -- CALLCODE and DELEGATECALL run the code of `dst` for the current account.
  recipient := if kind = .call then dst else ctx.msg.recipient
  sender := if kind = .delegatecall then ctx.msg.sender else ctx.msg.recipient
  input := input
  value := if kind = .delegatecall then ctx.msg.value else value
  codeAddress := dst

/-- The cost of transferring a value and of creating the account it goes to. -/
def callCost (kind : CallKind) (ctx : Context) (dst : Address) (hasValue : Bool) : Exec Int := do
  let cost : Int := if hasValue then 9000 else 0
  if kind = .call then
    if hasValue ∧ ctx.msg.isStatic then
      exit .staticModeViolation
    else if hasValue ∨ ctx.rev < .spuriousDragon then
      let found ← Host.accountExists dst
      pure (if found then cost else cost + 25000)
    else pure cost
  else pure cost

/-- The gas of the message, without the stipend. -/
def callGas (ctx : Context) (gas : UInt256) : Exec Int := do
  -- The largest `int64_t` stands for all that is more.
  let requested : Int := if gas.toNat < 2 ^ 63 - 1 then gas.toInt64 else 2 ^ 63 - 1
  let available ← gasLeft
  if Revision.tangerineWhistle ≤ ctx.rev then
    -- The 63/64 rule caps the gas and does not fail.
    let limit ← allButOne64th available
    pure (min requested limit)
  else if available < requested then
    exit .outOfGas
  else pure requested

/-- The stipend of a call with value goes to the message and is not paid by the caller. -/
def addStipend (hasValue : Bool) (msgGas : Int) : Exec Int :=
  if hasValue then do
    let msgGas' ← int64 (msgGas + 2300)
    let gas ← gasLeft
    let gas' ← int64 (gas + 2300)
    setGasLeft gas'
    pure msgGas'
  else pure msgGas

/-- The copy of the output to the memory region of the caller. -/
def storeOutput (outputOffset outputSize : UInt256) (output : Buffer) : Exec Unit :=
  let copySize := min outputSize.toSize output.size
  if 0 < copySize then store outputOffset.toSize (output.bytes.take copySize) else pure ()

/-- `host.call(msg)` and what follows it. -/
def sendCall (msg : Message) (outputOffset outputSize : UInt256) : Exec Unit := do
  let result ← Host.call msg
  setReturnData result.output
  setTop (UInt256.ofBool (result.statusCode == .success))
  storeOutput outputOffset outputSize result.output
  spendGas msg result

def call (kind : CallKind) (isStatic : Bool) (ctx : Context) : Exec Unit := do
  let gas ← Exec.pop
  let x ← Exec.pop
  let dst := x.toAddress
  let value ← popCallValue kind isStatic
  let hasValue := value != 0
  let inputOffset ← Exec.pop
  let inputSize ← Exec.pop
  let outputOffset ← Exec.pop
  let outputSize ← Exec.pop
  push 0  -- Assume failure.
  chargeColdAccount ctx dst instr.additionalColdAccountAccessCost
  checkMemory inputOffset inputSize
  checkMemory outputOffset outputSize
  let input ← loadRegion inputOffset inputSize
  let cost ← callCost kind ctx dst hasValue
  charge cost
  let msgGas ← callGas ctx gas
  let msgGas ← addStipend hasValue msgGas
  setReturnData Buffer.empty
  -- A call that is not made leaves the 0 on the stack, and the execution goes on.
  if 1024 ≤ ctx.msg.depth then
    pure ()
  else
    let enough ← hasBalance ctx value
    if enough then
      sendCall (callMessage kind isStatic ctx dst value input msgGas) outputOffset outputSize
    else pure ()

/-! ## `create` -/

/-- CREATE2 pops the salt and pays for hashing the init code. -/
def popSalt (kind : CallKind) (initCodeSize : UInt256) : Exec UInt256 :=
  if kind = .create2 then do
    let salt ← Exec.pop
    charge (numWords initCodeSize.toSize * 6)
    pure salt
  else pure 0

/-- The message of a creation. -/
def createMessage (kind : CallKind) (ctx : Context) (endowment salt : UInt256) (input : List Byte)
    (gas : Int) : Message where
  gas := gas
  kind := kind
  input := input
  sender := ctx.msg.recipient
  depth := toInt32 (ctx.msg.depth + 1)
  create2Salt := salt
  value := endowment

/-- The gas of the message. -/
def createGas (ctx : Context) : Exec Int := do
  let gas ← gasLeft
  if Revision.tangerineWhistle ≤ ctx.rev then allButOne64th gas else pure gas

/-- `host.call(msg)` and what follows it. -/
def sendCreate (msg : Message) : Exec Unit := do
  let result ← Host.call msg
  spendGas msg result
  setReturnData result.output
  if result.statusCode = .success then
    setTop (UInt256.ofAddress result.createAddress)

def create (kind : CallKind) (ctx : Context) : Exec Unit := do
  if ctx.msg.isStatic then
    exit .staticModeViolation
  let endowment ← Exec.pop
  let initCodeOffset ← Exec.pop
  let initCodeSize ← Exec.pop
  checkMemory initCodeOffset initCodeSize
  let salt ← popSalt kind initCodeSize
  push 0
  setReturnData Buffer.empty
  -- As in `call`.
  if 1024 ≤ ctx.msg.depth then
    pure ()
  else
    let enough ← hasBalance ctx endowment
    if enough then
      let msgGas ← createGas ctx
      let input ← loadRegion initCodeOffset initCodeSize
      sendCreate (createMessage kind ctx endowment salt input msgGas)
    else pure ()

end Ivmone.Instructions
