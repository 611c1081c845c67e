import Ivmone.State
import Ivmone.Opcode

/-!
# Instruction implementations

The instructions of `instructions.hpp` that do not depend on the interpreter, under their names
there. An implementation reads the message, the revision and the code from its `Context` and
performs operations on the state. Implementations that return a status code leave with `exit` in
place of every status other than `IVMC_SUCCESS`; those that return a `StopToken` return its status.
-/

set_option autoImplicit false

namespace Ivmone.Instructions

open Exec

/-! ## Arithmetic and logic -/

/-- `state.stack.top() op= state.stack.pop()`, and instructions that pop one operand and replace
the other: `f` takes the popped item first. -/
def popIntoTop (f : UInt256 → UInt256 → UInt256) : Exec Unit := do
  let x ← pop
  let y ← top
  setTop (f x y)

/-- Instructions that assign `state.stack[1]` and then pop. -/
def intoSecond (f : UInt256 → UInt256 → UInt256) : Exec Unit := do
  let x ← peek 0
  let y ← peek 1
  poke 1 (f x y)
  let _ ← pop

/-- Instructions that pop two operands and replace the third. -/
def popTwoIntoTop (f : UInt256 → UInt256 → UInt256 → UInt256) : Exec Unit := do
  let x ← pop
  let y ← pop
  let m ← top
  setTop (f x y m)

/-- Instructions that replace the top item. -/
def mapTop (f : UInt256 → UInt256) : Exec Unit := do
  let x ← top
  setTop (f x)

def stop (_ctx : Context) : Exec StatusCode := pure .success

def add (_ctx : Context) : Exec Unit := popIntoTop fun x y => y + x

def mul (_ctx : Context) : Exec Unit := popIntoTop fun x y => y * x

def sub (_ctx : Context) : Exec Unit := intoSecond fun x y => x - y

def div (_ctx : Context) : Exec Unit := intoSecond fun x v => if v ≠ 0 then x / v else 0

def sdiv (_ctx : Context) : Exec Unit := intoSecond fun x v => if v ≠ 0 then x.sdiv v else 0

def mod (_ctx : Context) : Exec Unit := intoSecond fun x v => if v ≠ 0 then x % v else 0

def smod (_ctx : Context) : Exec Unit := intoSecond fun x v => if v ≠ 0 then x.srem v else 0

def addmod (_ctx : Context) : Exec Unit :=
  popTwoIntoTop fun x y m => if m ≠ 0 then UInt256.addmod x y m else 0

def mulmod (_ctx : Context) : Exec Unit :=
  popTwoIntoTop fun x y m => if m ≠ 0 then UInt256.mulmod x y m else 0

def exp (ctx : Context) : Exec Unit := do
  let base ← pop
  let exponent ← top
  let exponentSignificantBytes := exponent.countSignificantBytes
  let exponentCost := if Revision.spuriousDragon ≤ ctx.rev then 50 else 10
  charge (exponentSignificantBytes * exponentCost)
  setTop (UInt256.exp base exponent)

def signextend (_ctx : Context) : Exec Unit :=
  popIntoTop fun ext x =>
    if ext < 31 then
      -- The highest bit of the byte with the index `ext`, from the lowest one on.
      let signBit := ext.toNat * 8 + 7
      let signMask := (1 : UInt256) <<< signBit
      let valueMask := signMask - 1
      let isNeg := (x &&& signMask) ≠ 0
      if isNeg then x ||| ~~~valueMask else x &&& valueMask
    else x

def lt (_ctx : Context) : Exec Unit := popIntoTop fun x y => UInt256.ofBool (x < y)

def gt (_ctx : Context) : Exec Unit := popIntoTop fun x y => UInt256.ofBool (y < x)

def slt (_ctx : Context) : Exec Unit := popIntoTop fun x y => UInt256.ofBool (x.slt y)

def sgt (_ctx : Context) : Exec Unit := popIntoTop fun x y => UInt256.ofBool (y.slt x)

def eq (_ctx : Context) : Exec Unit := intoSecond fun x y => UInt256.ofBool (x == y)

def iszero (_ctx : Context) : Exec Unit := mapTop fun x => UInt256.ofBool (x == 0)

def and_ (_ctx : Context) : Exec Unit := popIntoTop fun x y => y &&& x

def or_ (_ctx : Context) : Exec Unit := popIntoTop fun x y => y ||| x

def xor_ (_ctx : Context) : Exec Unit := popIntoTop fun x y => y ^^^ x

def not_ (_ctx : Context) : Exec Unit := mapTop fun x => ~~~x

def byte (_ctx : Context) : Exec Unit :=
  popIntoTop fun n x =>
    let nValid := n < 32
    -- Only the low limb of `n` selects the byte, and the mask clears it where `n` is too large.
    let byteMask : BitVec 64 := if nValid then 0xff else 0
    let index := 31 - (n.word 0).toNat % 32
    let word := x.word (index / 8)
    let byteIndex := index % 8
    let byte := (word >>> (byteIndex * 8)) &&& byteMask
    byte.setWidth 256

def shl (_ctx : Context) : Exec Unit := popIntoTop fun count x => x.shl count

def shr (_ctx : Context) : Exec Unit := popIntoTop fun count x => x.shr count

def sar (_ctx : Context) : Exec Unit :=
  popIntoTop fun y x =>
    let isNeg := (x.word 3).toInt < 0
    let signMask : UInt256 := if isNeg then ~~~0 else 0
    -- `256 - y[0]` is the number of bits that the sign fills. For larger shifts the mask is not
    -- shifted, and fills all of them.
    let maskShift : UInt256 := if y < 256 then UInt256.ofSize (256 - (y.word 0).toNat) else 0
    x.shr y ||| signMask.shl maskShift

def keccak256 (_ctx : Context) : Exec Unit := do
  let index ← pop
  let size ← top
  checkMemory index size
  let i := index.toSize
  let s := size.toSize
  let w := numWords s
  charge (w * 6)
  -- `data` is a null pointer if the size is 0.
  let data ← if s ≠ 0 then load i s else pure []
  let hash ← Exec.keccak256 data
  setTop hash

/-! ## Environment -/

/-- The charge for a cold account, from Berlin on. -/
def chargeColdAccount (ctx : Context) (addr : Address) (cost : Int) : Exec Unit := do
  if Revision.berlin ≤ ctx.rev then
    let access ← Host.accessAccount addr
    if access = .cold then charge cost

/-- Instructions that replace an address with what the host knows about its account. -/
def accountQuery (ctx : Context) (query : Address → Exec UInt256) : Exec Unit := do
  let x ← top
  let addr := x.toAddress
  chargeColdAccount ctx addr instr.additionalColdAccountAccessCost
  let y ← query addr
  setTop y

/-- Instructions that push a field of the transaction context. -/
def pushTxContext (field : TxContext → UInt256) : Exec Unit := do
  let tx ← Host.getTxContext
  push (field tx)

def address (ctx : Context) : Exec Unit := push (UInt256.ofAddress ctx.msg.recipient)

def balance (ctx : Context) : Exec Unit := accountQuery ctx fun addr => Host.getBalance addr

def origin (_ctx : Context) : Exec Unit := pushTxContext fun tx => UInt256.ofAddress tx.txOrigin

def caller (ctx : Context) : Exec Unit := push (UInt256.ofAddress ctx.msg.sender)

def callvalue (ctx : Context) : Exec Unit := push ctx.msg.value

def calldataload (ctx : Context) : Exec Unit := do
  let index ← top
  let inputSize := ctx.msg.input.length
  if inputSize < index.toNat then
    setTop 0
  else
    let beginPos := index.toSize
    -- A sum of type `size_t`.
    let endPos := min ((beginPos + 32) % 2 ^ 64) inputSize
    let data ← read ctx.msg.input beginPos (subSize endPos beginPos)
    setTop (beLoad (data ++ List.replicate (32 - data.length) 0))

def calldatasize (ctx : Context) : Exec Unit := push (UInt256.ofSize ctx.msg.input.length)

/-- CALLDATACOPY and CODECOPY: copies a window of a buffer that may reach beyond its end. -/
def copyWindow (source : List Byte) : Exec Unit := do
  let memIndex ← pop
  let inputIndex ← pop
  let size ← pop
  checkMemory memIndex size
  let dst := memIndex.toSize
  -- Nothing is read from beyond the end.
  let src := if source.length < inputIndex.toNat then source.length else inputIndex.toSize
  let s := size.toSize
  let copySize := min s (source.length - src)
  let copyCost := numWords s * 3
  charge copyCost
  if 0 < copySize then
    let bytes ← read source src copySize
    store dst bytes
  -- The rest of the region is cleared.
  if 0 < s - copySize then
    store (dst + copySize) (List.replicate (s - copySize) 0)

def calldatacopy (ctx : Context) : Exec Unit := copyWindow ctx.msg.input

def codesize (ctx : Context) : Exec Unit := push (UInt256.ofSize ctx.code.size)

def codecopy (ctx : Context) : Exec Unit := copyWindow ctx.code.bytes

def gasprice (_ctx : Context) : Exec Unit := pushTxContext fun tx => tx.txGasPrice

def basefee (_ctx : Context) : Exec Unit := pushTxContext fun tx => tx.blockBaseFee

def extcodesize (ctx : Context) : Exec Unit :=
  accountQuery ctx fun addr => do
    let size ← Host.getCodeSize addr
    pure (size.setWidth 256)

def extcodecopy (ctx : Context) : Exec Unit := do
  let x ← pop
  let addr := x.toAddress
  let memIndex ← pop
  let inputIndex ← pop
  let size ← pop
  checkMemory memIndex size
  let s := size.toSize
  let copyCost := numWords s * 3
  charge copyCost
  chargeColdAccount ctx addr instr.additionalColdAccountAccessCost
  if 0 < s then
    let src := if maxBufferSize < inputIndex.toNat then maxBufferSize else inputIndex.toSize
    let dst := memIndex.toSize
    let copied ← Host.copyCode addr src s
    -- The host writes to the buffer itself.
    store dst copied
    let numBytesToClear := subSize s copied.length
    if 0 < numBytesToClear then
      store (dst + copied.length) (List.replicate numBytesToClear 0)

def returndatasize (_ctx : Context) : Exec Unit := do
  let data ← returnData
  push (UInt256.ofSize data.size)

def returndatacopy (_ctx : Context) : Exec Unit := do
  let memIndex ← pop
  let inputIndex ← pop
  let size ← pop
  checkMemory memIndex size
  let dst := memIndex.toSize
  let s := size.toSize
  let data ← returnData
  -- Here it is an error to read beyond the end.
  if data.size < inputIndex.toNat then
    exit .invalidMemoryAccess
  let src := inputIndex.toSize
  if data.size < (src + s) % 2 ^ 64 then
    exit .invalidMemoryAccess
  let copyCost := numWords s * 3
  charge copyCost
  if 0 < s then
    let bytes ← read data.bytes src s
    store dst bytes

def extcodehash (ctx : Context) : Exec Unit :=
  accountQuery ctx fun addr => Host.getCodeHash addr

def blockhash (_ctx : Context) : Exec Unit := do
  let number ← top
  let tx ← Host.getTxContext
  let upperBound := tx.blockNumber
  -- The 256 blocks before the current one.
  let lowerBound := max (toInt64 (upperBound - 256)) 0
  let n := number.toInt64
  let header ←
    if number < UInt256.ofInt64 upperBound ∧ lowerBound ≤ n then Host.getBlockHash n
    else pure 0
  setTop header

def coinbase (_ctx : Context) : Exec Unit :=
  pushTxContext fun tx => UInt256.ofAddress tx.blockCoinbase

def timestamp (_ctx : Context) : Exec Unit :=
  pushTxContext fun tx => UInt256.ofInt64 tx.blockTimestamp

def number (_ctx : Context) : Exec Unit := pushTxContext fun tx => UInt256.ofInt64 tx.blockNumber

def difficulty (_ctx : Context) : Exec Unit := pushTxContext fun tx => tx.blockDifficulty

def gaslimit (_ctx : Context) : Exec Unit :=
  pushTxContext fun tx => UInt256.ofInt64 tx.blockGasLimit

def chainid (_ctx : Context) : Exec Unit := pushTxContext fun tx => tx.chainId

def selfbalance (ctx : Context) : Exec Unit := do
  let balance ← Host.getBalance ctx.msg.recipient
  push balance

/-! ## Stack, memory and storage -/

def pop (_ctx : Context) : Exec Unit := do
  let _ ← Exec.pop

def mload (_ctx : Context) : Exec Unit := do
  let index ← top
  checkMemory64 index 32
  let bytes ← load index.toSize 32
  setTop (beLoad bytes)

def mstore (_ctx : Context) : Exec Unit := do
  let index ← Exec.pop
  let value ← Exec.pop
  checkMemory64 index 32
  store index.toSize (beStore value)

def mstore8 (_ctx : Context) : Exec Unit := do
  let index ← Exec.pop
  let value ← Exec.pop
  checkMemory64 index 1
  store index.toSize [value.setWidth 8]

def sload (ctx : Context) : Exec Unit := do
  let key ← top
  if Revision.berlin ≤ ctx.rev then
    let access ← Host.accessStorage ctx.msg.recipient key
    if access = .cold then
      -- The warm storage access cost is already applied (from the cost table).
      charge (instr.coldSloadCost - instr.warmStorageReadCost)
  let value ← Host.getStorage ctx.msg.recipient key
  setTop value

/-- The cost of SSTORE, after the `cost` of a cold access. -/
def sstoreCost (rev : Revision) (cost : Int) : StorageStatus → Int
  | .unchanged | .modifiedAgain =>
      if Revision.berlin ≤ rev then cost + instr.warmStorageReadCost
      else if rev = .istanbul then 800
      else if rev = .constantinople then 200
      else 5000
  | .modified | .deleted =>
      if Revision.berlin ≤ rev then cost + (5000 - instr.coldSloadCost) else 5000
  | .added => cost + 20000
  | .other _ => cost

def sstore (ctx : Context) : Exec Unit := do
  if ctx.msg.isStatic then
    exit .staticModeViolation
  -- With no more than the stipend of a call, the storage is not changed.
  if Revision.istanbul ≤ ctx.rev then
    let gas ← gasLeft
    if gas ≤ 2300 then
      exit .outOfGas
  let key ← Exec.pop
  let value ← Exec.pop
  let cost : Int ←
    if Revision.berlin ≤ ctx.rev then do
      let access ← Host.accessStorage ctx.msg.recipient key
      pure (if access = .cold then instr.coldSloadCost else 0)
    else pure 0
  let status ← Host.setStorage ctx.msg.recipient key value
  charge (sstoreCost ctx.rev cost status)

def msize (_ctx : Context) : Exec Unit := do
  let size ← memorySize
  push (UInt256.ofSize size)

def gas (_ctx : Context) : Exec Unit := do
  let gas ← gasLeft
  push (UInt256.ofInt64 gas)

def jumpdest (_ctx : Context) : Exec Unit := pure ()

/-- `dup<n + 1>`. -/
def dup (n : Fin 16) (_ctx : Context) : Exec Unit := do
  let item ← peek n
  push item

/-- `swap<n + 1>`. -/
def swap (n : Fin 16) (_ctx : Context) : Exec Unit := do
  let x ← top
  let y ← peek (n + 1)
  setTop y
  poke (n + 1) x

/-- Pops the topics of LOG. -/
def popTopics : Nat → Exec (List UInt256)
  | 0 => pure []
  | n + 1 => do
      let topic ← Exec.pop
      let topics ← popTopics n
      pure (topic :: topics)

def log (numTopics : Fin 5) (ctx : Context) : Exec Unit := do
  if ctx.msg.isStatic then
    exit .staticModeViolation
  let offset ← Exec.pop
  let size ← Exec.pop
  checkMemory offset size
  let o := offset.toSize
  let s := size.toSize
  charge (toInt64 s * 8)
  let topics ← popTopics numTopics
  let data ← if s ≠ 0 then load o s else pure []
  Host.emitLog ctx.msg.recipient data topics

/-! ## Terminating instructions -/

def return_ (status : StatusCode) (_ctx : Context) : Exec StatusCode := do
  let offset ← peek 0
  let size ← peek 1
  checkMemory offset size
  setOutputOffset offset.toSize  -- Can be garbage if size is 0.
  setOutputSize size.toSize
  pure status

def invalid (_ctx : Context) : Exec StatusCode := pure .invalidInstruction

/-- The cost of SELFDESTRUCT for sending value to a non-existing account, from TANGERINE_WHISTLE
on. -/
def chargeNewBeneficiary (ctx : Context) (beneficiary : Address) : Exec Unit := do
  if Revision.tangerineWhistle ≤ ctx.rev then
    let sendsValue ←
      -- There the account is paid for even if nothing is sent.
      if ctx.rev = .tangerineWhistle then pure true
      else do
        let balance ← Host.getBalance ctx.msg.recipient
        pure (balance != 0)
    if sendsValue then
      let found ← Host.accountExists beneficiary
      if !found then
        charge 25000

def selfdestruct (ctx : Context) : Exec StatusCode := do
  if ctx.msg.isStatic then
    exit .staticModeViolation
  let x ← peek 0
  let beneficiary := x.toAddress
  chargeColdAccount ctx beneficiary instr.coldAccountAccessCost
  chargeNewBeneficiary ctx beneficiary
  Host.selfdestruct ctx.msg.recipient beneficiary
  pure .success

end Ivmone.Instructions
