import Ivmone.Word

/-!
# The IVMC interface

The types of the IVMC header that the interpreters read and write, and the host they talk to. The
host is any state machine that answers the requests of the interface; `HostCall` is a request
together with its answer.
-/

set_option autoImplicit false

namespace Ivmone

/-- `ivmc_revision`. -/
inductive Revision
  | frontier
  | homestead
  | tangerineWhistle
  | spuriousDragon
  | byzantium
  | constantinople
  | petersburg
  | istanbul
  | berlin
  | london
  | shanghai
  deriving DecidableEq, Repr

namespace Revision

def toNat : Revision → Nat
  | frontier => 0
  | homestead => 1
  | tangerineWhistle => 2
  | spuriousDragon => 3
  | byzantium => 4
  | constantinople => 5
  | petersburg => 6
  | istanbul => 7
  | berlin => 8
  | london => 9
  | shanghai => 10

instance : LE Revision := ⟨fun a b => a.toNat ≤ b.toNat⟩

instance : LT Revision := ⟨fun a b => a.toNat < b.toNat⟩

instance (a b : Revision) : Decidable (a ≤ b) := inferInstanceAs (Decidable (a.toNat ≤ b.toNat))

instance (a b : Revision) : Decidable (a < b) := inferInstanceAs (Decidable (a.toNat < b.toNat))

end Revision

/-- `ivmc_status_code`. The codes the interpreters never produce themselves are `other`. -/
inductive StatusCode
  | success
  | failure
  | revert
  | outOfGas
  | invalidInstruction
  | undefinedInstruction
  | stackOverflow
  | stackUnderflow
  | badJumpDestination
  | invalidMemoryAccess
  | staticModeViolation
  | other (code : Int)
  deriving DecidableEq, Repr

/-- `status == IVMC_SUCCESS || status == IVMC_REVERT`: the statuses that keep the gas left. -/
def StatusCode.keepsGas (status : StatusCode) : Prop := status = .success ∨ status = .revert

instance (status : StatusCode) : Decidable status.keepsGas := inferInstanceAs (Decidable (_ ∨ _))

/-- `check_and_normalize` of the fuzzer: every status after `IVMC_REVERT` counts as a failure. -/
def StatusCode.normalize : StatusCode → StatusCode
  | .success => .success
  | .revert => .revert
  | _ => .failure

/-- `ivmc_call_kind`. -/
inductive CallKind
  | call
  | delegatecall
  | callcode
  | create
  | create2
  deriving DecidableEq, Repr

/-- `ivmc_message`. The call data is the byte string `input_data` points to. -/
structure Message where
  kind : CallKind := .call
  flags : BitVec 32 := 0
  depth : Int := 0
  gas : Int := 0
  recipient : Address := 0
  sender : Address := 0
  input : List Byte := []
  value : UInt256 := 0
  create2Salt : UInt256 := 0
  codeAddress : Address := 0
  deriving DecidableEq, Repr, Inhabited

/-- The flag `IVMC_STATIC`. -/
def ivmcStatic : BitVec 32 := 1

/-- `msg->flags & IVMC_STATIC`. -/
def Message.isStatic (msg : Message) : Bool := (msg.flags &&& ivmcStatic) != 0

/-- A byte string in memory. No object of a C++ program is larger than `PTRDIFF_MAX`. -/
structure Buffer where
  bytes : List Byte
  size_lt : bytes.length < 2 ^ 63

namespace Buffer

def size (b : Buffer) : Nat := b.bytes.length

theorem size_nil_lt : ([] : List Byte).length < 2 ^ 63 := by norm_num

def empty : Buffer := ⟨[], size_nil_lt⟩

theorem size_lt_two_pow (b : Buffer) : b.size < 2 ^ 63 := b.size_lt

end Buffer

/-- `ivmc_result`, as the host returns it. -/
structure CallResult where
  statusCode : StatusCode
  gasLeft : Int
  output : Buffer
  createAddress : Address

/-- `ivmc_tx_context`. -/
structure TxContext where
  txGasPrice : UInt256
  txOrigin : Address
  blockCoinbase : Address
  blockNumber : Int
  blockTimestamp : Int
  blockGasLimit : Int
  blockDifficulty : UInt256
  chainId : UInt256
  blockBaseFee : UInt256

/-- `ivmc_storage_status`, with a value outside the enumeration for a host that answers with
one. -/
inductive StorageStatus
  | unchanged
  | modified
  | modifiedAgain
  | added
  | deleted
  | other (code : Int)
  deriving DecidableEq, Repr

/-- `ivmc_access_status`. -/
inductive AccessStatus
  | cold
  | warm
  deriving DecidableEq, Repr

/-- A request to the host. -/
inductive HostRequest
  | accountExists (addr : Address)
  | getStorage (addr : Address) (key : UInt256)
  | setStorage (addr : Address) (key value : UInt256)
  | getBalance (addr : Address)
  | getCodeSize (addr : Address)
  | getCodeHash (addr : Address)
  | copyCode (addr : Address) (codeOffset bufferSize : Nat)
  | selfdestruct (addr beneficiary : Address)
  | call (msg : Message)
  | getTxContext
  | getBlockHash (number : Int)
  | emitLog (addr : Address) (data : List Byte) (topics : List UInt256)
  | accessAccount (addr : Address)
  | accessStorage (addr : Address) (key : UInt256)
  deriving DecidableEq, Repr

/-- The answer to a request. `copy_code` returns the bytes it has written to the buffer. -/
@[reducible] def HostRequest.Response : HostRequest → Type
  | accountExists _ => Bool
  | getStorage _ _ => UInt256
  | setStorage _ _ _ => StorageStatus
  | getBalance _ => UInt256
  | getCodeSize _ => BitVec 64
  | getCodeHash _ => UInt256
  | copyCode _ _ _ => List Byte
  | selfdestruct _ _ => Unit
  | call _ => CallResult
  | getTxContext => TxContext
  | getBlockHash _ => UInt256
  | emitLog _ _ _ => Unit
  | accessAccount _ => AccessStatus
  | accessStorage _ _ => AccessStatus

/-- A host with states `σ`: `ivmc::HostContext` as the instructions see it. -/
abbrev Host (σ : Type) := (q : HostRequest) → σ → q.Response × σ

/-- A request that was made, with its answer. -/
structure HostCall where
  request : HostRequest
  response : request.Response

/-- The answer of `call()` lies within the gas of its message. -/
def HostCall.Bounded : HostCall → Prop
  | ⟨.call msg, result⟩ => 0 ≤ result.gasLeft ∧ result.gasLeft ≤ msg.gas
  | _ => True

/-- `copy_code` has written no more than the size of its buffer. -/
def HostCall.Fits : HostCall → Prop
  | ⟨.copyCode _ _ bufferSize, bytes⟩ => bytes.length ≤ bufferSize
  | _ => True

namespace Host

variable {σ : Type}

/-- A host whose `call()` returns between none and all of the gas it was given. -/
def CallBounded (host : Host σ) : Prop :=
  ∀ (msg : Message) (st : σ), 0 ≤ msg.gas →
    0 ≤ (host (.call msg) st).1.gasLeft ∧ (host (.call msg) st).1.gasLeft ≤ msg.gas

/-- A host whose `copy_code` returns at most the requested size. -/
def CopyFits (host : Host σ) : Prop :=
  ∀ (addr : Address) (codeOffset bufferSize : Nat) (st : σ),
    (host (.copyCode addr codeOffset bufferSize) st).1.length ≤ bufferSize

end Host

end Ivmone
