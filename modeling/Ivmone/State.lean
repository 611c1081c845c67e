import Ivmone.Lib.Program
import Ivmone.Ivmc
import Ivmone.Stack
import Ivmone.Memory

/-!
# The execution state and the operations of instructions

`ExecutionState` is the state that all instruction implementations share. An implementation is a
program over the operations `Op`: it touches the stack, the memory and the gas counter, makes
requests to the host, and may leave the interpreter loop with a status code. `handle` gives every
operation its meaning on the state.

An operation that the C++ code leaves undefined, such as an access outside the stack, is a `Fault`.
A signed overflow of a gas computation wraps around and is recorded in the ghost part of the state,
next to the calls of `check_memory`; no definition reads the ghost part.
-/

set_option autoImplicit false

namespace Ivmone

open Lib

/-- Undefined behaviour that an execution can run into. -/
inductive Fault
  /-- A stack access below the bottom item or beyond the last slot. -/
  | stack
  /-- A memory access beyond the size of the memory. -/
  | memory
  /-- A broken assertion of `Memory::grow`. -/
  | growth
  /-- A read outside the call data, the code or the return data. -/
  | buffer
  /-- A read outside the padded code. -/
  | codePosition
  /-- The `default` case of the dispatch switch. -/
  | unreachable
  /-- An instruction pointer outside the instruction table. -/
  | instrPosition
  /-- An entry of the instruction table with no function. -/
  | nullFunction
  /-- An instruction argument of the wrong kind, or a dangling push value pointer. -/
  | argument
  deriving DecidableEq, Repr

/-- The part of `ExecutionState` that instructions only read. -/
structure Context where
  msg : Message
  rev : Revision
  code : Buffer
  input_size_lt : msg.input.length < 2 ^ 63

/-- The size argument of the two overloads of `check_memory`. -/
inductive MemorySize
  | u64 (size : Nat)
  | u256 (size : UInt256)

/-- The number of bytes a size argument stands for. -/
def MemorySize.toNat : MemorySize → Nat
  | u64 size => size
  | u256 size => size.toNat

/-- One call of `check_memory`, with the memory size and gas before and after it. -/
structure MemoryCheck where
  offset : UInt256
  size : MemorySize
  memoryBefore : Nat
  gasBefore : Int
  passed : Bool
  memoryAfter : Nat
  gasAfter : Int

/-- What is recorded about an execution and never read by it. -/
structure Ghost where
  overflow : Bool := false
  checks : List MemoryCheck := []

/-- `struct ExecutionState`, with the state of the host and the calls made to it. -/
structure ExecutionState (σ : Type) extends Context where
  gasLeft : Int
  stack : Stack
  memory : Memory
  returnData : Buffer
  status : StatusCode
  outputOffset : Nat
  outputSize : Nat
  host : σ
  calls : List HostCall
  ghost : Ghost

/-- What an execution is given from outside: the host, the hash function and the allocator. -/
structure Env (σ : Type) where
  host : Host σ
  keccak256 : List Byte → UInt256
  alloc : Allocator

/-- The operations of instruction implementations. -/
inductive Op
  | pop
  | push (item : UInt256)
  /-- Reads `stack[index]`. -/
  | peek (index : Nat)
  /-- Assigns `stack[index]`. -/
  | poke (index : Nat) (item : UInt256)
  /-- `if ((state.gas_left -= cost) < 0) return IVMC_OUT_OF_GAS`. -/
  | charge (cost : Int)
  /-- `if (!check_memory(state, offset, size)) return IVMC_OUT_OF_GAS`. -/
  | checkMemory (offset : UInt256) (size : MemorySize)
  | load (offset length : Nat)
  | store (offset : Nat) (bytes : List Byte)
  | memorySize
  | gasLeft
  | setGasLeft (gas : Int)
  /-- The `int64_t` result of a gas computation with the given exact value. -/
  | int64 (exact : Int)
  | returnData
  | setReturnData (data : Buffer)
  | setOutputOffset (offset : Nat)
  | setOutputSize (size : Nat)
  | request (q : HostRequest)
  | keccak256 (data : List Byte)
  /-- Leaves the implementation and the interpreter loop with a status code. -/
  | exit (status : StatusCode)
  | fault (f : Fault)

/-- The answers of the operations. -/
@[reducible] def Op.Res : Op → Type
  | pop => UInt256
  | peek _ => UInt256
  | load _ _ => List Byte
  | memorySize => Nat
  | gasLeft => Int
  | int64 _ => Int
  | returnData => Buffer
  | request q => q.Response
  | keccak256 _ => UInt256
  | exit _ => Empty
  | fault _ => Empty
  | _ => Unit

/-- Instruction implementations. -/
abbrev Exec (α : Type) := Program Op Op.Res α

variable {σ : Type}

/-- The outcome of an operation or an implementation. -/
abbrev Result (σ α : Type) := Outcome (ExecutionState σ) StatusCode Fault α

namespace ExecutionState

/-- Assigns the `int64_t` value of an exact result to `gas_left`. -/
def setGas (s : ExecutionState σ) (exact : Int) : ExecutionState σ :=
  { s with
    gasLeft := toInt64 exact
    ghost := { s.ghost with overflow := s.ghost.overflow || !decide (InInt64 exact) } }

/-- Records an `int64_t` operation with the given exact result. -/
def noteInt64 (s : ExecutionState σ) (exact : Int) : ExecutionState σ :=
  { s with ghost := { s.ghost with overflow := s.ghost.overflow || !decide (InInt64 exact) } }

/-- Records a call of `check_memory` that started in the state `before`. -/
def noteCheck (s before : ExecutionState σ) (offset : UInt256) (size : MemorySize)
    (passed : Bool) : ExecutionState σ :=
  let check : MemoryCheck := {
    offset := offset
    size := size
    memoryBefore := before.memory.size
    gasBefore := before.gasLeft
    passed := passed
    memoryAfter := s.memory.size
    gasAfter := s.gasLeft }
  { s with ghost := { s.ghost with checks := s.ghost.checks ++ [check] } }

end ExecutionState

/-! ## Memory checks -/

/-- The largest buffer size the instructions accept. -/
def maxBufferSize : Nat := 2 ^ 32 - 1

/-- The size of the EVM 256-bit word. -/
def wordSize : Nat := 32

/-- The number of words that would fit to the provided number of bytes. -/
def numWords (sizeInBytes : Nat) : Int :=
  (((sizeInBytes + (wordSize - 1)) % 2 ^ 64 / wordSize : Nat) : Int)

/-- The exact cost of a memory of `words` words. -/
def memoryCost (words : Int) : Int := 3 * words + words * words / 512

namespace ExecutionState

/-- Grows EVM memory and checks its cost. -/
def growMemory (s : ExecutionState σ) (alloc : Allocator) (newSize : Nat) : Result σ Bool :=
  let newWords := numWords newSize
  let currentWords : Int := s.memory.size / wordSize
  let cost := memoryCost newWords - memoryCost currentWords
  let s := (s.noteInt64 (newWords * newWords)).noteInt64 (memoryCost newWords)
  let s := (s.noteInt64 (currentWords * currentWords)).noteInt64 (memoryCost currentWords)
  let s := (s.noteInt64 cost).setGas (s.gasLeft - cost)
  if s.gasLeft < 0 then .ok false s
  else
    match s.memory.grow? alloc (newWords * wordSize).toNat with
    | some memory => .ok true { s with memory := memory }
    | none => .fault .growth

/-- The overload of `check_memory` for a 64-bit size. -/
def checkMemory64 (s : ExecutionState σ) (alloc : Allocator) (offset : UInt256) (size : Nat) :
    Result σ Bool :=
  if (offset.word 3 ||| offset.word 2 ||| offset.word 1) ≠ 0 ∨
      maxBufferSize < (offset.word 0).toNat then
    .ok false s
  else
    let newSize := (offset.toSize + size) % 2 ^ 64
    if s.memory.size < newSize then s.growMemory alloc newSize else .ok true s

/-- The overload of `check_memory` for "copy" instructions. -/
def checkMemory256 (s : ExecutionState σ) (alloc : Allocator) (offset size : UInt256) :
    Result σ Bool :=
  if size = 0 then .ok true s  -- Copy of size 0 is always valid (even if offset is huge).
  else if (size.word 3 ||| size.word 2 ||| size.word 1) ≠ 0 ∨
      maxBufferSize < (size.word 0).toNat then
    .ok false s
  else s.checkMemory64 alloc offset size.toSize

def checkMemory (s : ExecutionState σ) (alloc : Allocator) (offset : UInt256) :
    MemorySize → Result σ Bool
  | .u64 size => s.checkMemory64 alloc offset size
  | .u256 size => s.checkMemory256 alloc offset size

end ExecutionState

/-! ## The meaning of the operations -/

def handle (env : Env σ) : (o : Op) → ExecutionState σ → Result σ o.Res
  | .pop, s =>
      match s.stack.pop? with
      | some (item, stack) => .ok item { s with stack := stack }
      | none => .fault .stack
  | .push item, s =>
      match s.stack.push? item with
      | some stack => .ok () { s with stack := stack }
      | none => .fault .stack
  | .peek index, s =>
      match s.stack.get? index with
      | some item => .ok item s
      | none => .fault .stack
  | .poke index item, s =>
      match s.stack.set? index item with
      | some stack => .ok () { s with stack := stack }
      | none => .fault .stack
  | .charge cost, s =>
      let s := (s.noteInt64 cost).setGas (s.gasLeft - cost)
      if s.gasLeft < 0 then .exit .outOfGas s else .ok () s
  | .checkMemory offset size, s =>
      (s.checkMemory env.alloc offset size).bind fun passed s' =>
        let s' := s'.noteCheck s offset size passed
        if passed then .ok () s' else .exit .outOfGas s'
  | .load offset length, s =>
      match s.memory.load? offset length with
      | some bytes => .ok bytes s
      | none => .fault .memory
  | .store offset bytes, s =>
      match s.memory.store? offset bytes with
      | some memory => .ok () { s with memory := memory }
      | none => .fault .memory
  | .memorySize, s => .ok s.memory.size s
  | .gasLeft, s => .ok s.gasLeft s
  | .setGasLeft gas, s => .ok () { s with gasLeft := gas }
  | .int64 exact, s => .ok (toInt64 exact) (s.noteInt64 exact)
  | .returnData, s => .ok s.returnData s
  | .setReturnData data, s => .ok () { s with returnData := data }
  | .setOutputOffset offset, s => .ok () { s with outputOffset := offset }
  | .setOutputSize size, s => .ok () { s with outputSize := size }
  | .request q, s =>
      let answer := env.host q s.host
      .ok answer.1 { s with host := answer.2, calls := s.calls ++ [⟨q, answer.1⟩] }
  | .keccak256 data, s => .ok (env.keccak256 data) s
  | .exit status, s => .exit status s
  | .fault f, _ => .fault f

/-- Run an implementation in a state. -/
def Exec.run {α : Type} (env : Env σ) (p : Exec α) (s : ExecutionState σ) : Result σ α :=
  Program.run (handle env) p s

/-! ## The operations as programs -/

namespace Exec

/-- Issues one operation. -/
def perform (o : Op) : Exec o.Res := Program.perform o

def pop : Exec UInt256 := perform .pop

def push (item : UInt256) : Exec Unit := perform (.push item)

def peek (index : Nat) : Exec UInt256 := perform (.peek index)

def poke (index : Nat) (item : UInt256) : Exec Unit := perform (.poke index item)

/-- `state.stack.top()`. -/
def top : Exec UInt256 := peek 0

/-- Assignment to `state.stack.top()`. -/
def setTop (item : UInt256) : Exec Unit := poke 0 item

def charge (cost : Int) : Exec Unit := perform (.charge cost)

/-- The check of a region with a 256-bit size. -/
def checkMemory (offset size : UInt256) : Exec Unit :=
  perform (.checkMemory offset (.u256 size))

/-- The check of a region with a 64-bit size. -/
def checkMemory64 (offset : UInt256) (size : Nat) : Exec Unit :=
  perform (.checkMemory offset (.u64 size))

def load (offset length : Nat) : Exec (List Byte) := perform (.load offset length)

def store (offset : Nat) (bytes : List Byte) : Exec Unit := perform (.store offset bytes)

def memorySize : Exec Nat := perform .memorySize

def gasLeft : Exec Int := perform .gasLeft

def setGasLeft (gas : Int) : Exec Unit := perform (.setGasLeft gas)

def int64 (exact : Int) : Exec Int := perform (.int64 exact)

def returnData : Exec Buffer := perform .returnData

def setReturnData (data : Buffer) : Exec Unit := perform (.setReturnData data)

def setOutputOffset (offset : Nat) : Exec Unit := perform (.setOutputOffset offset)

def setOutputSize (size : Nat) : Exec Unit := perform (.setOutputSize size)

def request (q : HostRequest) : Exec q.Response := perform (.request q)

/-! The members of `state.host`. -/

def Host.accountExists (addr : Address) : Exec Bool := request (.accountExists addr)

def Host.getStorage (addr : Address) (key : UInt256) : Exec UInt256 :=
  request (.getStorage addr key)

def Host.setStorage (addr : Address) (key value : UInt256) : Exec StorageStatus :=
  request (.setStorage addr key value)

def Host.getBalance (addr : Address) : Exec UInt256 := request (.getBalance addr)

def Host.getCodeSize (addr : Address) : Exec (BitVec 64) := request (.getCodeSize addr)

def Host.getCodeHash (addr : Address) : Exec UInt256 := request (.getCodeHash addr)

def Host.copyCode (addr : Address) (codeOffset bufferSize : Nat) : Exec (List Byte) :=
  request (.copyCode addr codeOffset bufferSize)

def Host.selfdestruct (addr beneficiary : Address) : Exec Unit :=
  request (.selfdestruct addr beneficiary)

def Host.call (msg : Message) : Exec CallResult := request (.call msg)

def Host.getTxContext : Exec TxContext := request .getTxContext

def Host.getBlockHash (number : Int) : Exec UInt256 := request (.getBlockHash number)

def Host.emitLog (addr : Address) (data : List Byte) (topics : List UInt256) : Exec Unit :=
  request (.emitLog addr data topics)

def Host.accessAccount (addr : Address) : Exec AccessStatus := request (.accessAccount addr)

def Host.accessStorage (addr : Address) (key : UInt256) : Exec AccessStatus :=
  request (.accessStorage addr key)

def keccak256 (data : List Byte) : Exec UInt256 := perform (.keccak256 data)

def exit {α : Type} (status : StatusCode) : Exec α := Program.call (.exit status) fun e => nomatch e

def fault {α : Type} (f : Fault) : Exec α := Program.call (.fault f) fun e => nomatch e

/-- Reads `length` bytes of a buffer from `offset` on. -/
def read (buffer : List Byte) (offset length : Nat) : Exec (List Byte) :=
  if offset + length ≤ buffer.length then pure ((buffer.drop offset).take length)
  else fault .buffer

end Exec

end Ivmone
