import Ivmone.Execution

/-!
# The Baseline interpreter

`baseline.cpp`: the analysis that pads the code and marks the valid jump destinations, and the loop
that checks the requirements of every instruction before executing it. Code positions are offsets
in the padded code.
-/

set_option autoImplicit false

namespace Ivmone.Baseline

open Exec Instructions

/-! ## Code analysis -/

/-- `baseline::CodeAnalysis`. -/
structure CodeAnalysis where
  paddedCode : List Byte
  jumpdestMap : List Bool

/-- The loop of `analyze`, from offset `i`: the offset at which it ends, and the map. As `OP_PUSH32`
is the largest `int8_t`, the comparison as a signed byte finds all PUSH opcodes. -/
def scan (code : List Byte) (i : Nat) (map : List Bool) : Nat × List Bool :=
  if h : i < code.length then
    let op := code[i]
    if ((Opcode.push 0).toNat : Int) ≤ op.toInt then
      scan code (i + (op.toNat - ((Opcode.push 0).toNat - 1)) + 1) map  -- Skip PUSH data.
    else if op = Opcode.jumpdest.toByte then
      scan code (i + 1) (map.set i true)
    else scan code (i + 1) map
  else (i, map)
termination_by code.length - i

/-- `baseline::analyze`. The buffer for the padded code is not initialised. -/
def analyze (uninit : Nat → Byte) (code : List Byte) : CodeAnalysis :=
  let scanned := scan code 0 (List.replicate code.length false)
  let i := scanned.1
  let paddedCode := (List.range (i + 1)).map uninit  -- +1 for the final STOP.
  let paddedCode := overwrite paddedCode 0 code
  -- Push data that reaches beyond the end leaves bytes between the two that are never set.
  let paddedCode := paddedCode.set code.length Opcode.stop.toByte
  let paddedCode := paddedCode.set i Opcode.stop.toByte
  ⟨paddedCode, scanned.2⟩

/-! ## Requirements -/

/-- `InstructionTableEntry`. -/
structure InstructionTableEntry where
  gasCost : Int
  stackHeightRequired : Int
  canOverflowStack : Bool

/-- `get_baseline_instruction_table`. Any instruction can increase the stack height at most by 1,
so the stack can only overflow if its height is already at the limit. -/
def instructionTable (rev : Revision) (op : Byte) : InstructionTableEntry where
  gasCost := instr.gasCost rev op
  stackHeightRequired := (instr.traitsOf op).stackHeightRequired
  canOverflowStack := 0 < (instr.traitsOf op).stackHeightChange

variable {σ : Type}

def checkRequirements (s : ExecutionState σ) (op : Byte) : StatusCode × ExecutionState σ :=
  let metrics := instructionTable s.rev op
  if metrics.gasCost = instr.undefined then (.undefinedInstruction, s)
  else
    let s := s.setGas (s.gasLeft - metrics.gasCost)
    if s.gasLeft < 0 then (.outOfGas, s)
    else if s.stack.size = Stack.limit then
      if metrics.canOverflowStack then (.stackOverflow, s) else (.success, s)
    else if (s.stack.size : Int) < metrics.stackHeightRequired then (.stackUnderflow, s)
    else (.success, s)

/-! ## Instructions that need the code position -/

/-- Internal jump implementation for JUMP/JUMPI instructions. -/
def jumpImpl (analysis : CodeAnalysis) (dst : UInt256) : Exec Nat :=
  if analysis.jumpdestMap.length ≤ dst.toNat ∨
      analysis.jumpdestMap.getD dst.toSize false = false then
    exit .badJumpDestination
  else pure dst.toSize

def jump (analysis : CodeAnalysis) (_pos : Nat) : Exec Nat := do
  let dst ← Exec.pop
  jumpImpl analysis dst

def jumpi (analysis : CodeAnalysis) (pos : Nat) : Exec Nat := do
  let dst ← Exec.pop
  let cond ← Exec.pop
  if cond ≠ 0 then jumpImpl analysis dst else pure (pos + 1)

def pc (_analysis : CodeAnalysis) (pos : Nat) : Exec Nat := do
  Exec.push (UInt256.ofSize pos)
  pure (pos + 1)

/-- `push<n + 1>`. The whole data is read from the padded code. -/
def push (n : Fin 32) (analysis : CodeAnalysis) (pos : Nat) : Exec Nat := do
  let len := n.val + 1
  let dataPos := pos + 1
  if analysis.paddedCode.length < dataPos + len then
    fault .codePosition
  Exec.push (beLoad ((analysis.paddedCode.drop dataPos).take len))
  pure (pos + (len + 1))

/-! ## Dispatch -/

/-- The implementations of instructions by their signature: basic instructions, which always succeed
or may fail, terminating instructions, and instructions requiring the code position. -/
inductive InstrFn
  | basic (f : Context → Exec Unit)
  | terminating (f : Context → Exec StatusCode)
  | codePosition (f : CodeAnalysis → Nat → Exec Nat)

/-- Maps opcode to function with instruction implementation. -/
def op2fn : Opcode → InstrFn
  | .stop => .terminating stop
  | .add => .basic add
  | .mul => .basic mul
  | .sub => .basic sub
  | .div => .basic div
  | .sdiv => .basic sdiv
  | .mod => .basic mod
  | .smod => .basic smod
  | .addmod => .basic addmod
  | .mulmod => .basic mulmod
  | .exp => .basic exp
  | .signextend => .basic signextend
  | .lt => .basic lt
  | .gt => .basic gt
  | .slt => .basic slt
  | .sgt => .basic sgt
  | .eq => .basic eq
  | .iszero => .basic iszero
  | .and_ => .basic and_
  | .or_ => .basic or_
  | .xor_ => .basic xor_
  | .not_ => .basic not_
  | .byte => .basic byte
  | .shl => .basic shl
  | .shr => .basic shr
  | .sar => .basic sar
  | .keccak256 => .basic Instructions.keccak256
  | .address => .basic address
  | .balance => .basic balance
  | .origin => .basic origin
  | .caller => .basic caller
  | .callvalue => .basic callvalue
  | .calldataload => .basic calldataload
  | .calldatasize => .basic calldatasize
  | .calldatacopy => .basic calldatacopy
  | .codesize => .basic codesize
  | .codecopy => .basic codecopy
  | .gasprice => .basic gasprice
  | .extcodesize => .basic extcodesize
  | .extcodecopy => .basic extcodecopy
  | .returndatasize => .basic returndatasize
  | .returndatacopy => .basic returndatacopy
  | .extcodehash => .basic extcodehash
  | .blockhash => .basic blockhash
  | .coinbase => .basic coinbase
  | .timestamp => .basic timestamp
  | .number => .basic number
  | .difficulty => .basic difficulty
  | .gaslimit => .basic gaslimit
  | .chainid => .basic chainid
  | .selfbalance => .basic selfbalance
  | .basefee => .basic basefee
  | .pop => .basic Instructions.pop
  | .mload => .basic mload
  | .mstore => .basic mstore
  | .mstore8 => .basic mstore8
  | .sload => .basic sload
  | .sstore => .basic sstore
  | .jump => .codePosition jump
  | .jumpi => .codePosition jumpi
  | .pc => .codePosition pc
  | .msize => .basic msize
  | .gas => .basic gas
  | .jumpdest => .basic jumpdest
  | .push n => .codePosition (push n)
  | .dup n => .basic (dup n)
  | .swap n => .basic (swap n)
  | .log n => .basic (log n)
  | .create => .basic (create .create)
  | .call => .basic (call .call false)
  | .callcode => .basic (call .callcode false)
  | .return_ => .terminating (return_ .success)
  | .delegatecall => .basic (call .delegatecall false)
  | .create2 => .basic (create .create2)
  | .staticcall => .basic (call .call true)
  | .revert => .terminating (return_ .revert)
  | .invalid => .terminating invalid
  | .selfdestruct => .terminating selfdestruct

/-- Invokes an implementation at a code position; the result is the next position. -/
def invoke (fn : InstrFn) (analysis : CodeAnalysis) (ctx : Context) (pos : Nat) : Exec Nat :=
  match fn with
  | .basic f => do
      f ctx
      pure (pos + 1)
  | .terminating f => do
      let status ← f ctx
      exit status
  | .codePosition f => f analysis pos

/-! ## The interpreter loop -/

/-- One round of the loop at an opcode whose requirements have been checked. -/
def dispatch (env : Env σ) (analysis : CodeAnalysis) (pos : Nat) (op : Byte)
    (s : ExecutionState σ) : Config (ExecutionState σ) :=
  match Opcode.ofByte op with
  | some opcode => .ofResult ((invoke (op2fn opcode) analysis s.toContext pos).run env s)
  | none => .fault .unreachable

/-- One round of the loop. -/
def step (env : Env σ) (analysis : CodeAnalysis) :
    Config (ExecutionState σ) → Option (Config (ExecutionState σ))
  | .running pos s =>
      some <|
        match analysis.paddedCode[pos]? with
        | none => .fault .codePosition
        | some op =>
            match checkRequirements s op with
            | (.success, s') => dispatch env analysis pos op s'
            | (status, s') => .halted { s' with status := status }
  | _ => none

/-- The analysis of the code of an invocation. -/
def analysisOf (i : Invocation σ) : CodeAnalysis :=
  analyze i.uninitCode i.ctx.code.bytes

/-- The loop starts at the first byte, with the padded code in place of the code. -/
def start (i : Invocation σ) : Config (ExecutionState σ) :=
  let s := i.newState
  .running 0 { s with
    code := {
      bytes := (analysisOf i).paddedCode.take s.code.size
      size_lt := by
        rw [List.length_take]
        exact Nat.lt_of_le_of_lt (Nat.min_le_left _ _) s.code.size_lt } }

/-- `baseline::execute`: the configurations it reaches end in its final one. -/
def execute (i : Invocation σ) : Part (Config (ExecutionState σ)) :=
  StateTransition.eval (step i.env (analysisOf i)) (start i)

end Ivmone.Baseline
