import Ivmone.Calls

/-!
# Code analysis of the Advanced interpreter

`analysis.hpp` and `analysis.cpp`: the code is translated to a table of instructions. A basic block
starts with a BEGINBLOCK entry that holds the gas cost and the stack requirements of the whole
block. A JUMPDEST starts a block and has no entry of its own.

A function pointer is an `ExecFn`, or `none` for the null pointer, and a pointer to a large push
value is its index in `pushValues`.
-/

set_option autoImplicit false

namespace Ivmone.Advanced

open Instructions

/-! ## Tables -/

/-- Compressed information about instruction basic block. -/
structure BlockInfo where
  gasCost : Nat := 0
  stackReq : Int := 0
  stackMaxGrowth : Int := 0
  deriving DecidableEq, Repr

/-- The functions implementing instructions; `op` wraps a generic implementation. -/
inductive ExecFn
  | op (f : Context → Exec Unit)
  | opStop
  | opSstore
  | opJump
  | opJumpi
  | opPc
  | opGas
  | opPushSmall
  | opPushFull
  | opInvalid
  | opReturn (status : StatusCode)
  | opCall (kind : CallKind) (isStatic : Bool)
  | opCreate (kind : CallKind)
  | opUndefined
  | opSelfdestruct
  | opxBeginblock

/-- `union instruction_argument`. -/
inductive Argument
  | number (n : Int)
  | pushValue (index : Nat)
  | smallPushValue (value : BitVec 64)
  | block (info : BlockInfo)
  deriving DecidableEq, Repr

/-- `struct instruction`. -/
structure Instruction where
  fn : Option ExecFn
  arg : Argument := .block {}

/-- `struct op_table_entry`. -/
structure OpTableEntry where
  fn : Option ExecFn
  gasCost : Int := 0
  stackReq : Int := 0
  stackChange : Int := 0

def instructionImplementations : Opcode → ExecFn
  | .stop => .opStop
  | .add => .op add
  | .mul => .op mul
  | .sub => .op sub
  | .div => .op div
  | .sdiv => .op sdiv
  | .mod => .op mod
  | .smod => .op smod
  | .addmod => .op addmod
  | .mulmod => .op mulmod
  | .exp => .op exp
  | .signextend => .op signextend
  | .lt => .op lt
  | .gt => .op gt
  | .slt => .op slt
  | .sgt => .op sgt
  | .eq => .op eq
  | .iszero => .op iszero
  | .and_ => .op and_
  | .or_ => .op or_
  | .xor_ => .op xor_
  | .not_ => .op not_
  | .byte => .op byte
  | .shl => .op shl
  | .shr => .op shr
  | .sar => .op sar
  | .keccak256 => .op keccak256
  | .address => .op address
  | .balance => .op balance
  | .origin => .op origin
  | .caller => .op caller
  | .callvalue => .op callvalue
  | .calldataload => .op calldataload
  | .calldatasize => .op calldatasize
  | .calldatacopy => .op calldatacopy
  | .codesize => .op codesize
  | .codecopy => .op codecopy
  | .gasprice => .op gasprice
  | .extcodesize => .op extcodesize
  | .extcodecopy => .op extcodecopy
  | .returndatasize => .op returndatasize
  | .returndatacopy => .op returndatacopy
  | .extcodehash => .op extcodehash
  | .blockhash => .op blockhash
  | .coinbase => .op coinbase
  | .timestamp => .op timestamp
  | .number => .op number
  | .difficulty => .op difficulty
  | .gaslimit => .op gaslimit
  | .chainid => .op chainid
  | .selfbalance => .op selfbalance
  | .basefee => .op basefee
  | .pop => .op pop
  | .mload => .op mload
  | .mstore => .op mstore
  | .mstore8 => .op mstore8
  | .sload => .op sload
  | .sstore => .opSstore
  | .jump => .opJump
  | .jumpi => .opJumpi
  | .pc => .opPc
  | .msize => .op msize
  | .gas => .opGas
  | .jumpdest => .opxBeginblock
  | .push n => if n < 8 then .opPushSmall else .opPushFull
  | .dup n => .op (dup n)
  | .swap n => .op (swap n)
  | .log n => .op (log n)
  | .create => .opCreate .create
  | .call => .opCall .call false
  | .callcode => .opCall .callcode false
  | .return_ => .opReturn .success
  | .delegatecall => .opCall .delegatecall false
  | .create2 => .opCreate .create2
  | .staticcall => .opCall .call true
  | .revert => .opReturn .revert
  | .invalid => .opInvalid
  | .selfdestruct => .opSelfdestruct

/-- `get_op_table(rev)` at a byte. The table of implementations is null where no opcode is. -/
def opTable (rev : Revision) (b : Byte) : OpTableEntry :=
  if instr.gasCost rev b = instr.undefined then { fn := some .opUndefined }
  else {
    fn := (Opcode.ofByte b).map instructionImplementations
    gasCost := instr.gasCost rev b
    stackReq := (instr.traitsOf b).stackHeightRequired
    stackChange := (instr.traitsOf b).stackHeightChange }

/-! ## Blocks -/

/-- Clamps x to the max value of the target type. -/
def clamp (max x : Int) : Int := if x ≤ max then x else max

/-- `struct block_analysis`. Stack heights are of type `int`; the gas cost is a 64-bit sum of 16-bit
costs and is kept exact. -/
structure BlockAnalysis where
  gasCost : Int := 0
  stackReq : Int := 0
  stackMaxGrowth : Int := 0
  stackChange : Int := 0
  beginBlockIndex : Nat

/-- Close the current block by producing compressed information about the block. -/
def BlockAnalysis.close (b : BlockAnalysis) : BlockInfo where
  gasCost := (clamp (2 ^ 32 - 1) b.gasCost).toNat
  stackReq := clamp (2 ^ 15 - 1) b.stackReq
  stackMaxGrowth := clamp (2 ^ 15 - 1) b.stackMaxGrowth

/-- Adds the requirements of one more instruction. -/
def BlockAnalysis.add (b : BlockAnalysis) (info : OpTableEntry) : BlockAnalysis :=
  -- The change so far is what the instructions before have left on the stack.
  let stackReq := max b.stackReq (toInt32 (info.stackReq - b.stackChange))
  let stackChange := toInt32 (b.stackChange + info.stackChange)
  { b with
    stackReq := stackReq
    stackChange := stackChange
    stackMaxGrowth := max b.stackMaxGrowth stackChange
    gasCost := b.gasCost + info.gasCost }

/-! ## Push data -/

/-- The loop of small pushes: `data` is the push data present in the code. -/
def smallPushLoop (value : BitVec 64) (insertBitPos : Nat) : List Byte → BitVec 64
  | [] => value
  | b :: data =>
      -- The position is unsigned and wraps around after the lowest byte.
      smallPushLoop (value ||| b.setWidth 64 <<< insertBitPos)
        ((insertBitPos + 2 ^ 64 - 8) % 2 ^ 64) data

def smallPushValue (pushSize : Nat) (data : List Byte) : BitVec 64 :=
  smallPushLoop 0 ((pushSize - 1) * 8) data

/-- The loop of large pushes: `bytes` is the value in native endianness. -/
def largePushLoop (bytes : List Byte) (insertPos : Int) : List Byte → List Byte
  | [] => bytes
  | b :: data => largePushLoop (bytes.set insertPos.toNat b) (insertPos - 1) data

/-- The word with the given bytes, lowest first. -/
def leLoad (bytes : List Byte) : UInt256 :=
  BitVec.ofNat 256 (bytes.foldr (fun b acc => acc * 256 + b.toNat) 0)

def largePushValue (pushSize : Nat) (data : List Byte) : UInt256 :=
  leLoad (largePushLoop (List.replicate 32 0) ((pushSize : Int) - 1) data)

/-! ## The analysis -/

/-- `struct AdvancedCodeAnalysis`. -/
structure AdvancedCodeAnalysis where
  instrs : List Instruction := []
  pushValues : List UInt256 := []
  jumpdestOffsets : List Int := []
  jumpdestTargets : List Int := []

/-- `std::lower_bound` on a sorted list: the index of the first element that is not less. -/
def lowerBound (xs : List Int) (x : Int) : Nat := xs.findIdx fun y => !decide (y < x)

/-- `find_jumpdest`. -/
def findJumpdest (analysis : AdvancedCodeAnalysis) (offset : Int) : Int :=
  let it := lowerBound analysis.jumpdestOffsets offset
  if analysis.jumpdestOffsets[it]? = some offset then analysis.jumpdestTargets.getD it 0 else -1

namespace AdvancedCodeAnalysis

/-- The entry of an instruction, or the jump destination of a JUMPDEST at the given offset. -/
def emit (a : AdvancedCodeAnalysis) (opcode : Byte) (fn : Option ExecFn) (offset : Nat) :
    AdvancedCodeAnalysis :=
  if opcode = Opcode.jumpdest.toByte then
    -- The last entry is the BEGINBLOCK of the block that the JUMPDEST starts.
    { a with
      jumpdestOffsets := a.jumpdestOffsets ++ [toInt32 offset]
      jumpdestTargets := a.jumpdestTargets ++ [toInt32 (a.instrs.length - 1)] }
  else { a with instrs := a.instrs ++ [{ fn := fn }] }

/-- Assigns the argument of an entry. -/
def setArg (a : AdvancedCodeAnalysis) (index : Nat) (arg : Argument) : AdvancedCodeAnalysis :=
  { a with instrs := a.instrs.modify index fun instr => { instr with arg := arg } }

/-- Assigns the argument of `instrs.back()`. -/
def setLastArg (a : AdvancedCodeAnalysis) (arg : Argument) : AdvancedCodeAnalysis :=
  a.setArg (a.instrs.length - 1) arg

/-- Saves a block to its BEGINBLOCK entry. -/
def saveBlock (a : AdvancedCodeAnalysis) (block : BlockAnalysis) : AdvancedCodeAnalysis :=
  a.setArg block.beginBlockIndex (.block block.close)

/-- The switch over the opcode, for the instruction at `pos - 1`. It gives the analysis with the
argument of the instruction, the position after its push data, and whether it terminates its
block. -/
def decodeArg (a : AdvancedCodeAnalysis) (code : List Byte) (pos : Nat) (gasCost : Int)
    (opcode : Byte) : AdvancedCodeAnalysis × Nat × Bool :=
  match Opcode.ofByte opcode with
  | some .jump | some .jumpi | some .stop | some .return_ | some .revert | some .selfdestruct =>
      (a, pos, true)
  | some (.push n) =>
      let pushSize := n.val + 1
      -- The data that is there: the code may end before.
      let data := (code.drop pos).take pushSize
      if n < 8 then
        (a.setLastArg (.smallPushValue (smallPushValue pushSize data)), pos + data.length, false)
      else
        let a := a.setLastArg (.pushValue a.pushValues.length)
        ({ a with pushValues := a.pushValues ++ [largePushValue pushSize data] },
          pos + data.length, false)
  | some .gas | some .call | some .callcode | some .delegatecall | some .staticcall
  | some .create | some .create2 | some .sstore => (a.setLastArg (.number gasCost), pos, false)
  | some .pc => (a.setLastArg (.number (pos - 1)), pos, false)
  | _ => (a, pos, false)

/-- The position after an instruction is not before it. -/
theorem le_decodeArg_pos (a : AdvancedCodeAnalysis) (code : List Byte) (pos : Nat) (gasCost : Int)
    (opcode : Byte) : pos ≤ (a.decodeArg code pos gasCost opcode).2.1 := by
  unfold decodeArg
  split
  all_goals first | exact Nat.le_refl _ | skip
  split
  all_goals exact Nat.le_add_right _ _

end AdvancedCodeAnalysis

/-- The body of the loop of `analyze`, for the opcode at `pos`: the analysis and the block it
leaves, and the next position. -/
def analyzeInstr (rev : Revision) (code : List Byte) (pos : Nat) (opcode : Byte)
    (block : BlockAnalysis) (a : AdvancedCodeAnalysis) :
    AdvancedCodeAnalysis × BlockAnalysis × Nat :=
  let opcodeInfo := opTable rev opcode
  let block := block.add opcodeInfo
  let a := a.emit opcode opcodeInfo.fn pos
  let decoded := a.decodeArg code (pos + 1) block.gasCost opcode
  let a := decoded.1
  let pos := decoded.2.1
  let isTerminator := decoded.2.2
  -- If this is a terminating instruction or the next instruction is a JUMPDEST.
  if isTerminator ∨ code[pos]? = some Opcode.jumpdest.toByte then
    -- The next block gets its BEGINBLOCK here.
    let a := a.saveBlock block
    ({ a with instrs := a.instrs ++ [{ fn := (opTable rev Opcode.jumpdest.toByte).fn }] },
      { beginBlockIndex := a.instrs.length }, pos)
  else (a, block, pos)

theorem lt_analyzeInstr_pos (rev : Revision) (code : List Byte) (pos : Nat) (opcode : Byte)
    (block : BlockAnalysis) (a : AdvancedCodeAnalysis) :
    pos < (analyzeInstr rev code pos opcode block a).2.2 := by
  have hle := AdvancedCodeAnalysis.le_decodeArg_pos (a.emit opcode (opTable rev opcode).fn pos) code
    (pos + 1) (block.add (opTable rev opcode)).gasCost opcode
  unfold analyzeInstr
  dsimp only
  split <;> exact hle

/-- The loop of `analyze`, from code position `pos`. -/
def analyzeLoop (rev : Revision) (code : List Byte) (pos : Nat) (block : BlockAnalysis)
    (a : AdvancedCodeAnalysis) : AdvancedCodeAnalysis × BlockAnalysis :=
  if h : pos < code.length then
    let next := analyzeInstr rev code pos code[pos] block a
    analyzeLoop rev code next.2.2 next.2.1 next.1
  else (a, block)
termination_by code.length - pos
decreasing_by
  have hlt := lt_analyzeInstr_pos rev code pos code[pos] block a
  omega

/-- `analyze`. -/
def analyze (rev : Revision) (code : List Byte) : AdvancedCodeAnalysis :=
  let beginblock : Instruction := { fn := (opTable rev Opcode.jumpdest.toByte).fn }
  let analyzed := analyzeLoop rev code 0 { beginBlockIndex := 0 } { instrs := [beginblock] }
  let a := analyzed.1.saveBlock analyzed.2
  -- Make sure the last block is terminated.
  { a with instrs := a.instrs ++ [{ fn := (opTable rev Opcode.stop.toByte).fn }] }

end Ivmone.Advanced
