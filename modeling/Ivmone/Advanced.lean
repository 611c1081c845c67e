import Ivmone.Analysis
import Ivmone.Execution

/-!
# The Advanced interpreter

`instructions.cpp` and `execution.cpp`: the functions of the instruction table and the loop that
calls them. An instruction pointer is an index in the table. The functions other than
`opxBeginblock` are programs that end with the next instruction pointer.
-/

set_option autoImplicit false

namespace Ivmone.Advanced

open Exec Instructions Lib

variable {σ : Type}

/-- `struct AdvancedExecutionState`. -/
structure AdvancedExecutionState (σ : Type) extends ExecutionState σ where
  currentBlockCost : Nat

/-! ## Instruction functions -/

/-- `instr->arg.number`. -/
def argNumber : Argument → Exec Int
  | .number n => pure n
  | _ => fault .argument

/-- Runs an implementation with the gas left corrected: the base costs of the instructions of the
block that follow have been paid already, and are lent to it. -/
def corrected (currentBlockCost : Nat) (arg : Argument) (p : Exec Unit) : Exec Unit := do
  let number ← argNumber arg
  let gasLeftCorrection ← int64 (currentBlockCost - number)
  let gas ← gasLeft
  let gas' ← int64 (gas + gasLeftCorrection)
  setGasLeft gas'
  p
  -- What was lent is taken back, and the execution may be out of gas only now.
  charge gasLeftCorrection

/-- The destination of a jump, popped and looked up: none if it is not valid. -/
def popJumpTarget (analysis : AdvancedCodeAnalysis) : Exec (Option Nat) := do
  let dst ← Exec.pop
  -- The destinations are `int`s.
  if 2 ^ 31 - 1 < dst.toNat then pure none
  else
    let pc := findJumpdest analysis dst.toNat
    pure (if pc < 0 then none else some pc.toNat)

/-- The next instruction after a jump. -/
def jumpTo : Option Nat → Exec Nat
  | some target => pure target
  | none => exit .badJumpDestination

def opJump (analysis : AdvancedCodeAnalysis) : Exec Nat := do
  let target ← popJumpTarget analysis
  jumpTo target

def opJumpi (analysis : AdvancedCodeAnalysis) (ip : Nat) : Exec Nat := do
  let cond ← peek 1
  if cond ≠ 0 then
    let target ← popJumpTarget analysis
    let _ ← Exec.pop
    jumpTo target
  else
    let _ ← Exec.pop
    let _ ← Exec.pop
    pure (ip + 1)

def opPc (arg : Argument) : Exec Unit := do
  let number ← argNumber arg
  push (UInt256.ofInt64 number)

def opGas (currentBlockCost : Nat) (arg : Argument) : Exec Unit := do
  let number ← argNumber arg
  let correction ← int64 (currentBlockCost - number)
  let gas ← gasLeft
  let gas' ← int64 (gas + correction)
  push (UInt256.ofInt64 gas')

def opPushSmall : Argument → Exec Unit
  | .smallPushValue value => push (value.setWidth 256)
  | _ => fault .argument

def opPushFull (analysis : AdvancedCodeAnalysis) : Argument → Exec Unit
  | .pushValue index =>
      match analysis.pushValues[index]? with
      | some value => push value
      | none => fault .argument
  | _ => fault .argument

def opReturn (status : StatusCode) : Exec StatusCode := do
  let offset ← peek 0
  let size ← peek 1
  checkMemory offset size
  setOutputSize size.toSize
  if size.toSize ≠ 0 then
    setOutputOffset offset.toSize
  pure status

/-- Continues with the next entry of the table. -/
def next (ip : Nat) (p : Exec Unit) : Exec Nat := do
  p
  pure (ip + 1)

/-- Leaves the loop with the status a program ends with. -/
def exitWith (p : Exec StatusCode) : Exec Nat := do
  let status ← p
  exit status

/-- The function of an entry, at the instruction pointer `ip`. -/
def exec (analysis : AdvancedCodeAnalysis) (currentBlockCost : Nat) (ctx : Context) (fn : ExecFn)
    (arg : Argument) (ip : Nat) : Exec Nat :=
  match fn with
  | .op f => next ip (f ctx)
  | .opStop => exit .success
  | .opSstore => next ip (corrected currentBlockCost arg (sstore ctx))
  | .opJump => opJump analysis
  | .opJumpi => opJumpi analysis ip
  | .opPc => next ip (opPc arg)
  | .opGas => next ip (opGas currentBlockCost arg)
  | .opPushSmall => next ip (opPushSmall arg)
  | .opPushFull => next ip (opPushFull analysis arg)
  | .opInvalid => exit .invalidInstruction
  | .opReturn status => exitWith (opReturn status)
  | .opCall kind isStatic => next ip (corrected currentBlockCost arg (call kind isStatic ctx))
  | .opCreate kind => next ip (corrected currentBlockCost arg (create kind ctx))
  | .opUndefined => exit .undefinedInstruction
  | .opSelfdestruct => exitWith (selfdestruct ctx)
  | .opxBeginblock => fault .unreachable  -- It is `opxBeginblock` below.

/-- `opx_beginblock`: checks the requirements of a block and charges its gas cost. -/
def opxBeginblock (block : BlockInfo) (ip : Nat) (s : AdvancedExecutionState σ) :
    Config (AdvancedExecutionState σ) :=
  let s' := s.setGas (s.gasLeft - block.gasCost)
  let exitWith (status : StatusCode) : Config (AdvancedExecutionState σ) :=
    .halted { s with toExecutionState := { s' with status := status } }
  if s'.gasLeft < 0 then exitWith .outOfGas
  else if (s'.stack.size : Int) < block.stackReq then exitWith .stackUnderflow
  else if (Stack.limit : Int) < s'.stack.size + block.stackMaxGrowth then exitWith .stackOverflow
  else .running (ip + 1) { toExecutionState := s', currentBlockCost := block.gasCost }

/-! ## The interpreter loop -/

/-- The configuration of the loop after an instruction function; the block stays the same. -/
def ofResult (currentBlockCost : Nat) : Result σ Nat → Config (AdvancedExecutionState σ)
  | .ok ip s => .running ip ⟨s, currentBlockCost⟩
  | .exit status s => .halted ⟨{ s with status := status }, currentBlockCost⟩
  | .fault f => .fault f

/-- Calls the function of an entry. -/
def dispatch (env : Env σ) (analysis : AdvancedCodeAnalysis) (instr : Instruction) (ip : Nat)
    (s : AdvancedExecutionState σ) : Config (AdvancedExecutionState σ) :=
  match instr.fn, instr.arg with
  | none, _ => .fault .nullFunction
  | some .opxBeginblock, .block info => opxBeginblock info ip s
  | some .opxBeginblock, _ => .fault .argument
  | some fn, arg =>
      ofResult s.currentBlockCost
        ((exec analysis s.currentBlockCost s.toContext fn arg ip).run env s.toExecutionState)

/-- One round of the loop. -/
def step (env : Env σ) (analysis : AdvancedCodeAnalysis) :
    Config (AdvancedExecutionState σ) → Option (Config (AdvancedExecutionState σ))
  | .running ip s =>
      some <|
        match analysis.instrs[ip]? with
        | some instr => dispatch env analysis instr ip s
        | none => .fault .instrPosition
  | _ => none

/-- The analysis of the code of an invocation. -/
def analysisOf (i : Invocation σ) : AdvancedCodeAnalysis := analyze i.ctx.rev i.ctx.code.bytes

/-- The loop starts at the first entry of the table. -/
def start (i : Invocation σ) : Config (AdvancedExecutionState σ) := .running 0 ⟨i.newState, 0⟩

/-- `execute`: the configurations it reaches end in its final one. -/
def execute (i : Invocation σ) : Part (Config (AdvancedExecutionState σ)) :=
  StateTransition.eval (step i.env (analysisOf i)) (start i)

end Ivmone.Advanced
