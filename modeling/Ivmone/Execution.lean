import Ivmone.Calls
import Mathlib.Computability.StateTransition

/-!
# Executions

What the two interpreters share around their loops: how an execution is invoked, the configurations
a loop goes through, and the result made from the final state. The loops themselves are step
functions on configurations; their runs are those of `StateTransition`.
-/

set_option autoImplicit false

namespace Ivmone

/-- An invocation of one of the `execute` functions, with the bytes and words that are in the
memory it allocates and does not initialise. -/
structure Invocation (σ : Type) where
  ctx : Context
  env : Env σ
  host : σ
  uninitStack : Stack
  uninitCode : Nat → Byte

/-- A position of an interpreter loop with the state there, the final state, or a fault. -/
inductive Config (S : Type) where
  | running (pos : Nat) (s : S)
  | halted (s : S)
  | fault (f : Fault)

/-- The state a constructor of `ExecutionState` leaves. -/
def Invocation.newState {σ : Type} (i : Invocation σ) : ExecutionState σ where
  toContext := i.ctx
  gasLeft := i.ctx.msg.gas
  stack := i.uninitStack.clear
  memory := Memory.new i.env.alloc
  returnData := Buffer.empty
  status := .success
  outputOffset := 0
  outputSize := 0
  host := i.host
  calls := []
  ghost := {}

/-- Two invocations with the same arguments: only uninitialised memory may differ. -/
structure Invocation.Same {σ : Type} (i j : Invocation σ) : Prop where
  ctx : i.ctx = j.ctx
  host : i.host = j.host
  envHost : i.env.host = j.env.host
  keccak256 : i.env.keccak256 = j.env.keccak256

/-- `ivmc_result`, as `execute` returns it. -/
structure ExecutionResult where
  status : StatusCode
  gasLeft : Int
  output : List Byte
  deriving DecidableEq

/-- The end of both `execute` functions. There is no result if the output region reaches beyond
the memory. -/
def makeResult {σ : Type} (s : ExecutionState σ) : Option ExecutionResult :=
  -- Only SUCCESS and REVERT leave gas.
  let gasLeft := if s.status.keepsGas then s.gasLeft else 0
  if s.outputSize ≠ 0 then
    (s.memory.load? s.outputOffset s.outputSize).map fun output => ⟨s.status, gasLeft, output⟩
  else some ⟨s.status, gasLeft, []⟩

/-- Leaves a loop: an exit of an implementation sets the status. -/
def Config.ofResult {σ : Type} : Result σ Nat → Config (ExecutionState σ)
  | .ok pos s => .running pos s
  | .exit status s => .halted { s with status := status }
  | .fault f => .fault f

/-! ## A host without accounts -/

/-- A host that knows no account, refuses every call and answers everything else with zeros. -/
def emptyHost : Host Unit := fun q st =>
  match q with
  | .accountExists _ => (false, st)
  | .getStorage _ _ => (0, st)
  | .setStorage _ _ _ => (.modified, st)
  | .getBalance _ => (0, st)
  | .getCodeSize _ => (0, st)
  | .getCodeHash _ => (0, st)
  | .copyCode _ _ _ => ([], st)
  | .selfdestruct _ _ => ((), st)
  | .call _ => (⟨.failure, 0, .empty, 0⟩, st)
  | .getTxContext => (⟨0, 0, 0, 0, 0, 0, 0, 0, 0⟩, st)
  | .getBlockHash _ => (0, st)
  | .emitLog _ _ _ => ((), st)
  | .accessAccount _ => (.cold, st)
  | .accessStorage _ _ => (.cold, st)

theorem emptyHost_callBounded : emptyHost.CallBounded := fun _ _ h => ⟨le_rfl, h⟩

theorem emptyHost_copyFits : emptyHost.CopyFits := fun _ _ _ _ => Nat.zero_le _

/-- An allocator that fills new memory with zeros. -/
def zeroAllocator : Allocator where
  realloc data capacity := data.take capacity ++ List.replicate (capacity - data.length) 0
  length_realloc data capacity := by
    rw [List.length_append, List.length_take, List.length_replicate]
    omega
  take_realloc data capacity h := by
    rw [List.take_of_length_le h, List.take_left]

/-- An invocation of code without call data, on the host without accounts. -/
def simpleInvocation (rev : Revision) (code : Buffer) (gas : Int) (flags : BitVec 32) :
    Invocation Unit where
  ctx := ⟨{ gas := gas, flags := flags }, rev, code, Buffer.size_nil_lt⟩
  env := ⟨emptyHost, fun _ => 0, zeroAllocator⟩
  host := ()
  uninitStack := ⟨List.replicate 1024 0, 0, Stack.length_zeros, Nat.zero_le Stack.limit⟩
  uninitCode := fun _ => 0

/-- A PUSH1 whose data is missing, as the whole code. -/
def truncatedPush : Invocation Unit :=
  simpleInvocation .berlin ⟨[(Opcode.push 0).toByte], by norm_num⟩ 100 0

end Ivmone
