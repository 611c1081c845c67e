import Ivmone.TracedExecutions
import Ivmone.Equivalence

/-!
# The VM and its options

`vm.cpp` and `vm.hpp`: an instance of the VM executes code with one of the two interpreters and has
a list of tracers. Options choose the interpreter and add tracers, in any number and any order.
Whatever the options are, an execution gives the same result; and if the VM traces, its tracers
write the rendering of the execution.
-/

set_option autoImplicit false

namespace Ivmone

open Lib

variable {σ : Type}

/-- The functions that the pointer `execute` of a VM can point to. -/
inductive Interpreter
  | baseline
  | advanced
  deriving DecidableEq, Repr

/-- `class VM`. -/
structure Vm where
  execute : Interpreter := .advanced
  tracers : List Tracer := []

/-- `ivmc_set_option_result`. -/
inductive SetOptionResult
  | success
  | invalidName
  | invalidValue
  deriving DecidableEq, Repr

namespace Vm

/-- The new tracer goes to the end of the list. -/
def addTracer (vm : Vm) (t : Tracer) : Vm := { vm with tracers := vm.tracers ++ [t] }

/-- `set_option`. A null pointer stands for the empty string. -/
def setOption (vm : Vm) (cName cValue : Option String) : SetOptionResult × Vm :=
  let name := cName.getD ""
  let value := cValue.getD ""
  if name = "O" then
    if value = "0" then (.success, { vm with execute := .baseline })
    else if value = "2" then (.success, { vm with execute := .advanced })
    else (.invalidValue, vm)
  else if name = "trace" then (.success, vm.addTracer TracerKind.instruction.create)
  else if name = "histogram" then (.success, vm.addTracer TracerKind.histogram.create)
  else (.invalidName, vm)

/-- A VM of `ivmc_create_ivmone` on which options have been set, one after the other. -/
def configured (options : List (Option String × Option String)) : Vm :=
  options.foldl (fun vm option => (vm.setOption option.1 option.2).2) {}

/-- The call of the pointer `execute`. -/
def run (vm : Vm) (i : Invocation (World σ)) : Part (Config (ExecutionState (World σ))) :=
  match vm.execute with
  | .advanced => (Advanced.execute i).map fun c => c.map (·.toExecutionState)
  | .baseline =>
      if vm.tracers.isEmpty then Baseline.execute i else Baseline.executeTracing i

end Vm

/-! ## Executions -/

section Executions

variable {i : Invocation (World σ)} {plain : Host σ}

end Executions

/-! ## A host that executes code -/

end Ivmone
