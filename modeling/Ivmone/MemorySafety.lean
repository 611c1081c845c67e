import Ivmone.StackSafety

/-!
# Memory safety

Operands are 256-bit words, and accesses use their low 64 bits once `check_memory` has passed. In
every state of a run and for any values on the stack, every access of the instruction that comes
next stays within the memory and the buffers, and so does the output of an execution.
-/

set_option autoImplicit false

namespace Ivmone

open Lib

variable {σ : Type}

/-- The rules of an execution whose host stays within the buffer of `copy_code`. -/
def fitting : Rules := { lenient with fits := True }

theorem premises_fitting {i : Invocation σ} (h : i.env.host.CopyFits) : Premises i fitting :=
  ⟨rfl, trivial, fun _ => h, False.elim, False.elim⟩

/-- Not an access beyond the memory, an impossible growth of it, or a read outside the call data,
the code or the return data. -/
def Fault.NotMemory (f : Fault) : Prop := f ≠ .memory ∧ f ≠ .growth ∧ f ≠ .buffer

/-- A non-empty output region lies inside the memory. -/
def ExecutionState.OutputInside (s : ExecutionState σ) : Prop :=
  s.outputSize ≠ 0 → s.outputOffset + s.outputSize ≤ s.memory.size

/-- The outcome of an instruction whose accesses were within their bounds. -/
def AccessesInside (r : Result σ Nat) : Prop :=
  r.Meets (fun _ _ => True) (fun _ s => s.OutputInside) Fault.NotMemory

theorem notMemory_of_excused {known : Prop} {f : Fault} (h : Excused fitting known f) :
    f.NotMemory := by
  rcases h with ⟨rfl, -⟩ | ⟨-, hnot⟩ | hm
  · exact ⟨by decide, by decide, by decide⟩
  · exact absurd trivial hnot
  · exact hm.elim

theorem accessesInside_of_steps {env : Env σ} {known : Prop} {change : Int} {next : Nat → Prop}
    {t s : ExecutionState σ} {r : Result σ Nat}
    (h : StepsFrom env fitting known change next t s r) : AccessesInside r := by
  refine h.mono (fun _ _ _ => trivial) ?_ fun _ => notMemory_of_excused
  rintro status s' (⟨hm, -⟩ | hleaves)
  · exact hm.elim
  · exact fun hne => (hleaves.output hne).2

/-- The result of an execution is made from bytes of its memory. -/
theorem exists_makeResult {s : ExecutionState σ} (h : s.OutputInside) :
    ∃ result, makeResult s = some result := by
  unfold makeResult
  dsimp only
  split
  · rename_i hne
    rw [Memory.load?_of_le (h hne)]
    exact ⟨_, rfl⟩
  · exact ⟨_, rfl⟩

/-- The state with any stack and any gas. -/
def ExecutionState.anyOperands (s : ExecutionState σ) (stack : Stack) (gas : Int) :
    ExecutionState σ := { s with stack := stack, gasLeft := gas }

theorem Running.startable_anyOperands {i : Invocation σ} {s : ExecutionState σ}
    (h : Running i fitting s) (stack : Stack) (gas : Int) :
    Startable fitting (s.anyOperands stack gas) :=
  ⟨h.follows.sized, h.outputSize, False.elim⟩

/-- What holds in every configuration of a run: the next instruction accesses nothing out of bounds,
whatever its operands are; the output of a final state is in memory, so that there is a result. -/
abbrev Config.MemoryInside {S : Type} (state : S → ExecutionState σ) (P : Nat → S → Prop) :
    Config S → Prop :=
  Config.Meets P
    (fun s => (state s).OutputInside ∧ ∃ result, makeResult (state s) = some result)
    Fault.NotMemory

theorem Baseline.memoryInside_of_reaches {i : Invocation σ} (hfits : i.env.host.CopyFits)
    {c : Config (ExecutionState σ)}
    (hc : StateTransition.Reaches (step i.env (analysisOf i)) (start i) c) :
    c.MemoryInside id fun pos s =>
      ∀ op stack gas, Fetched i.ctx.code.bytes pos op →
        AccessesInside ((invoke (op2fn op) (analysisOf i) s.toContext pos).run i.env
          (s.anyOperands stack gas)) := by
  have hp := premises_fitting hfits
  have hvalid := valid_of_reaches hp hc
  cases c with
  | running pos s =>
      obtain ⟨harrives, hs⟩ := hvalid.resolve_left fun h => h.1
      intro op stack gas hfetched
      have hsuits : Suits False op (s.anyOperands stack gas) := False.elim
      exact accessesInside_of_steps (invoke_steps rfl trivial hp.fits False.elim
        i.ctx.code.size_lt (hs.startable_anyOperands stack gas) hsuits harrives hfetched)
  | halted s =>
      have hhalted : Halted i fitting s := hvalid.resolve_left fun h => h.1
      have hinside : s.OutputInside := fun hne => (hhalted.output hne).2
      exact ⟨hinside, exists_makeResult hinside⟩
  | fault f => exact notMemory_of_excused hvalid

theorem Advanced.memoryInside_of_reaches {i : Invocation σ} (hfits : i.env.host.CopyFits)
    {c : Config (AdvancedExecutionState σ)}
    (hc : StateTransition.Reaches (step i.env (analysisOf i)) (start i) c) :
    c.MemoryInside AdvancedExecutionState.toExecutionState fun ip s =>
      ∀ instr fn stack gas, (analysisOf i).instrs[ip]? = some instr →
        instr.fn = some fn → fn ≠ .opxBeginblock →
        AccessesInside ((exec (analysisOf i) s.currentBlockCost s.toContext fn instr.arg ip).run
          i.env (s.toExecutionState.anyOperands stack gas)) := by
  have hp := premises_fitting hfits
  have hvalid := valid_of_reaches hp False.elim hc
  cases c with
  | running ip s =>
      obtain ⟨hs, -⟩ := hvalid.resolve_left fun h => h.1
      intro instr fn stack gas hinstr hfn hne
      cases entry_of_mem_instrs (List.mem_of_getElem? hinstr) with
      | beginblock b =>
          injection hfn with hfn
          exact absurd hfn.symm hne
      | undefined arg =>
          injection hfn with hfn
          subst hfn
          exact fun hsize => absurd hs.outputSize hsize
      | @op op d _ _ hop hjumpdest hdef hgas hfit hvalue =>
          injection hfn with hfn
          subst hfn
          -- Neither the operands nor the gas are known, so the rules do not count the gas.
          have hsuits : Suits False op (s.toExecutionState.anyOperands stack gas) := False.elim
          exact accessesInside_of_steps (t := s.toExecutionState) (exec_steps rfl trivial
            hp.fits False.elim hop hjumpdest hvalue (hs.startable_anyOperands stack gas) hsuits
            ⟨False.elim, False.elim, False.elim, False.elim⟩ False.elim)
  | halted s =>
      have hhalted := hvalid.resolve_left fun h => h.1
      have hinside : s.toExecutionState.OutputInside := fun hne => (hhalted.output hne).2
      exact ⟨hinside, exists_makeResult hinside⟩
  | fault f =>
      rcases hvalid with hf | hf
      · exact notMemory_of_excused hf
      · subst hf
        exact ⟨by decide, by decide, by decide⟩

/-- Memory safety of both interpreters, for every code, revision and message, and every host whose
`copy_code` returns at most the requested size. -/
theorem memory_safety (i : Invocation σ) (hfits : i.env.host.CopyFits) :
    (∀ c, StateTransition.Reaches (Baseline.step i.env (Baseline.analysisOf i))
      (Baseline.start i) c → c.MemoryInside id fun pos s =>
        ∀ op stack gas, Baseline.Fetched i.ctx.code.bytes pos op →
          AccessesInside
            ((Baseline.invoke (Baseline.op2fn op) (Baseline.analysisOf i) s.toContext pos).run i.env
              (s.anyOperands stack gas))) ∧
    (∀ c, StateTransition.Reaches (Advanced.step i.env (Advanced.analysisOf i))
      (Advanced.start i) c →
      c.MemoryInside Advanced.AdvancedExecutionState.toExecutionState fun ip s =>
        ∀ instr fn stack gas, (Advanced.analysisOf i).instrs[ip]? = some instr →
          instr.fn = some fn → fn ≠ .opxBeginblock →
          AccessesInside
            ((Advanced.exec (Advanced.analysisOf i) s.currentBlockCost s.toContext fn instr.arg
              ip).run i.env (s.toExecutionState.anyOperands stack gas))) := by
  constructor
  · exact fun c hc => Baseline.memoryInside_of_reaches hfits hc
  · exact fun c hc => Advanced.memoryInside_of_reaches hfits hc

theorem memory_safety_truncatedPush :
    AccessesInside
      ((Baseline.invoke (Baseline.op2fn (.push 0)) (Baseline.analysisOf truncatedPush)
        truncatedPush.ctx 0).run truncatedPush.env
        (truncatedPush.newState.anyOperands truncatedPush.uninitStack 97)) := by
  have h := (memory_safety truncatedPush emptyHost_copyFits).1 _ Relation.ReflTransGen.refl
  rw [Baseline.start_eq] at h
  exact h (.push 0) _ 97 (ofByte_toByte _)

end Ivmone
