import Ivmone.SameView

/-!
# Reusing an execution state

`reset` prepares a state for the next execution. It moves the pointer of the stack and sets the size
of the memory to 0, and leaves the slots, the bytes and the capacity of the earlier executions in
place. An execution on such a state cannot be told from one on a new state, whatever the state was
before.
-/

set_option autoImplicit false

namespace Ivmone

open Lib

variable {σ σ' : Type}

/-- `ExecutionState::reset`. -/
def ExecutionState.reset (s : ExecutionState σ') (ctx : Context) (host : σ) : ExecutionState σ where
  toContext := ctx
  gasLeft := ctx.msg.gas
  stack := s.stack.clear
  memory := s.memory.clear
  returnData := Buffer.empty
  status := .success
  outputOffset := 0
  outputSize := 0
  host := host
  calls := []
  ghost := {}

/-- `AdvancedExecutionState::reset`. -/
def Advanced.AdvancedExecutionState.reset (s : Advanced.AdvancedExecutionState σ') (ctx : Context)
    (host : σ) : Advanced.AdvancedExecutionState σ where
  toExecutionState := s.toExecutionState.reset ctx host
  currentBlockCost := 0

namespace Baseline

/-- The first position, with the padded code in place of the code of the state. -/
def startOn (analysis : CodeAnalysis) (s : ExecutionState σ) : Config (ExecutionState σ) :=
  .running 0 { s with
    code := {
      bytes := analysis.paddedCode.take s.code.size
      size_lt := by
        rw [List.length_take]
        exact Nat.lt_of_le_of_lt (Nat.min_le_left _ _) s.code.size_lt } }

/-- `baseline::execute` of a state and an analysis that the caller has made. -/
def executeOn (env : Env σ) (analysis : CodeAnalysis) (s : ExecutionState σ) :
    Part (Config (ExecutionState σ)) :=
  StateTransition.eval (step env analysis) (startOn analysis s)

theorem execute_eq_executeOn (i : Invocation σ) :
    execute i = executeOn i.env (analysisOf i) i.newState := rfl

/-- Executions of states that cannot be told apart are seen alike. -/
theorem executeOn_observed {env env' : Env σ} (hhost : env.host = env'.host)
    (hkeccak : env.keccak256 = env'.keccak256) (analysis : CodeAnalysis) {s t : ExecutionState σ}
    (h : SameView s t) :
    (executeOn env analysis s).map Config.observed =
      (executeOn env' analysis t).map Config.observed := by
  have hstart : (startOn analysis s).Rel SameView (startOn analysis t) := by
    refine .running { h with context := ?_ }
    simp only [h.context]
  apply map_eval_eq_of_both (R := Config.Rel SameView) ?_ (fun _ _ h => h.observed) hstart
  intro c c' hc
  cases hc with
  | running hst =>
      obtain ⟨c, c', hc, hc', hrel⟩ := hst.baseline_step hhost hkeccak rfl fun _ _ _ _ _ _ => rfl
      exact .inr ⟨c, c', hc, hc', hrel⟩
  | halted hst => exact .inl ⟨rfl, rfl⟩
  | fault f => exact .inl ⟨rfl, rfl⟩

end Baseline

namespace Advanced

/-- `execute` of a state and an analysis that the caller has made. -/
def executeOn (env : Env σ) (analysis : AdvancedCodeAnalysis) (s : AdvancedExecutionState σ) :
    Part (Config (AdvancedExecutionState σ)) :=
  StateTransition.eval (step env analysis) (.running 0 s)

theorem execute_eq_executeOn (i : Invocation σ) :
    execute i = executeOn i.env (analysisOf i) ⟨i.newState, 0⟩ := rfl

theorem executeOn_observed {env env' : Env σ} (hhost : env.host = env'.host)
    (hkeccak : env.keccak256 = env'.keccak256) (analysis : AdvancedCodeAnalysis)
    {s t : AdvancedExecutionState σ} (h : SameBlockView s t) :
    (executeOn env analysis s).map observed = (executeOn env' analysis t).map observed := by
  apply map_eval_eq_of_both (R := Config.Rel SameBlockView) ?_ (fun _ _ h => h.advanced_observed)
    (.running h)
  intro c c' hc
  cases hc with
  | running hst =>
      obtain ⟨c, c', hc, hc', hrel⟩ := hst.step hhost hkeccak analysis _
      exact .inr ⟨c, c', hc, hc', hrel⟩
  | halted hst => exact .inl ⟨rfl, rfl⟩
  | fault f => exact .inl ⟨rfl, rfl⟩

end Advanced

/-- A state that was reset looks like a new one. -/
theorem sameView_reset (s : ExecutionState σ') (i : Invocation σ) :
    SameView (s.reset i.ctx i.host) i.newState where
  context := rfl
  gas := rfl
  stack := (Stack.items_clear _).trans (Stack.items_clear _).symm
  memory := (Memory.bytes_clear _).trans (Memory.bytes_new _).symm
  returnData := rfl
  status := rfl
  outputOffset := rfl
  outputSize := rfl
  host := rfl
  calls := rfl

/-- Executions of a reused state give the result and make the calls of those of a new one, in both
interpreters, whatever the earlier executions have left in the state and whatever bytes the
allocator returns. -/
theorem reset_is_fresh (i : Invocation σ) (alloc : Allocator) :
    (∀ (s : ExecutionState σ') (analysis : Baseline.CodeAnalysis),
      (Baseline.executeOn { i.env with alloc := alloc } analysis (s.reset i.ctx i.host)).map
          Config.observed =
        (Baseline.executeOn i.env analysis i.newState).map Config.observed) ∧
      ∀ (s : Advanced.AdvancedExecutionState σ') (analysis : Advanced.AdvancedCodeAnalysis),
        (Advanced.executeOn { i.env with alloc := alloc } analysis (s.reset i.ctx i.host)).map
            Advanced.observed =
          (Advanced.executeOn i.env analysis ⟨i.newState, 0⟩).map Advanced.observed := by
  constructor
  · intro s analysis
    apply Baseline.executeOn_observed
    · rfl
    · rfl
    · exact sameView_reset s i
  · intro s analysis
    apply Advanced.executeOn_observed
    · rfl
    · rfl
    · exact ⟨sameView_reset s.toExecutionState i, rfl⟩

end Ivmone
