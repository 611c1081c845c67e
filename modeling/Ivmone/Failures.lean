import Ivmone.Effects
import Ivmone.Execution

/-!
# Failing instructions

An instruction that fails has had no effect outside of the execution. SSTORE is the exception: its
final cost depends on what `set_storage` answers, so it may run out of gas after it.
-/

set_option autoImplicit false

namespace Ivmone

open Lib Lib.Program Instructions

variable {σ : Type} {env : Env σ} {ctx : Context} {s s' : ExecutionState σ} {status : StatusCode}

/-- A run that only queries has no effect, however it ends. -/
theorem noEffect_of_queries {α : Type} {p : Exec α} (hp : p.Uses Op.Queries)
    (h : p.run env s = .exit status s') : NoEffect s s' := by
  have hrun := run_queries env hp s
  rw [h] at hrun
  exact hrun

/-- A continuation that always succeeds fails only where the program before it does. -/
theorem exit_of_bind_pure {α β : Type} {p : Exec α} {f : α → β}
    (h : Exec.run env (p >>= fun x => pure (f x)) s = .exit status s') :
    p.run env s = .exit status s' := by
  rw [Exec.run, run_bind] at h
  rcases Outcome.bind_eq_exit h with h | ⟨x, s1, -, h⟩
  · exact h
  · cases h

theorem call_noEffect {kind : CallKind} {isStatic : Bool}
    (h : (call kind isStatic ctx).run env s = .exit status s') : NoEffect s s' := by
  rw [call_eq] at h
  have hpay : (payCall kind isStatic ctx >>= fun x =>
      forwardGas ctx x.gas x.value >>= fun msgGas => pure (x, msgGas)).Uses Op.Queries := by
    refine Uses.bind ((uses_payCall kind isStatic).mono fun _ => Op.Asks.queries) fun x => ?_
    exact Uses.bind (uses_forwardGas x.gas x.value) fun _ => trivial
  apply noEffect_of_exit hpay fun x => uses_gated (uses_sendCall
    (callMessage kind isStatic ctx x.1.dst x.1.value x.1.input x.2) x.1.outputOffset
          x.1.outputSize) x.1.value
  simpa only [bind_assoc, pure_bind] using h

theorem create_noEffect {kind : CallKind} (h : (create kind ctx).run env s = .exit status s') :
    NoEffect s s' := by
  rw [create_eq] at h
  exact noEffect_of_exit ((uses_payCreate kind).mono fun _ => Op.Asks.queries)
    (fun x => uses_gated (uses_forwardCreate kind x) x.endowment) h

theorem log_noEffect {n : Fin 5} (h : (log n ctx).run env s = .exit status s') : NoEffect s s' := by
  rw [log_eq] at h
  exact noEffect_of_exit ((uses_payLog n).mono fun _ => Op.Asks.queries)
    (fun x => uses_sendLog x.1 x.2.1 x.2.2) h

theorem selfdestruct_noEffect (h : (selfdestruct ctx).run env s = .exit status s') :
    NoEffect s s' := by
  rw [selfdestruct_eq] at h
  exact noEffect_of_exit (uses_paySelfdestruct.mono fun _ => Op.Asks.queries)
    (fun x => uses_sendSelfdestruct x) h

/-- SELFDESTRUCT succeeds unless it leaves early. -/
theorem selfdestruct_status {x : StatusCode} (h : (selfdestruct ctx).run env s = .ok x s') :
    x = .success := by
  rw [selfdestruct_eq, Exec.run, run_bind] at h
  obtain ⟨beneficiary, s1, -, h⟩ := Outcome.bind_eq_ok h
  rw [run_bind] at h
  obtain ⟨-, s2, -, h⟩ := Outcome.bind_eq_ok h
  cases h
  rfl

/-- SSTORE only gets to its request outside of static mode and with more gas than the sentry. -/
theorem paySstore_ok {x : UInt256 × UInt256 × Int} (h : (paySstore ctx).run env s = .ok x s') :
    ctx.msg.isStatic = false ∧ (Revision.istanbul ≤ ctx.rev → 2300 < s.gasLeft) ∧
      s'.gasLeft = s.gasLeft := by
  have hgas := run_keepsGas env (keepsGas_paySstore ctx) s
  rw [h] at hgas
  have hstatic : ctx.msg.isStatic = false := by
    by_contra hstatic
    rw [Bool.not_eq_false] at hstatic
    simp only [paySstore, hstatic, if_true] at h
    cases h
  refine ⟨hstatic, ?_, hgas⟩
  intro hrev
  by_contra hlow
  simp only [paySstore, hstatic, hrev, if_true, if_false, Bool.false_eq_true] at h
  rw [Exec.run, run_bind] at h
  obtain ⟨gas, s1, hread, h⟩ := Outcome.bind_eq_ok h
  cases hread
  rw [if_pos (Int.not_lt.1 hlow)] at h
  cases h

/-- The effect of an SSTORE that fails: `set_storage` was its last request, outside of static mode
and with more gas than the sentry, and the final cost is not covered. -/
structure UnpaidStore (ctx : Context) (s s' : ExecutionState σ) (status : StatusCode) : Prop where
  status : status = .outOfGas
  notStatic : ctx.msg.isStatic = false
  sentry : Revision.istanbul ≤ ctx.rev → 2300 < s.gasLeft
  calls : ∃ queries key value answer cost,
    s'.calls = s.calls ++ (queries ++ [⟨.setStorage ctx.msg.recipient key value, answer⟩]) ∧
      (∀ c ∈ queries, c.request.isEffect = false) ∧
      s'.gasLeft = toInt64 (s.gasLeft - sstoreCost ctx.rev cost answer) ∧ s'.gasLeft < 0

theorem sstore_exit (h : (sstore ctx).run env s = .exit status s') :
    NoEffect s s' ∨ UnpaidStore ctx s s' status := by
  rw [sstore_eq, Exec.run, run_bind] at h
  have hqueries : ((paySstore ctx).run env s).Meets (fun _ s' => NoEffect s s')
      (fun _ s' => NoEffect s s') fun _ => True :=
    run_queries env (uses_paySstore.mono fun _ => Op.Asks.queries) s
  rcases Outcome.bind_eq_exit h with h | ⟨x, s1, hpay, h⟩
  · rw [Exec.run, h] at hqueries
    exact .inl hqueries
  · obtain ⟨hstatic, hsentry, hgas⟩ := paySstore_ok hpay
    rw [Exec.run, hpay] at hqueries
    obtain ⟨queries, hcalls, hnone⟩ := hqueries
    let answer := env.host (.setStorage ctx.msg.recipient x.1 x.2.1) s1.host
    -- the slot is set before its cost is charged: this is the one way to fail after an effect
    have hcharge : handle env (.charge (sstoreCost ctx.rev x.2.2 answer.1))
        { s1 with
          host := answer.2
          calls := s1.calls ++ [⟨.setStorage ctx.msg.recipient x.1 x.2.1, answer.1⟩] } =
          .exit status s' := by
      rw [← h]
      exact (run_perform (handle env) _ _).symm
    simp only [handle] at hcharge
    split at hcharge
    · rename_i hneg
      injection hcharge with hstatus hs'
      subst hs'
      refine .inr ⟨hstatus.symm, hstatic, hsentry, queries, x.1, x.2.1, answer.1, x.2.2, ?_, hnone,
        ?_, hneg⟩
      · show s1.calls ++ _ = _
        rw [hcalls, List.append_assoc]
      · show toInt64 (s1.gasLeft - _) = _
        rw [hgas]
    · cases hcharge

/-! ## All instructions -/

/-- An instruction other than SSTORE that fails has no effect. -/
theorem invoke_noEffect {op : Opcode} (hop : op ≠ .sstore) {analysis : Baseline.CodeAnalysis}
    {pos : Nat}
    (h : (Baseline.invoke (Baseline.op2fn op) analysis ctx pos).run env s = .exit status s')
    (hstatus : status ≠ .success) : NoEffect s s' := by
  have hplain : (∀ q, ¬ op.Effect q) → op.isCall = false → NoEffect s s' := by
    intro hnone hcall
    refine noEffect_of_queries ((uses_invoke hcall analysis pos).mono fun o ho => ?_) h
    cases o with
    | request q => exact ho.resolve_right (hnone q)
    | _ => trivial
  cases op with
  | sstore => exact absurd rfl hop
  | call | callcode | delegatecall | staticcall => exact call_noEffect (exit_of_bind_pure h)
  | create | create2 => exact create_noEffect (exit_of_bind_pure h)
  | log n => exact log_noEffect (exit_of_bind_pure h)
  | selfdestruct =>
      have hrun : Exec.run env (selfdestruct ctx >>= fun x => Exec.exit x) s =
          (.exit status s' : Result σ Nat) := h
      rw [Exec.run, run_bind] at hrun
      rcases Outcome.bind_eq_exit hrun with hrun | ⟨x, s1, hok, hrun⟩
      · exact selfdestruct_noEffect hrun
      · -- past the request only success is left
        injection hrun with hx
        exact absurd (hx.symm.trans (selfdestruct_status hok)) hstatus
  | _ => exact hplain (fun q => id) rfl

/-- Failing instructions have no external effect, except for an SSTORE that cannot pay its final
cost. -/
theorem failing_instructions_have_no_effect (env : Env σ) (ctx : Context)
    (analysis : Baseline.CodeAnalysis) (pos : Nat) (s s' : ExecutionState σ) (status : StatusCode) :
    (∀ op : Opcode, op ≠ .sstore →
      (Baseline.invoke (Baseline.op2fn op) analysis ctx pos).run env s = .exit status s' →
      status ≠ .success → (op = .revert → status ≠ .revert) →
      ∃ new, s'.calls = s.calls ++ new ∧ ∀ c ∈ new, c.request.isEffect = false) ∧
    ((sstore ctx).run env s = .exit status s' →
      (∃ new, s'.calls = s.calls ++ new ∧ ∀ c ∈ new, c.request.isEffect = false) ∨
        UnpaidStore ctx s s' status) :=
  ⟨fun _ hop h hstatus _ => invoke_noEffect hop h hstatus, sstore_exit⟩

/-- LOG0 in a static frame. -/
def staticLog : Invocation Unit :=
  simpleInvocation .berlin ⟨[(Opcode.log 0).toByte], by norm_num⟩ 1000 ivmcStatic

theorem failing_instructions_have_no_effect_staticLog :
    (Baseline.invoke (Baseline.op2fn (.log 0)) ⟨[], []⟩ staticLog.ctx 0).run staticLog.env
        staticLog.newState = .exit .staticModeViolation staticLog.newState ∧
      ∃ new, staticLog.newState.calls = staticLog.newState.calls ++ new ∧
        ∀ c ∈ new, c.request.isEffect = false := by
  have hstatic : staticLog.ctx.msg.isStatic = true := by decide
  have hrun : (Baseline.invoke (Baseline.op2fn (.log 0)) ⟨[], []⟩ staticLog.ctx 0).run staticLog.env
      staticLog.newState = .exit .staticModeViolation staticLog.newState := by
    simp only [Baseline.op2fn, Baseline.invoke, log, hstatic, if_true]
    rfl
  exact ⟨hrun, (failing_instructions_have_no_effect staticLog.env staticLog.ctx ⟨[], []⟩ 0
    staticLog.newState staticLog.newState .staticModeViolation).1 (.log 0) (by decide) hrun
    (by decide) (by decide)⟩

end Ivmone
