import Ivmone.Simulation
import Ivmone.Termination

/-!
# The two interpreters return the same results

Baseline always ends, and Advanced simulates it. So both return the same status, up to the kind of a
failure, the same gas left and the same output, and they have made the same calls if they have not
failed. This needs that the costs of the blocks fit in a BEGINBLOCK, or that no block is entered
whose cost does not fit.
-/

set_option autoImplicit false

namespace Ivmone

open Lib Advanced

variable {σ : Type}

/-! ## Results -/

theorem keepsGas_iff_of_normalize_eq {status status' : StatusCode}
    (h : status.normalize = status'.normalize) : status.keepsGas ↔ status'.keepsGas := by
  have hkeeps : ∀ x : StatusCode, x.keepsGas ↔ x.normalize ≠ .failure := by
    intro x
    unfold StatusCode.keepsGas
    cases x <;> simp [StatusCode.normalize]
  rw [hkeeps, hkeeps, h]

theorem normalize_of_not_keepsGas {status : StatusCode} (h : ¬ status.keepsGas) :
    status.normalize = .failure := by
  cases status with
  | success => exact absurd (.inl rfl) h
  | revert => exact absurd (.inr rfl) h
  | _ => rfl

/-- What an execution that has failed returns. -/
theorem makeResult_of_failed {s : ExecutionState σ} (h : ¬ s.status.keepsGas)
    (hout : s.outputSize = 0) : makeResult s = some ⟨s.status, 0, []⟩ := by
  unfold makeResult
  rw [if_neg (not_not.2 hout), if_neg h]

/-- Two results of executions that the callers cannot tell apart. -/
structure ExecutionResult.Same (r r' : ExecutionResult) : Prop where
  status : r.status.normalize = r'.status.normalize
  gasLeft : r.gasLeft = r'.gasLeft
  output : r.output = r'.output

/-- The results made from final states with the same result. -/
theorem SameResult.makeResult {i : Invocation σ} {rules : Rules} {s t : ExecutionState σ}
    (h : SameResult s t) (hs : Halted i rules s) :
    ∃ r r', Ivmone.makeResult s = some r ∧ Ivmone.makeResult t = some r' ∧ r.status = s.status ∧
      r'.status = t.status ∧ r.Same r' ∧ (r.status.keepsGas → s.calls = t.calls) := by
  cases h with
  | failed hfailed hfailed' hout' =>
      have hout : s.outputSize = 0 := by
        by_contra hne
        exact hfailed (hs.output hne).1
      refine ⟨_, _, makeResult_of_failed hfailed hout,
        makeResult_of_failed hfailed' hout', rfl, rfl,
        ⟨?_, rfl, rfl⟩, fun hkeeps => absurd hkeeps hfailed⟩
      rw [normalize_of_not_keepsGas hfailed, normalize_of_not_keepsGas hfailed']
  | kept hstatus hgas hcalls hsize hoffset hmemory =>
      have hmem : s.memory.size = t.memory.size := by
        rw [← Memory.length_bytes s.memory, hmemory, Memory.length_bytes]
      unfold Ivmone.makeResult
      by_cases hout : s.outputSize = 0
      · have hout' : t.outputSize = 0 := hsize.symm.trans hout
        rw [if_neg (not_not.2 hout), if_neg (not_not.2 hout'), ← hstatus, ← hgas]
        exact ⟨_, _, rfl, rfl, rfl, rfl, ⟨rfl, rfl, rfl⟩, fun _ => hcalls⟩
      · have hout' : t.outputSize ≠ 0 := fun h0 => hout (hsize.trans h0)
        have hle := (hs.output hout).2
        have hle' : t.outputOffset + t.outputSize ≤ t.memory.size := by
          rw [← hoffset hout, ← hsize, ← hmem]
          exact hle
        rw [if_pos hout, if_pos hout', Memory.load?_of_le hle, Memory.load?_of_le hle', ← hstatus,
          ← hgas, ← hmemory, ← hoffset hout, ← hsize]
        exact ⟨_, _, rfl, rfl, rfl, rfl, ⟨rfl, rfl, rfl⟩, fun _ => hcalls⟩

/-! ## Agreement -/

section Agreement

variable {i j : Invocation σ}

/-- Baseline ends in a final state, if the host is well behaved. -/
theorem Baseline.exists_halted (h0 : 0 ≤ i.ctx.msg.gas) (h63 : i.ctx.msg.gas < 2 ^ 63)
    (hcalls : i.env.host.CallBounded) (hcopy : i.env.host.CopyFits) :
    ∃ s, Ends (Baseline.step i.env (Baseline.analysisOf i)) (Baseline.start i) (.halted s) ∧
      Halted i fitting s := by
  obtain ⟨c, hends, -⟩ := Baseline.exists_ends_start (premises_metered h0 h63) trivial hcalls
  have hvalid := Baseline.valid_of_reaches (premises_fitting hcopy) hends.1
  cases c with
  | running pos s => exact absurd hends.2 (by simp [Baseline.step])
  | halted s => exact ⟨s, hends, hvalid.resolve_left fun hd => hd.1⟩
  | fault f =>
      rcases hvalid with ⟨-, hnot⟩ | ⟨-, hnot⟩ | hm
      · exact absurd trivial hnot
      · exact absurd trivial hnot
      · exact hm.elim

/-- Both executions end, with the same result, if the initial configurations are related. -/
theorem exists_same_results (hsame : i.Same j) (hsize : i.ctx.code.bytes.length < 2 ^ 30)
    (h0 : 0 ≤ i.ctx.msg.gas) (h63 : i.ctx.msg.gas < 2 ^ 63) (hcalls : i.env.host.CallBounded)
    (hcopy : i.env.host.CopyFits)
    (hclear : stackRequired i.ctx.rev (firstBlock i.ctx.code.bytes) ≤ 0 →
      maxGrowth i.ctx.rev (firstBlock i.ctx.code.bytes) ≤ 1024 →
      baseCost i.ctx.rev (firstBlock i.ctx.code.bytes) ≤ 2 ^ 32 - 1 ∨ i.ctx.msg.gas < 2 ^ 32 - 1)
    (hearly : BlockCostsFit i.ctx.rev i.ctx.code.bytes ∨ i.ctx.msg.gas ≤ 2 ^ 32 - 1) :
    ∃ s t r r', .halted s ∈ Baseline.execute i ∧ .halted t ∈ Advanced.execute j ∧
      makeResult s = some r ∧ makeResult t.toExecutionState = some r' ∧ r.Same r' ∧
      (r.status.keepsGas → s.calls = t.calls) := by
  have hsim : Simulated i j (metered i.ctx.msg.gas h63) :=
    ⟨hsame, premises_metered h0 h63, trivial, hcalls, hsize⟩
  obtain ⟨s, hends, hhalted⟩ := Baseline.exists_halted h0 h63 hcalls hcopy
  obtain ⟨c', hends', hsameEnd⟩ := exists_sameEnd hsim (related_start hsim hclear hearly) hends
  obtain ⟨t, rfl, hresult⟩ := hsameEnd s rfl
  obtain ⟨r, r', hr, hr', -, -, hsameResult, hcalls'⟩ := hresult.makeResult hhalted
  exact ⟨s, t, r, r', ends_iff_mem_eval.1 hends, ends_iff_mem_eval.1 hends', hr, hr', hsameResult,
    hcalls'⟩

/-- The interpreters are observationally equivalent: the same status up to the kind of a failure,
the same gas left and the same output, and the same calls unless they have failed. -/
theorem interpreters_agree (i j : Invocation σ) (hsame : i.Same j)
    (hsize : i.ctx.code.bytes.length < 2 ^ 30) (hfit : BlockCostsFit i.ctx.rev i.ctx.code.bytes)
    (h0 : 0 ≤ i.ctx.msg.gas) (h63 : i.ctx.msg.gas ≤ 2 ^ 63 - 1)
    (hcalls : i.env.host.CallBounded) (hcopy : i.env.host.CopyFits) :
    ∃ s t r r', .halted s ∈ Baseline.execute i ∧ .halted t ∈ Advanced.execute j ∧
      makeResult s = some r ∧ makeResult t.toExecutionState = some r' ∧
      r.status.normalize = r'.status.normalize ∧ r.gasLeft = r'.gasLeft ∧ r.output = r'.output ∧
      (r.status.keepsGas → s.calls = t.calls) := by
  have hfirst : firstBlock i.ctx.code.bytes ∈ blocksOf (decode i.ctx.code.bytes) :=
    List.mem_cons_self
  have hclear : baseCost i.ctx.rev (firstBlock i.ctx.code.bytes) ≤ 2 ^ 32 - 1 := hfit _ hfirst
  obtain ⟨s, t, r, r', hs, ht, hr, hr', hsameResult, hcalls'⟩ :=
    exists_same_results hsame hsize h0 (by omega) hcalls hcopy (fun _ _ => .inl hclear) (.inl hfit)
  exact ⟨s, t, r, r', hs, ht, hr, hr', hsameResult.status, hsameResult.gasLeft, hsameResult.output,
    hcalls'⟩

end Agreement

theorem truncatedPush_same : truncatedPush.Same truncatedPush := ⟨rfl, rfl, rfl, rfl⟩

theorem interpreters_agree_truncatedPush :
    ∃ s t r r', .halted s ∈ Baseline.execute truncatedPush ∧
      .halted t ∈ Advanced.execute truncatedPush ∧ makeResult s = some r ∧
      makeResult t.toExecutionState = some r' ∧
      r.status.normalize = r'.status.normalize ∧ r.gasLeft = r'.gasLeft ∧ r.output = r'.output ∧
      (r.status.keepsGas → s.calls = t.calls) :=
  interpreters_agree truncatedPush truncatedPush truncatedPush_same (by decide)
    (blockCostsFit_of_length _ (by decide)) (by decide) (by decide) emptyHost_callBounded
    emptyHost_copyFits

end Ivmone
