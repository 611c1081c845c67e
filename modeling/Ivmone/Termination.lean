import Ivmone.GasInvariant

/-!
# Termination

Both loops end: every round lowers the gas left, or keeps it and moves forward in the code or in the
instruction table. In Advanced most rounds charge nothing, and the cost of a BEGINBLOCK counts as
spent as soon as the instruction pointer is there.
-/

set_option autoImplicit false

namespace Ivmone

open Lib

variable {σ : Type}

/-- Lower gas, or the same gas and a smaller distance to the end. -/
abbrev Measure : (Nat × Nat) → (Nat × Nat) → Prop := Prod.Lex (· < ·) (· < ·)

theorem wellFounded_measure : WellFounded Measure :=
  WellFounded.prod_lex Nat.lt_wfRel.wf Nat.lt_wfRel.wf

/-! ## Baseline -/

namespace Baseline

/-- The gas left, then the distance to the final STOP. -/
def measure (code : List Byte) : Config (ExecutionState σ) → Nat × Nat
  | .running pos s => (s.gasLeft.toNat, codeEnd code + 1 - pos)
  | _ => (0, 0)

section Step

variable {i : Invocation σ} {rules : Rules} {pos pos' : Nat} {s s' : ExecutionState σ}

/-- A round of the loop that is not the last one. -/
theorem progress_of_step (hp : Premises i rules) (hm : rules.metered)
    (hcalls : i.env.host.CallBounded) (harrives : Arrives i.ctx.code.bytes 0 pos)
    (hs : Running i rules s)
    (h : step i.env (analysisOf i) (.running pos s) = some (.running pos' s')) :
    s'.gasLeft < s.gasLeft ∨ (s'.gasLeft ≤ s.gasLeft ∧ pos < pos') := by
  rcases step_cases harrives hs with ⟨s'', hstep, -⟩ | ⟨op, hfetched, hne, hgas, hsuits, hstep⟩
  · rw [hstep] at h
    cases h
  · obtain ⟨h0, h1⟩ := instr.gasCosts_range hne
    have hsteps := steps_of_step hp harrives hs hfetched hne hgas hsuits
    have hcharged := hs.setGas_gasLeft h0 (by omega) hm
    rw [hstep] at h
    injection h with h
    generalize (invoke (op2fn op) (analysisOf i) s.toContext pos).run i.env
      (s.setGas (s.gasLeft - instr.gasCosts s.rev op)) = r at h hsteps
    cases r with
    | exit status s'' => cases h
    | fault f => cases h
    | ok pos'' s'' =>
        cases h
        have hs1 := hs.setGas h0 (by omega) hgas
        obtain ⟨hnext, hcont⟩ := hsteps.resolve_left fun hd =>
          not_derailed_of_callBounded hcalls (hs1.gas hm) hd.2
        have hpaid := hcont.gas hm
        have hleft : (s.setGas (s.gasLeft - instr.gasCosts s.rev op)).gasLeft =
            s.gasLeft - instr.gasCosts s.rev op := hcharged
        rw [hleft] at hpaid
        rcases hnext with ⟨b, -, rfl⟩ | ⟨hjump, -⟩
        · exact .inr ⟨by omega, by omega⟩
        · -- only a jump can go back, and a jump costs gas
          have hpos : 1 ≤ instr.gasCosts s.rev op := by
            refine instr.gasCosts_pos hne ?_
            rcases hjump with rfl | rfl
            · rfl
            · rfl
          exact .inl (by omega)

/-- The measure of a round that is not the last one. -/
theorem measure_lt (hp : Premises i rules) (hm : rules.metered)
    (hcalls : i.env.host.CallBounded) (harrives : Arrives i.ctx.code.bytes 0 pos)
    (harrives' : Arrives i.ctx.code.bytes 0 pos') (hs : Running i rules s)
    (hs' : Running i rules s')
    (h : step i.env (analysisOf i) (.running pos s) = some (.running pos' s')) :
    Measure (measure i.ctx.code.bytes (.running pos' s'))
      (measure i.ctx.code.bytes (.running pos s)) := by
  have hend := le_codeEnd harrives
  have hend' := le_codeEnd harrives'
  have hgas := hs.gas hm
  have hgas' := hs'.gas hm
  rcases progress_of_step hp hm hcalls harrives hs h with hlt | ⟨hle, hpos⟩
  · exact Prod.Lex.left _ _ (by omega)
  · by_cases heq : s'.gasLeft = s.gasLeft
    · simp only [measure, heq]
      exact Prod.Lex.right _ (by omega)
    · exact Prod.Lex.left _ _ (by omega)

theorem exists_ends_start (hp : Premises i rules) (hm : rules.metered)
    (hcalls : i.env.host.CallBounded) :
    ∃ c, Ends (step i.env (analysisOf i)) (start i) c ∧ Valid i rules c := by
  have h0 : 0 ≤ i.newState.gasLeft := (hp.gas hm).1
  have hstart : Valid i rules (start i) := valid_of_reaches hp Relation.ReflTransGen.refl
  refine exists_ends wellFounded_measure (m := measure i.ctx.code.bytes) ?_ hstart
  intro c c' hc hstep
  have hc' := hc.step hp hstep
  refine ⟨hc', ?_⟩
  cases c with
  | running pos s =>
      cases c' with
      | running pos' s' =>
          obtain ⟨harrives, hs⟩ := hc.resolve_left fun hd =>
            not_derailed_of_callBounded hcalls h0 hd.2
          obtain ⟨harrives', hs'⟩ := hc'.resolve_left fun hd =>
            not_derailed_of_callBounded hcalls h0 hd.2
          exact .inr (measure_lt hp hm hcalls harrives harrives' hs hs' hstep)
      | halted s' => exact .inl rfl
      | fault f => exact .inl rfl
  | halted s => cases hstep
  | fault f => cases hstep

end Step

end Baseline

/-! ## Advanced -/

namespace Advanced

/-- The gas left, less the cost of the BEGINBLOCK that comes next, then the distance to the end of
the table. -/
def measure (analysis : AdvancedCodeAnalysis) : Config (AdvancedExecutionState σ) → Nat × Nat
  | .running ip s =>
      ((s.gasLeft - pendingCost analysis ip + 2 ^ 32).toNat, analysis.instrs.length - ip)
  | _ => (0, 0)

theorem pendingCost_lt (rev : Revision) (code : List Byte) (ip : Nat) :
    pendingCost (analyze rev code) ip < 2 ^ 32 := by
  cases hinstr : (analyze rev code).instrs[ip]? with
  | none => simp [pendingCost, hinstr]
  | some instr =>
      have hentry := entry_of_mem_instrs (List.mem_of_getElem? hinstr)
      cases hentry with
      | beginblock b =>
          have hcost := pendingCost_beginblock hinstr
          omega
      | undefined arg => simp [pendingCost, hinstr]
      | op hop hjumpdest =>
          rw [pendingCost_op hinstr hjumpdest]
          norm_num

section Step

variable {i : Invocation σ} {rules : Rules}

theorem measure_lt {ip ip' : Nat} {s s' : AdvancedExecutionState σ}
    (hinstr : ip < (analysisOf i).instrs.length) (hgas : 0 ≤ s.gasLeft) (hgas' : 0 ≤ s'.gasLeft)
    (h : Progress (analysisOf i) ip s.gasLeft ip' s'.gasLeft) :
    Measure (measure (analysisOf i) (.running ip' s'))
      (measure (analysisOf i) (.running ip s)) := by
  have hpending : pendingCost (analysisOf i) ip < 2 ^ 32 := pendingCost_lt _ _ _
  have hpending' : pendingCost (analysisOf i) ip' < 2 ^ 32 := pendingCost_lt _ _ _
  rcases h with ⟨rfl, hle⟩ | ⟨hzero, hle, hcost⟩
  · by_cases heq : s'.gasLeft - pendingCost (analysisOf i) (ip + 1) =
        s.gasLeft - pendingCost (analysisOf i) ip
    · simp only [measure, heq]
      exact Prod.Lex.right _ (by omega)
    · exact Prod.Lex.left _ _ (by omega)
  · exact Prod.Lex.left _ _ (by omega)

theorem exists_ends_start (hp : Premises i rules) (hm : rules.metered)
    (hfit : BlockCostsFit i.ctx.rev i.ctx.code.bytes)
    (hsize : i.ctx.code.bytes.length < 2 ^ 30) (hcalls : i.env.host.CallBounded) :
    ∃ c, Ends (step i.env (analysisOf i)) (start i) c ∧ BlockValid i rules c := by
  have h0 : 0 ≤ i.newState.gasLeft := (hp.gas hm).1
  refine exists_ends wellFounded_measure (m := measure (analysisOf i)) ?_ (blockValid_start hp)
  intro c c' hc hstep
  refine ⟨blockValid_step hp (fun _ => hfit) hsize hc hstep, ?_⟩
  cases c with
  | running ip s =>
      obtain ⟨hs, hb, hloc⟩ := hc.resolve_left fun hd => not_derailed_of_callBounded hcalls h0 hd.2
      obtain ⟨instr, hinstr, hmeets⟩ := meets_dispatch hp (fun _ => hfit) hsize hs hb hloc
      simp only [step, hinstr, Option.some.injEq] at hstep
      rw [hstep] at hmeets
      cases c' with
      | running ip' s' =>
          obtain ⟨hs', -, -, hprogress⟩ := hmeets.resolve_left fun hd =>
            not_derailed_of_callBounded hcalls h0 hd.2
          have hlt := (List.getElem?_eq_some_iff.1 hinstr).1
          exact .inr (measure_lt hlt (hs.gas hm) (hs'.gas hm) (hprogress hm))
      | halted s' => exact .inl rfl
      | fault f => exact .inl rfl
  | halted s => cases hstep
  | fault f => cases hstep

end Step

end Advanced

/-! ## Exits -/

/-- The rules of an execution whose host may or may not stay within the buffer of `copy_code`. -/
def perhapsFitting (host : Host σ) : Rules := { lenient with fits := host.CopyFits }

theorem premises_perhapsFitting (i : Invocation σ) : Premises i (perhapsFitting i.env.host) :=
  ⟨rfl, trivial, id, False.elim, False.elim⟩

/-- An execution has left its loop. The one thing that is undefined is what happens after
`copy_code` has written beyond its buffer. -/
def Exits {S : Type} (host : Host σ) (c : Config S) : Prop :=
  (∃ s, c = .halted s) ∨ (c = .fault .memory ∧ ¬ host.CopyFits)

theorem exits_of_excused {S : Type} {host : Host σ} {f : Fault}
    (h : Excused (perhapsFitting host) True f) : Exits host (.fault f : Config S) := by
  rcases h with ⟨-, hnot⟩ | ⟨rfl, hnot⟩ | hm
  · exact absurd trivial hnot
  · exact .inr ⟨rfl, hnot⟩
  · exact hm.elim

/-- Both loops reach an exit after finitely many rounds. -/
theorem loops_terminate (i : Invocation σ) (h0 : 0 ≤ i.ctx.msg.gas)
    (h63 : i.ctx.msg.gas ≤ 2 ^ 63 - 1) (hcalls : i.env.host.CallBounded) :
    (∃ c ∈ Baseline.execute i, Exits i.env.host c) ∧
    (i.ctx.code.bytes.length < 2 ^ 30 →
      Advanced.BlockCostsFit i.ctx.rev i.ctx.code.bytes →
      ∃ c ∈ Advanced.execute i, Exits i.env.host c) := by
  have hlt : i.ctx.msg.gas < 2 ^ 63 := by omega
  have hp := premises_metered h0 hlt
  refine ⟨?_, fun hsize hfit => ?_⟩
  · obtain ⟨c, hends, -⟩ := Baseline.exists_ends_start hp trivial hcalls
    refine ⟨c, ends_iff_mem_eval.1 hends, ?_⟩
    have hvalid := Baseline.valid_of_reaches (premises_perhapsFitting i) hends.1
    cases c with
    | running pos s => exact absurd hends.2 (by simp [Baseline.step])
    | halted s => exact .inl ⟨s, rfl⟩
    | fault f => exact exits_of_excused hvalid
  · obtain ⟨c, hends, -⟩ := Advanced.exists_ends_start hp trivial hfit hsize hcalls
    refine ⟨c, ends_iff_mem_eval.1 hends, ?_⟩
    have hvalid := Advanced.blockValid_of_reaches (premises_perhapsFitting i) False.elim
        hsize hends.1
    cases c with
    | running ip s => exact absurd hends.2 (by simp [Advanced.step])
    | halted s => exact .inl ⟨s, rfl⟩
    | fault f => exact exits_of_excused hvalid

theorem loops_terminate_truncatedPush :
    (∃ c ∈ Baseline.execute truncatedPush, Exits truncatedPush.env.host c) ∧
      ∃ c ∈ Advanced.execute truncatedPush, Exits truncatedPush.env.host c := by
  have h := loops_terminate truncatedPush (by decide) (by decide) emptyHost_callBounded
  exact ⟨h.1, h.2 (by decide) (Advanced.blockCostsFit_of_length _ (by decide))⟩

end Ivmone
