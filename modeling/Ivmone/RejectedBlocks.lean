import Ivmone.AdvancedRuns
import Ivmone.BaselineSafety
import Ivmone.Lib.Simulation

/-!
# Blocks that are rejected up front

Advanced rejects a block at its BEGINBLOCK if the gas or the stack does not meet the requirements of
the whole block. Baseline executes such a block up to the instruction whose requirements fail, or
fails before. Either way the block is never left, as its last instruction is not executed.
-/

set_option autoImplicit false

namespace Ivmone

open Lib Advanced

variable {σ : Type}

/-- An execution that has failed. -/
def Config.Fails : Config (ExecutionState σ) → Prop
  | .running _ _ => False
  | .halted s => ¬ s.status.keepsGas
  | .fault _ => True

/-- The gas or the stack does not meet the requirements of the given instructions. -/
def Short (rev : Revision) (ds : List Decoded) (s : ExecutionState σ) : Prop :=
  s.gasLeft < baseCost rev ds ∨
    ¬ (stackRequired rev ds ≤ s.stack.height ∧ s.stack.height + maxGrowth rev ds ≤ 1024)

/-- No requirements are always met. -/
theorem not_short_nil {rev : Revision} {s : ExecutionState σ} (hgas : 0 ≤ s.gasLeft) :
    ¬ Short rev [] s := by
  have hheight := s.stack.height_le
  rintro (hlt | hstack)
  · rw [baseCost] at hlt
    omega
  · apply hstack
    rw [stackRequired, maxGrowth]
    omega

/-- If the first instruction has what it requires, the others lack something after it. -/
theorem Short.tail {rev : Revision} {d : Decoded} {ds : List Decoded} {s s' : ExecutionState σ}
    (h : Short rev (d :: ds) s) (hrequired : requiredBy rev d ≤ s.stack.height)
    (hgas : s'.gasLeft ≤ s.gasLeft - costOf rev d)
    (hheight : (s'.stack.height : Int) = s.stack.height + changeOf rev d) : Short rev ds s' := by
  have hlimit := s.stack.height_le
  rcases h with hlt | hstack
  · left
    rw [baseCost] at hlt
    omega
  · right
    intro hmet
    apply hstack
    rw [stackRequired, maxGrowth]
    omega

theorem Advanced.IsBlock.suffix {pre ds : List Decoded} {bs : List (List Decoded)}
    (h : IsBlock (pre ++ ds) bs) (hne : ds ≠ []) : IsBlock ds bs := by
  induction pre with
  | nil => exact h
  | cons d pre ih =>
      rcases IsBlock.tail h with hnil | ⟨-, -, htail⟩
      · exact absurd (List.append_eq_nil_iff.1 hnil).2 hne
      · exact ih htail

/-- An instruction that does not end its block goes on to the next one, or it is INVALID. -/
theorem goes_of_not_endsBlock {b : Byte} {op : Opcode} (hop : Opcode.ofByte b = some op)
    (h : endsBlock b = false) :
    op ≠ .jump ∧ op ≠ .jumpi ∧
      (op = .invalid ∨ ∀ f, Baseline.op2fn op ≠ .terminating f) := by
  unfold endsBlock at h
  rw [hop] at h
  cases op with
  | stop | jump | jumpi | return_ | revert | selfdestruct => cases h
  | invalid => exact ⟨by decide, by decide, .inl rfl⟩
  | push n => exact ⟨fun h => (by cases h), fun h => (by cases h), .inr fun f h => by cases h⟩
  | dup n => exact ⟨fun h => (by cases h), fun h => (by cases h), .inr fun f h => by cases h⟩
  | swap n => exact ⟨fun h => (by cases h), fun h => (by cases h), .inr fun f h => by cases h⟩
  | log n => exact ⟨fun h => (by cases h), fun h => (by cases h), .inr fun f h => by cases h⟩
  | _ => exact ⟨by decide, by decide, .inr fun f h => by cases h⟩

namespace Baseline

section Run

variable {i : Invocation σ} {rules : Rules} {pos : Nat} {s : ExecutionState σ}
  {c : Config (ExecutionState σ)}

/-- A run that has left its loop stays where it is. -/
theorem eq_of_ends {env : Env σ} {analysis : CodeAnalysis} {c c' : Config (ExecutionState σ)}
    (h : Ends (step env analysis) c c') (hnone : step env analysis c = none) : c' = c := by
  rcases Relation.ReflTransGen.cases_head h.1 with heq | ⟨x, hx, -⟩
  · exact heq.symm
  · have hsome : step env analysis c = some x := hx
    rw [hnone] at hsome
    cases hsome

theorem eq_of_ends_halted {env : Env σ} {analysis : CodeAnalysis}
    (h : Ends (step env analysis) (.halted s) c) : c = .halted s := eq_of_ends h rfl

theorem fails_of_ends {env : Env σ} {analysis : CodeAnalysis} {c c' : Config (ExecutionState σ)}
    (h : Ends (step env analysis) c c') (hc : c.Fails) : c'.Fails := by
  have hnone : step env analysis c = none := by
    cases c with
    | running pos s => exact hc.elim
    | halted s => rfl
    | fault f => rfl
  rw [eq_of_ends h hnone]
  exact hc

/-- The round of the loop at an instruction of the code. -/
theorem step_instruction (hp : Premises i rules) (hm : rules.metered)
    (hcalls : i.env.host.CallBounded) (harrives : Arrives i.ctx.code.bytes 0 pos)
    (hs : Running i rules s) {d : Decoded} {ds : List Decoded}
    (hdecode : decodeFrom i.ctx.code.bytes pos = d :: ds) (hends : endsBlock d.opcode = false) :
    ∃ c, step i.env (analysisOf i) (.running pos s) = some c ∧
      (c.Fails ∨ ∃ pos' s', c = .running pos' s' ∧ Arrives i.ctx.code.bytes 0 pos' ∧
        Running i rules s' ∧ decodeFrom i.ctx.code.bytes pos' = ds ∧
        requiredBy i.ctx.rev d ≤ s.stack.height ∧
        s'.gasLeft ≤ s.gasLeft - costOf i.ctx.rev d ∧
        (s'.stack.height : Int) = s.stack.height + changeOf i.ctx.rev d) := by
  obtain ⟨b, hb, rfl, rfl⟩ := decodeFrom_eq_cons hdecode
  have hctx : s.toContext = i.ctx := hs.follows.context
  have hrev : s.rev = i.ctx.rev := by rw [hctx]
  rcases step_cases harrives hs with ⟨s', hstep, hstatus, -⟩ |
    ⟨op, hfetched, hne, hgas, hsuits, hstep⟩
  · exact ⟨_, hstep, .inl hstatus⟩
  · refine ⟨_, hstep, ?_⟩
    have hop : Opcode.ofByte b = some op := (fetched_iff hb).1 hfetched
    obtain ⟨hjump, hjumpi, hinvalid | hgoes⟩ := goes_of_not_endsBlock hop hends
    · -- INVALID does not end a block, but it fails
      subst hinvalid
      left
      show ¬ StatusCode.keepsGas .invalidInstruction
      decide
    · obtain ⟨h0, h1⟩ := instr.gasCosts_range hne
      have hs1 := hs.setGas h0 (by omega) hgas
      have hleft := hs.setGas_gasLeft h0 (by omega) hm
      have hnot : ∀ s', ¬ (rules.metered ∧
          Derailed i.env (s.setGas (s.gasLeft - instr.gasCosts s.rev op)) s') := by
        rintro s' ⟨-, hd⟩
        exact not_derailed_of_callBounded hcalls (hs1.gas hm) hd
      have hrun := run_goes hp.limit hp.fits hs1.startable hsuits
        (p := invoke (op2fn op) (analysisOf i) s.toContext pos) fun a _ hready =>
          sat_invoke i.ctx.code.size_lt (hs1.static hp) (fun _ => hp.reads) harrives hfetched hgoes
            hready
      generalize (invoke (op2fn op) (analysisOf i) s.toContext pos).run i.env
        (s.setGas (s.gasLeft - instr.gasCosts s.rev op)) = r at hrun
      cases r with
      | fault f => exact .inl trivial
      | exit status s' => exact .inl ((hrun.resolve_left (hnot s')).status)
      | ok pos' s' =>
          right
          obtain ⟨hnext, hcont⟩ := hrun.resolve_left (hnot s')
          obtain ⟨hcost, hreq, hchange⟩ :=
            requirements_of_ofByte s.rev (d := instructionAt i.ctx.code.bytes pos b) hop hne
          have hpaid := (hcont.gas hm).2
          have hheight := hcont.height trivial
          refine ⟨pos', s', rfl, hnext.arrives harrives, hs1.continues hcont, ?_, ?_, ?_, ?_⟩
          · rcases hnext with ⟨b', hb', rfl⟩ | ⟨hor, -⟩
            · rw [hb] at hb'
              injection hb' with hb'
              rw [hb']
            · rcases hor with h | h
              · exact absurd h hjump
              · exact absurd h hjumpi
          · rw [← hrev, hreq]
            exact (hsuits trivial).1
          · rw [← hrev, hcost]
            exact le_of_le_of_eq hpaid hleft
          · rw [← hrev, hchange]
            exact hheight

/-- The last instruction of a block is not executed if it lacks something. -/
theorem fails_of_short_last (hm : rules.metered) {d : Decoded} {more : List Decoded}
    (hdecode : decodeFrom i.ctx.code.bytes pos = d :: more)
    (harrives : Arrives i.ctx.code.bytes 0 pos) (hs : Running i rules s)
    (hshort : Short i.ctx.rev [d] s)
    (hends : Ends (step i.env (analysisOf i)) (.running pos s) c) : c.Fails := by
  obtain ⟨b, hb, rfl, -⟩ := decodeFrom_eq_cons hdecode
  have hctx : s.toContext = i.ctx := hs.follows.context
  have hrev : s.rev = i.ctx.rev := by rw [hctx]
  rcases step_cases harrives hs with ⟨s', hstep, hstatus, -⟩ |
    ⟨op, hfetched, hne, hgas, hsuits, -⟩
  · exact fails_of_ends (hends.tail hstep) hstatus
  · -- an instruction that passes its own test has what it needs, so it was not short
    exfalso
    have hop : Opcode.ofByte b = some op := (fetched_iff hb).1 hfetched
    obtain ⟨h0, h1⟩ := instr.gasCosts_range hne
    obtain ⟨hcost, hreq, hchange⟩ :=
      requirements_of_ofByte s.rev (d := instructionAt i.ctx.code.bytes pos b) hop hne
    have hrange := stack_range s.rev (instructionAt i.ctx.code.bytes pos b)
    have hlimit := s.stack.height_le
    obtain ⟨hrequired, hroom⟩ := hsuits trivial
    rw [hs.setGas_gasLeft h0 (by omega) hm] at hgas
    rw [← hrev] at hshort
    rcases hshort with hlt | hstack
    · simp only [baseCost] at hlt
      omega
    · apply hstack
      simp only [stackRequired, maxGrowth]
      omega

/-- The run of a block that lacks something fails. -/
theorem fails_of_short (hp : Premises i rules) (hm : rules.metered)
    (hcalls : i.env.host.CallBounded) {ds more : List Decoded} {bs : List (List Decoded)}
    (hblock : IsBlock ds bs) (hdecode : decodeFrom i.ctx.code.bytes pos = ds ++ more)
    (harrives : Arrives i.ctx.code.bytes 0 pos) (hs : Running i rules s)
    (hshort : Short i.ctx.rev ds s) (hends : Ends (step i.env (analysisOf i)) (.running pos s) c) :
    c.Fails := by
  -- The induction is on the instructions that are left: what is lacking is still lacking after one.
  induction ds generalizing pos s with
  | nil => exact absurd hshort (not_short_nil (hs.gas hm))
  | cons d ds ih =>
      rcases IsBlock.tail hblock with rfl | ⟨hnot, -, htail⟩
      · exact fails_of_short_last hm hdecode harrives hs hshort hends
      · obtain ⟨c', hstep, hc'⟩ := step_instruction hp hm hcalls harrives hs hdecode hnot
        have hrest := hends.tail hstep
        rcases hc' with hfails | ⟨pos', s', rfl, harrives', hs', hdecode', hrequired, hgas, hheight⟩
        · exact fails_of_ends hrest hfails
        · exact ih htail hdecode' harrives' hs' (hshort.tail hrequired hgas hheight) hrest

end Run

end Baseline

end Ivmone
