import Ivmone.InstructionPairs

/-!
# Advanced simulates Baseline

Where Baseline and Advanced are, when they execute the same code. The offset of Baseline and the
index of Advanced are both at the start of a block, both at the same instruction of a block, or both
at the final STOP. A BEGINBLOCK is a step of Advanced alone, and a JUMPDEST one of Baseline alone;
all other instructions are steps of both. Inside a block the gas left differs by the base cost of
the rest of the block.
-/

set_option autoImplicit false

namespace Ivmone

open Lib Advanced

variable {σ : Type}

/-! ## Positions -/

/-- From an instruction of the code on, the decoding is the rest of the instructions. -/
theorem decodeFrom_of_append {code : List Byte} {start : Nat} {pre : List Decoded} {x : Decoded}
    {rest : List Decoded} (h : decodeFrom code start = pre ++ x :: rest) :
    Arrives code start x.offset ∧ decodeFrom code x.offset = x :: rest := by
  induction pre generalizing start with
  | nil =>
      obtain ⟨b, hb, hx, hrest⟩ := decodeFrom_eq_cons h
      have hoffset : x.offset = start := by
        rw [hx]
        rfl
      rw [hoffset]
      exact ⟨.refl, h⟩
  | cons d pre ih =>
      obtain ⟨b, hb, -, hrest⟩ := decodeFrom_eq_cons h
      obtain ⟨harrives, hdecode⟩ := ih hrest.symm
      exact ⟨harrives.head hb, hdecode⟩

/-- The cost of no block was clamped, or a block whose cost was clamped is not affordable. -/
def Unclamped (rev : Revision) (code : List Byte) (gas : Int) : Prop :=
  BlockCostsFit rev code ∨ gas < 2 ^ 32 - 1

/-- Nothing has been executed yet, with gas that may just be enough for a clamped cost. -/
def Early (s : ExecutionState σ) : Prop := s.stack.height = 0 ∧ s.gasLeft ≤ 2 ^ 32 - 1

theorem Unclamped.mono {rev : Revision} {code : List Byte} {gas gas' : Int}
    (h : Unclamped rev code gas) (hle : gas' ≤ gas) : Unclamped rev code gas' := by
  rcases h with hfit | hlt
  · exact .inl hfit
  · exact .inr (lt_of_le_of_lt hle hlt)

/-- Both interpreters are at the instruction `d` of a block, which Advanced has charged for. -/
structure AtInstruction (rev : Revision) (code : List Byte) (closed : List (List Decoded))
    (done : List Decoded) (d : Decoded) (rest : List Decoded)
      (post : List (List Decoded)) (pos : Nat)
    (s : ExecutionState σ) (t : AdvancedExecutionState σ) : Prop where
  split : blocksOf (decode code) = closed ++ (done ++ d :: rest) :: post
  decode : decodeFrom code pos = d :: (rest ++ post.flatten)
  cost : (t.currentBlockCost : Int) = baseCost rev (done ++ d :: rest)
  agree : Agree (baseCost rev (d :: rest)) [] s t.toExecutionState
  required : stackRequired rev (d :: rest) ≤ s.stack.height
  growth : s.stack.height + maxGrowth rev (d :: rest) ≤ 1024
  early : Unclamped rev code s.gasLeft ∨ Early s

/-- The offset and the state of Baseline, and the index and the state of Advanced. -/
inductive Corresponds (rev : Revision) (code : List Byte) :
    Nat → ExecutionState σ → Nat → AdvancedExecutionState σ → Prop
  | atBlock {closed : List (List Decoded)} {b : List Decoded} {post : List (List Decoded)}
      {pos : Nat} {s : ExecutionState σ} {t : AdvancedExecutionState σ}
      (hsplit : blocksOf (decode code) = closed ++ b :: post)
      (hdecode : decodeFrom code pos = b ++ post.flatten)
      (hagree : Agree 0 [] s t.toExecutionState)
      (hclear : stackRequired rev b ≤ s.stack.height → s.stack.height + maxGrowth rev b ≤ 1024 →
        baseCost rev b ≤ 2 ^ 32 - 1 ∨ s.gasLeft < 2 ^ 32 - 1)
      (hearly : Unclamped rev code s.gasLeft ∨ Early s) :
      Corresponds rev code pos s (tableOf rev 0 closed).length t
  | inBlock {closed : List (List Decoded)} {done : List Decoded} {d : Decoded} {rest : List Decoded}
      {post : List (List Decoded)} {pos : Nat} {s : ExecutionState σ} {t : AdvancedExecutionState σ}
      (h : AtInstruction rev code closed done d rest post pos s t) :
      Corresponds rev code pos s
        ((tableOf rev 0 closed).length + 1 + (entriesOf rev 0 0 done).length) t
  | atEnd {pos : Nat} {s : ExecutionState σ} {t : AdvancedExecutionState σ}
      (hend : code.length ≤ pos) (hgas : s.gasLeft = t.gasLeft) (hcalls : s.calls = t.calls)
      (hmemory : s.memory.bytes = t.memory.bytes) (hout : t.outputSize = 0) :
      Corresponds rev code pos s (tableOf rev 0 (blocksOf (decode code))).length t

theorem AtInstruction.solvent {rev : Revision} {code : List Byte} {closed : List (List Decoded)}
    {done rest : List Decoded} {d : Decoded} {post : List (List Decoded)} {pos : Nat}
    {s : ExecutionState σ} {t : AdvancedExecutionState σ}
    (h : AtInstruction rev code closed done d rest post pos s t) (hgas : 0 ≤ s.gasLeft) :
    0 ≤ t.gasLeft := by
  by_cases hzero : baseCost rev (d :: rest) = 0
  · have hsame := h.agree.gas
    omega
  · exact h.agree.solvent hzero

section Positions

variable {rev : Revision} {code : List Byte} {pos : Nat} {s : ExecutionState σ}
  {t : AdvancedExecutionState σ} {closed : List (List Decoded)} {done rest : List Decoded}
  {post : List (List Decoded)}

theorem clear_of_unclamped (h : Unclamped rev code s.gasLeft) {b : List Decoded}
    (hb : b ∈ blocksOf (decode code)) :
    baseCost rev b ≤ 2 ^ 32 - 1 ∨ s.gasLeft < 2 ^ 32 - 1 := by
  rcases h with hfit | hlt
  · exact .inl (hfit b hb)
  · exact .inr hlt

/-- The index after the last entry of a block is that of the next block, or of the final STOP. -/
theorem length_tableOf_done :
    (tableOf rev 0 closed).length + 1 + (entriesOf rev 0 0 done).length =
      (tableOf rev 0 (closed ++ [done])).length := by
  rw [tableOf_append_singleton, List.length_append, List.length_cons,
    length_entriesOf 0 0 0 (pushValuesOf closed.flatten).length]
  omega

/-- The position after a part of a block. -/
theorem Corresponds.of_split
    (hsplit : blocksOf (decode code) = closed ++ (done ++ rest) :: post)
    (hdecode : decodeFrom code pos = rest ++ post.flatten)
    (hcost : (t.currentBlockCost : Int) = baseCost rev (done ++ rest))
    (hagree : Agree (baseCost rev rest) [] s t.toExecutionState)
    (hrequired : stackRequired rev rest ≤ s.stack.height)
    (hgrowth : s.stack.height + maxGrowth rev rest ≤ 1024) (hout : t.outputSize = 0)
    (hlast : rest = [] → post ≠ [] → Unclamped rev code s.gasLeft)
    (hearly : Unclamped rev code s.gasLeft ∨ Early s) :
    Corresponds rev code pos s
      ((tableOf rev 0 closed).length + 1 + (entriesOf rev 0 0 done).length) t := by
  cases rest with
  | cons d rest => exact .inBlock ⟨hsplit, hdecode, hcost, hagree, hrequired, hgrowth, hearly⟩
  | nil =>
      -- nothing is left of the block: the two stand before the next one, or past the code
      rw [List.append_nil] at hsplit
      rw [length_tableOf_done]
      cases post with
      | nil =>
          rw [← hsplit]
          have hend : code.length ≤ pos := le_of_decodeFrom_eq_nil hdecode
          exact .atEnd hend (hagree.gas.trans (Int.add_zero _)) hagree.calls hagree.memory hout
      | cons b post =>
          have hsplit' : blocksOf (decode code) = closed ++ [done] ++ b :: post := by
            rw [hsplit, List.append_assoc]
            rfl
          have hunclamped := hlast rfl (List.cons_ne_nil _ _)
          have hmem : b ∈ blocksOf (decode code) := by
            rw [hsplit']
            simp
          exact .atBlock hsplit' hdecode hagree (fun _ _ => clear_of_unclamped hunclamped hmem)
            (.inl hunclamped)

end Positions

/-! ## Runs -/

/-- Both interpreters are running, at corresponding positions. -/
inductive Related (i : Invocation σ) (rules : Rules) :
    Config (ExecutionState σ) → Config (AdvancedExecutionState σ) → Prop
  | running {pos ip : Nat} {s : ExecutionState σ} {t : AdvancedExecutionState σ}
      (hs : Running i rules s) (harrives : Arrives i.ctx.code.bytes 0 pos)
      (h : Corresponds i.ctx.rev i.ctx.code.bytes pos s ip t) :
      Related i rules (.running pos s) (.running ip t)

/-- The final configurations: Advanced has the same result as Baseline. -/
def SameEnd (c : Config (ExecutionState σ)) (c' : Config (AdvancedExecutionState σ)) : Prop :=
  ∀ s, c = .halted s → ∃ t, c' = .halted t ∧ SameResult s t.toExecutionState

/-- The distance to the end of the table. -/
def distance (analysis : AdvancedCodeAnalysis) : Config (AdvancedExecutionState σ) → Nat
  | .running ip _ => analysis.instrs.length - ip
  | _ => 0

/-- What the simulation is about: two invocations with the same arguments, on a host that returns no
more gas than it is given. -/
structure Simulated (i j : Invocation σ) (rules : Rules) : Prop where
  same : i.Same j
  premises : Premises i rules
  metered : rules.metered
  calls : i.env.host.CallBounded
  size : i.ctx.code.bytes.length < 2 ^ 30

/-- The two step functions in related configurations. -/
abbrev StepsTogether (i j : Invocation σ) (rules : Rules) :
    Config (ExecutionState σ) → Config (AdvancedExecutionState σ) → Prop :=
  Simulates (Baseline.step i.env (Baseline.analysisOf i)) (Advanced.step j.env (analysisOf j))
    (distance (analysisOf j)) (Related i rules) SameEnd

section Runs

variable {i j : Invocation σ} {rules : Rules} {pos ip : Nat} {s : ExecutionState σ}
  {t : AdvancedExecutionState σ}

theorem Simulated.analysis (h : Simulated i j rules) :
    analysisOf j = analyze i.ctx.rev i.ctx.code.bytes := by
  unfold analysisOf
  rw [h.same.ctx]

theorem Simulated.env (h : Simulated i j rules) : i.env.Same j.env :=
  ⟨h.same.envHost, h.same.keccak256⟩

/-- A round of Advanced at an entry of the table. -/
theorem Simulated.step_eq (h : Simulated i j rules) {instr : Instruction}
    (hinstr : (analyze i.ctx.rev i.ctx.code.bytes).instrs[ip]? = some instr) :
    Advanced.step j.env (analysisOf j) (.running ip t) =
      some (dispatch j.env (analysisOf j) instr ip t) := by
  rw [← h.analysis] at hinstr
  simp only [Advanced.step, hinstr]

/-- Advanced has left its loop. -/
theorem ends_of_step_halted {env : Env σ} {analysis : AdvancedCodeAnalysis}
    {c : Config (AdvancedExecutionState σ)} {t : AdvancedExecutionState σ}
    (h : Advanced.step env analysis c = some (.halted t)) :
    Ends (Advanced.step env analysis) c (.halted t) := .head h (.refl rfl)

/-- Both executions have failed. -/
theorem sameEnd_of_fails {c : Config (ExecutionState σ)} {t : AdvancedExecutionState σ}
    (hc : c.Fails) (ht : ¬ t.status.keepsGas) (hout : t.outputSize = 0) :
    SameEnd c (.halted t) := by
  rintro s rfl
  exact ⟨t, rfl, .failed hc ht hout⟩

/-- A round of Baseline in which the requirements of the instruction are met. -/
theorem baseline_step_of_suits (harrives : Arrives i.ctx.code.bytes 0 pos) {op : Opcode}
    (hfetched : Baseline.Fetched i.ctx.code.bytes pos op)
    (hne : instr.gasCosts s.rev op ≠ instr.undefined)
    (hgas : 0 ≤ toInt64 (s.gasLeft - instr.gasCosts s.rev op)) (hsuits : Suits True op s) :
    Baseline.step i.env (Baseline.analysisOf i) (.running pos s) =
      some (.ofResult ((Baseline.invoke (Baseline.op2fn op) (Baseline.analysisOf i) s.toContext
        pos).run i.env (s.setGas (s.gasLeft - instr.gasCosts s.rev op)))) := by
  have hfetch : (Baseline.analysisOf i).paddedCode[pos]? = _ :=
    Baseline.getElem?_paddedCode i.uninitCode i.ctx.code.bytes harrives
  simp only [Baseline.step, hfetch, Baseline.checkRequirements_of_suits hfetched hne hgas hsuits,
    Baseline.dispatch]
  rw [hfetched]
  rfl

/-- At the final STOP. -/
theorem simulates_atEnd (h : Simulated i j rules) (hs : Running i rules s)
    (harrives : Arrives i.ctx.code.bytes 0 pos) (hend : i.ctx.code.bytes.length ≤ pos)
    (hgas : s.gasLeft = t.gasLeft) (hcalls : s.calls = t.calls)
    (hmemory : s.memory.bytes = t.memory.bytes) (hout : t.outputSize = 0) :
    StepsTogether i j rules (.running pos s)
      (.running (tableOf i.ctx.rev 0 (blocksOf (decode i.ctx.code.bytes))).length t) := by
  -- one runs into the padding, the other into the entry written after the last block
  have hfetched : Baseline.Fetched i.ctx.code.bytes pos .stop := by
    unfold Baseline.Fetched
    rw [List.getElem?_eq_none hend]
    rfl
  have hfree : ∀ rev, instr.gasCosts rev .stop = 0 := by
    intro rev
    cases rev <;> rfl
  have hleft : toInt64 (s.gasLeft - 0) = s.gasLeft := by
    rw [hs.setGas_gasLeft le_rfl (by norm_num) h.metered, Int.sub_zero]
  have hsuits : Suits True .stop s := by
    intro _
    have hheight := s.stack.height_le
    exact ⟨Int.natCast_nonneg _, by simp only [instr.traits]; omega⟩
  have hstep := baseline_step_of_suits harrives hfetched (by rw [hfree]; decide)
    (by rw [hfree, hleft]; exact hs.gas h.metered) hsuits
  have hstep' : Advanced.step j.env (analysisOf j) (.running _ t) =
      some (.halted ⟨{ t.toExecutionState with status := .success }, t.currentBlockCost⟩) :=
    h.step_eq getElem?_instrs_end
  apply Simulates.settled
  intro c hc
  refine ⟨_, ends_of_step_halted hstep', ?_⟩
  rintro s' rfl
  refine ⟨_, rfl, ?_⟩
  have hhalted := Baseline.eq_of_ends_halted (hc.tail hstep)
  injection hhalted with hhalted
  rw [hhalted]
  have hgas' : toInt64 (s.gasLeft - instr.gasCosts s.rev .stop) = t.gasLeft := by
    rw [hfree, hleft, hgas]
  exact .kept rfl hgas' hcalls (hs.outputSize.trans hout.symm)
    (fun hne => absurd hs.outputSize hne) hmemory

/-- Advanced has paid for a whole block, and Baseline for nothing of it yet. -/
theorem Agree.payBlock {rev : Revision} {b : List Decoded} {cost : Nat} {t : ExecutionState σ}
    (hagree : Agree 0 [] s t) (hexact : (cost : Int) = baseCost rev b)
    (hleft : toInt64 (t.gasLeft - cost) = t.gasLeft - cost) (hpaid : 0 ≤ t.gasLeft - cost) :
    Agree (baseCost rev b) [] s (t.setGas (t.gasLeft - cost)) := by
  have hgas := hagree.gas
  refine { hagree with gas := ?_, solvent := fun _ => ?_ }
  · show s.gasLeft = toInt64 (t.gasLeft - cost) + _
    rw [hleft]
    omega
  · show 0 ≤ toInt64 (t.gasLeft - cost)
    rw [hleft]
    exact hpaid

/-- At the BEGINBLOCK of a block. -/
theorem simulates_atBlock (h : Simulated i j rules) (hs : Running i rules s)
    (harrives : Arrives i.ctx.code.bytes 0 pos) {closed : List (List Decoded)} {b : List Decoded}
    {post : List (List Decoded)}
    (hsplit : blocksOf (decode i.ctx.code.bytes) = closed ++ b :: post)
    (hdecode : decodeFrom i.ctx.code.bytes pos = b ++ post.flatten)
    (hagree : Agree 0 [] s t.toExecutionState)
    (hclear : stackRequired i.ctx.rev b ≤ s.stack.height →
      s.stack.height + maxGrowth i.ctx.rev b ≤ 1024 →
      baseCost i.ctx.rev b ≤ 2 ^ 32 - 1 ∨ s.gasLeft < 2 ^ 32 - 1)
    (hearly : Unclamped i.ctx.rev i.ctx.code.bytes s.gasLeft ∨ Early s) :
    StepsTogether i j rules (.running pos s)
      (.running (tableOf i.ctx.rev 0 closed).length t) := by
  have hgas : s.gasLeft = t.gasLeft := hagree.gas.trans (Int.add_zero _)
  have hheight : s.stack.height = t.stack.height := hagree.height
  have hout : t.outputSize = 0 := hagree.outputSize.symm.trans hs.outputSize
  have hlimit := t.stack.height_le
  have hblock := isBlock_of_append hsplit
  have hbase := baseCost_nonneg i.ctx.rev b
  have hcost := close_gasCost i.ctx.rev 0 b
  have hcheck := stack_check_iff i.ctx.rev 0 (length_lt_of_split h.size hsplit) hlimit
  have hinstr := @getElem?_instrs_of_append i.ctx.rev _ _ _ _ hsplit
  have hstep := @Simulated.step_eq σ i j rules _ t h _ hinstr
  have hleft : toInt64 (t.gasLeft - (summarize i.ctx.rev 0 b).close.gasCost) =
      t.gasLeft - (summarize i.ctx.rev 0 b).close.gasCost := by
    rw [← hgas]
    exact hs.setGas_gasLeft (by omega) (by omega) h.metered
  rcases opxBeginblock_cases (summarize i.ctx.rev 0 b).close (tableOf i.ctx.rev 0 closed).length t
    with ⟨status, hstatus, heq, hnot⟩ | ⟨heq, hpaid, hreq, hgrowth⟩
  · -- The block is rejected, so Baseline fails in it.
    have hshort : Short i.ctx.rev b s := by
      by_contra hmet
      unfold Short at hmet
      push Not at hmet
      apply hnot
      rw [hcheck, hleft, hcost, ← hgas, ← hheight]
      exact ⟨by omega, hmet.2⟩
    have hhalted : Advanced.step j.env (analysisOf j) (.running _ t) = _ :=
      hstep.trans (congrArg some heq)
    apply Simulates.settled
    intro c hc
    refine ⟨_, ends_of_step_halted hhalted, ?_⟩
    exact sameEnd_of_fails (Baseline.fails_of_short h.premises h.metered h.calls hblock hdecode
      harrives hs hshort hc) hstatus hout
  · -- The block is accepted, and its cost was not clamped.
    obtain ⟨hreq', hgrowth'⟩ := hcheck.1 ⟨hreq, hgrowth⟩
    rw [← hheight] at hreq' hgrowth'
    rw [hleft] at hpaid
    have hexact : ((summarize i.ctx.rev 0 b).close.gasCost : Int) = baseCost i.ctx.rev b := by
      rcases hclear hreq' hgrowth' with hle | hlt
      · omega
      · omega
    have hpaid' := hagree.payBlock hexact hleft hpaid
    have hlast : b = [] → post ≠ [] → Unclamped i.ctx.rev i.ctx.code.bytes s.gasLeft := by
      rintro rfl hne
      cases hblock
      exact absurd rfl hne
    have hsplit' : blocksOf (decode i.ctx.code.bytes) = closed ++ ([] ++ b) :: post := hsplit
    apply Simulates.right (hstep.trans (congrArg some heq))
    · exact .running hs harrives (.of_split hsplit' hdecode hexact hpaid' hreq' hgrowth' hout hlast
        hearly)
    · rw [← h.analysis] at hinstr
      have hlt := (List.getElem?_eq_some_iff.1 hinstr).1
      show (analysisOf j).instrs.length - _ < (analysisOf j).instrs.length - _
      omega

/-- What the requirements of the rest of a block say about its first instruction. -/
theorem requirements_tail {rev : Revision} {d : Decoded} {rest : List Decoded}
    {height height' : Nat} (hrequired : stackRequired rev (d :: rest) ≤ height)
    (hgrowth : height + maxGrowth rev (d :: rest) ≤ 1024)
    (hheight : (height' : Int) = height + changeOf rev d) :
    stackRequired rev rest ≤ height' ∧ height' + maxGrowth rev rest ≤ 1024 := by
  rw [stackRequired] at hrequired
  rw [maxGrowth] at hgrowth
  omega

/-- The base cost of the first instruction is charged in Baseline too. -/
theorem Agree.charge {rev : Revision} {d : Decoded} {rest : List Decoded} {t : ExecutionState σ}
    (hagree : Agree (baseCost rev (d :: rest)) [] s t) (ht : 0 ≤ t.gasLeft) {gas : Int}
    (hgas : toInt64 gas = s.gasLeft - costOf rev d) :
    Agree (baseCost rev rest) [] (s.setGas gas) t := by
  have hbefore := hagree.gas
  rw [baseCost] at hbefore
  refine { hagree with gas := ?_, solvent := fun _ => ht }
  show toInt64 gas = t.gasLeft + baseCost rev rest
  rw [hgas]
  omega

/-- At a JUMPDEST, which stands for the BEGINBLOCK that has been executed. -/
theorem simulates_jumpdest (h : Simulated i j rules) (hs : Running i rules s)
    (harrives : Arrives i.ctx.code.bytes 0 pos) {closed : List (List Decoded)}
    {done rest : List Decoded} {d : Decoded} {post : List (List Decoded)}
    (hat : AtInstruction i.ctx.rev i.ctx.code.bytes closed done d rest post pos s t)
    (hd : d.opcode = Opcode.jumpdest.toByte) :
    StepsTogether i j rules (.running pos s)
      (.running ((tableOf i.ctx.rev 0 closed).length + 1 + (entriesOf i.ctx.rev 0 0 done).length)
        t) := by
  have ht := hat.solvent (hs.gas h.metered)
  obtain ⟨hsplit, hdecode, hcost, hagree, hrequired, hgrowth, hearly⟩ := hat
  obtain ⟨b, hb, rfl, hrest⟩ := decodeFrom_eq_cons hdecode
  obtain ⟨hone, -, hchange⟩ := jumpdest_requirements i.ctx.rev hd
  have hctx : s.toContext = i.ctx := hs.follows.context
  have hrev : s.rev = i.ctx.rev := by rw [hctx]
  have hb' : b = Opcode.jumpdest.toByte := hd
  subst hb'
  have hcosts : ∀ rev, instr.gasCosts rev .jumpdest = 1 := by
    intro rev
    cases rev <;> rfl
  have hfetched : Baseline.Fetched i.ctx.code.bytes pos .jumpdest :=
    (Baseline.fetched_iff hb).2 (ofByte_toByte _)
  have hbase := baseCost_nonneg i.ctx.rev rest
  have hbefore := hagree.gas
  rw [baseCost, hone] at hbefore
  have hleft : toInt64 (s.gasLeft - 1) = s.gasLeft - 1 :=
    hs.setGas_gasLeft (by norm_num) (by norm_num) h.metered
  have hsuits : Suits True .jumpdest s := by
    intro _
    have hheight := s.stack.height_le
    exact ⟨Int.natCast_nonneg _, by simp only [instr.traits]; omega⟩
  have hstep := baseline_step_of_suits harrives hfetched (by rw [hcosts]; decide)
    (by rw [hcosts, hleft]; omega) hsuits
  rw [hcosts] at hstep
  have hs' := hs.setGas (by norm_num) (by norm_num) (show 0 ≤ toInt64 (s.gasLeft - 1) by omega)
  have hagree' := hagree.charge ht (hleft.trans (by rw [hone]))
  obtain ⟨hrequired', hgrowth'⟩ := requirements_tail hrequired hgrowth
    (show ((s.setGas (s.gasLeft - 1)).stack.height : Int) = _ by
      rw [hchange, Int.add_zero]
      rfl)
  -- One unit of gas has been spent.
  have hunclamped : Unclamped i.ctx.rev i.ctx.code.bytes (s.setGas (s.gasLeft - 1)).gasLeft := by
    show Unclamped _ _ (toInt64 (s.gasLeft - 1))
    rw [hleft]
    rcases hearly with hunclamped | ⟨-, hle⟩
    · exact hunclamped.mono (by omega)
    · exact .inr (by omega)
  have hentries : entriesOf i.ctx.rev 0 0 (done ++ [instructionAt i.ctx.code.bytes pos
      Opcode.jumpdest.toByte]) = entriesOf i.ctx.rev 0 0 done := by
    simp [entriesOf_append, entriesOf, entryOf, hd]
  have happend : done ++ instructionAt i.ctx.code.bytes pos Opcode.jumpdest.toByte :: rest =
      done ++ [instructionAt i.ctx.code.bytes pos Opcode.jumpdest.toByte] ++ rest := by simp
  have hout : t.outputSize = 0 := hagree.outputSize.symm.trans hs.outputSize
  rw [happend] at hsplit hcost
  rw [← hentries]
  apply Simulates.left hstep
  exact .running hs' (harrives.next hb) (.of_split hsplit hrest.symm hcost hagree' hrequired'
    hgrowth' hout (fun _ _ => hunclamped) (.inl hunclamped))

/-- A terminating instruction does not go on. -/
theorem run_exit_ne_ok (env : Env σ) (p : Exec StatusCode) {ip' : Nat} {s' : ExecutionState σ} :
    Exec.run env (do let status ← p; Exec.exit status) s ≠ .ok ip' s' := by
  intro hrun
  have hbind : Program.run (handle env) (p >>= Exec.exit) s = .ok ip' s' := hrun
  rw [Program.run_bind] at hbind
  generalize Program.run (handle env) p s = r at hbind
  cases r with
  | ok status s'' => cases hbind
  | exit status s'' => cases hbind
  | fault f => cases hbind

/-- The first instruction of an execution costs something if it goes on: the instructions without a
base cost end the execution or need items on the stack. -/
theorem unclamped_of_goes {rev : Revision} {code : List Byte} {op : Opcode} {gas : Int}
    (hearly : Unclamped rev code s.gasLeft ∨ Early s)
    (hne : instr.gasCosts rev op ≠ instr.undefined)
    (hsuits : Suits True op s) (hgoes : ∀ f, Baseline.op2fn op ≠ .terminating f)
    (hgas : gas ≤ s.gasLeft - instr.gasCosts rev op) : Unclamped rev code gas := by
  rcases hearly with hunclamped | ⟨hempty, hle⟩
  · have hcost := (instr.gasCosts_range hne).1
    exact hunclamped.mono (by omega)
  · have hrequired := (hsuits trivial).1
    rw [hempty] at hrequired
    have hpaid : 1 ≤ instr.gasCosts rev op := by
      apply instr.gasCosts_pos hne
      cases op with
      | stop | return_ | revert | invalid | selfdestruct => exact absurd rfl (hgoes _)
      | sstore => simp [instr.traits] at hrequired
      | _ => rfl
    exact .inr (by omega)

/-- What is known of Baseline after an instruction that goes on. -/
structure Advances (i : Invocation σ) (rules : Rules) (d : Decoded) (op : Opcode) (pos : Nat)
    (s : ExecutionState σ) (pos' : Nat) (s' : ExecutionState σ) : Prop where
  running : Running i rules s'
  arrives : Arrives i.ctx.code.bytes 0 pos'
  next : Baseline.Next i.ctx.code.bytes pos op pos'
  gas : s'.gasLeft ≤ s.gasLeft - costOf i.ctx.rev d
  height : (s'.stack.height : Int) = s.stack.height + changeOf i.ctx.rev d
  unclamped : Unclamped i.ctx.rev i.ctx.code.bytes s'.gasLeft

/-- The outcome of an instruction in Baseline. -/
theorem Simulated.advances (h : Simulated i j rules) (hs : Running i rules s)
    (harrives : Arrives i.ctx.code.bytes 0 pos) {op : Opcode} {d : Decoded}
    (hfetched : Baseline.Fetched i.ctx.code.bytes pos op)
    (hne : instr.gasCosts s.rev op ≠ instr.undefined)
    (hgas : 0 ≤ toInt64 (s.gasLeft - instr.gasCosts s.rev op)) (hsuits : Suits True op s)
    (hcost : costOf i.ctx.rev d = instr.gasCosts s.rev op)
    (hchange : changeOf i.ctx.rev d = (instr.traits op).stackHeightChange)
    (hearly : Unclamped i.ctx.rev i.ctx.code.bytes s.gasLeft ∨ Early s) :
    ((Baseline.invoke (Baseline.op2fn op) (Baseline.analysisOf i) s.toContext pos).run i.env
      (s.setGas (s.gasLeft - instr.gasCosts s.rev op))).Meets
      (Advances i rules d op pos s) (fun _ _ => True) fun _ => True := by
  have hsteps := Baseline.steps_of_step h.premises harrives hs hfetched hne hgas hsuits
  have hctx : s.toContext = i.ctx := hs.follows.context
  have hrev : s.rev = i.ctx.rev := by rw [hctx]
  obtain ⟨h0, h1⟩ := instr.gasCosts_range hne
  have hs1 := hs.setGas h0 (by omega) hgas
  have hleft := hs.setGas_gasLeft h0 (by omega) h.metered
  generalize hr : (Baseline.invoke (Baseline.op2fn op) (Baseline.analysisOf i) s.toContext pos).run
    i.env (s.setGas (s.gasLeft - instr.gasCosts s.rev op)) = r at hsteps
  cases r with
  | exit status s' => trivial
  | fault f => trivial
  | ok pos' s' =>
      -- the host never hands back more than it is sent, so the step is a regular one
      obtain ⟨hnext, hcont⟩ := hsteps.resolve_left fun hd =>
        not_derailed_of_callBounded h.calls (hs1.gas h.metered) hd.2
      have hpaid : s'.gasLeft ≤ toInt64 (s.gasLeft - instr.gasCosts s.rev op) :=
        (hcont.gas h.metered).2
      rw [hleft] at hpaid
      -- a terminating instruction leaves the loop, so this one is none
      have hgoes : ∀ f, Baseline.op2fn op ≠ .terminating f := by
        intro f hf
        rw [hf] at hr
        exact run_exit_ne_ok _ _ hr
      refine ⟨hs1.continues hcont, hnext.arrives harrives, hnext, ?_, ?_, ?_⟩
      · rw [hcost]
        exact hpaid
      · rw [hchange]
        exact hcont.height trivial
      · rw [hrev] at hne hpaid
        exact unclamped_of_goes hearly hne hsuits hgoes hpaid

/-- Wherever Baseline goes on to, Advanced has ended with a failure. -/
theorem settled_of_fails {c : Config (ExecutionState σ)} {c' : Config (AdvancedExecutionState σ)}
    {t' : AdvancedExecutionState σ}
    (hc : ∀ c1, Ends (Baseline.step i.env (Baseline.analysisOf i)) c c1 → c1.Fails)
    (hstep : Advanced.step j.env (analysisOf j) c' = some (.halted t'))
    (hstatus : ¬ t'.status.keepsGas) (hout : t'.outputSize = 0) : StepsTogether i j rules c c' := by
  apply Simulates.settled
  intro c1 hends
  exact ⟨_, ends_of_step_halted hstep, sameEnd_of_fails (hc c1 hends) hstatus hout⟩

/-! ### The outcomes of an instruction -/

section Outcomes

variable {closed : List (List Decoded)} {done rest : List Decoded} {d : Decoded}
  {post : List (List Decoded)} {b : Byte} {op : Opcode} {s' : ExecutionState σ}
  {t' : ExecutionState σ} {pos' : Nat}
  (hat : AtInstruction i.ctx.rev i.ctx.code.bytes closed done d rest post pos s t)
  (hdb : d.opcode = b) (hop : Opcode.ofByte b = some op)
  (hrest : rest ++ post.flatten = decodeFrom i.ctx.code.bytes (pos + 1 + pushSize b))

include hat in
theorem AtInstruction.isBlock : IsBlock (d :: rest) post :=
  (isBlock_of_append hat.split).suffix (List.cons_ne_nil _ _)

include hat hdb in
/-- An instruction that ends blocks is the last one of its block. -/
theorem AtInstruction.last_of_endsBlock (hends : endsBlock b = true) : rest = [] := by
  rcases IsBlock.tail hat.isBlock with hnil | ⟨hnot, -⟩
  · exact hnil
  · rw [hdb, hends] at hnot
    cases hnot

/-- The index of the next entry. -/
theorem nextEntry_eq (rev : Revision) (closed : List (List Decoded)) (done : List Decoded)
    (hd : d.opcode ≠ Opcode.jumpdest.toByte) :
    (tableOf rev 0 closed).length + 1 + (entriesOf rev 0 0 done).length + 1 =
      (tableOf rev 0 closed).length + 1 + (entriesOf rev 0 0 (done ++ [d])).length := by
  simp [entriesOf_append, entriesOf, entryOf, hd]
  omega

include hat hrest in
/-- Both go on with the next instruction. -/
theorem related_next (hd : d.opcode ≠ Opcode.jumpdest.toByte)
    (hs : Advances i rules d op pos s (pos + 1 + pushSize b) s')
    (hagree : Agree (baseCost i.ctx.rev rest) [] s' t') :
    Related i rules (.running (pos + 1 + pushSize b) s')
      (.running ((tableOf i.ctx.rev 0 closed).length + 1 +
        (entriesOf i.ctx.rev 0 0 done).length + 1) ⟨t', t.currentBlockCost⟩) := by
  obtain ⟨hs', harrives', -, -, hheight, hunclamped⟩ := hs
  obtain ⟨hrequired', hgrowth'⟩ := requirements_tail hat.required hat.growth hheight
  have hout : t'.outputSize = 0 := hagree.outputSize.symm.trans hs'.outputSize
  have happend : done ++ d :: rest = done ++ [d] ++ rest := by simp
  have hsplit := hat.split
  have hcost := hat.cost
  rw [happend] at hsplit hcost
  rw [nextEntry_eq i.ctx.rev closed done hd]
  exact .running hs' harrives' (.of_split hsplit hrest.symm hcost hagree hrequired' hgrowth' hout
    (fun _ _ => hunclamped) (.inl hunclamped))

include hat hdb hop hrest in
/-- Both come to the end of the code after a PUSH whose data is incomplete. -/
theorem related_truncated (hd : d.opcode ≠ Opcode.jumpdest.toByte)
    (hs : Advances i rules d op pos s (pos + 1 + pushSize b) s') (hpush : ∃ n, op = .push n)
    (hend : i.ctx.code.bytes.length ≤ pos + 1 + pushSize b)
    (hgas : s'.gasLeft = t'.gasLeft + baseCost i.ctx.rev rest) (hcalls : s'.calls = t'.calls)
    (hmemory : s'.memory.bytes = t'.memory.bytes) (hout : t'.outputSize = 0) :
    Related i rules (.running (pos + 1 + pushSize b) s')
      (.running ((tableOf i.ctx.rev 0 closed).length + 1 +
        (entriesOf i.ctx.rev 0 0 done).length + 1) ⟨t', t.currentBlockCost⟩) := by
  obtain ⟨hs', harrives', -⟩ := hs
  rw [decodeFrom_of_le hend] at hrest
  obtain ⟨rfl, hflatten⟩ := List.append_eq_nil_iff.1 hrest
  -- Nothing is left to decode, so this was the last block.
  have hpost : post = [] := by
    cases hat.isBlock with
    | terminated hends =>
        obtain ⟨n, rfl⟩ := hpush
        rw [hdb, endsBlock, hop] at hends
        cases hends
    | split _ hjumpdest =>
        obtain ⟨rfl, -⟩ := List.append_eq_nil_iff.1 hflatten
        cases hjumpdest
    | cons _ _ htail =>
        cases htail
        rfl
  have hsplit := hat.split
  rw [hpost] at hsplit
  rw [nextEntry_eq i.ctx.rev closed done hd, length_tableOf_done, ← hsplit]
  exact .running hs' harrives' (.atEnd hend (hgas.trans (Int.add_zero _)) hcalls hmemory hout)

include hat hdb hop in
/-- Both have jumped to the same JUMPDEST, which begins a block. -/
theorem related_jumped {ip' : Nat} (hs : Advances i rules d op pos s pos' s')
    (hjump : op = .jump ∨ op = .jumpi) (hagree : Agree (baseCost i.ctx.rev rest) [] s' t')
    (htarget : SameTarget i.ctx.rev i.ctx.code.bytes pos' ip') :
    Related i rules (.running pos' s') (.running ip' ⟨t', t.currentBlockCost⟩) := by
  obtain ⟨hs', harrives', -, -, -, hunclamped⟩ := hs
  have hends : endsBlock b = true := by
    unfold endsBlock
    rw [hop]
    rcases hjump with rfl | rfl
    · rfl
    · rfl
  -- a jump is the last of its block, so no cost of it is still to come
  obtain rfl := hat.last_of_endsBlock hdb hends
  obtain ⟨closed', b', post', hsplit', rfl⟩ := htarget
  have hdecode : decodeFrom i.ctx.code.bytes pos' =
      (instructionAt i.ctx.code.bytes pos' Opcode.jumpdest.toByte :: b') ++ post'.flatten := by
    have hflatten := flatten_blocksOf (decode i.ctx.code.bytes)
    rw [hsplit', List.flatten_append, List.flatten_cons] at hflatten
    exact (decodeFrom_of_append hflatten.symm).2
  have hmem : instructionAt i.ctx.code.bytes pos' Opcode.jumpdest.toByte :: b' ∈
      blocksOf (decode i.ctx.code.bytes) := by
    rw [hsplit']
    simp
  exact .running hs' harrives' (.atBlock hsplit' hdecode hagree
    (fun _ _ => clear_of_unclamped hunclamped hmem) (.inl hunclamped))

include hat hrest in
/-- Advanced has failed, and Baseline cannot pay for the rest of the block. -/
theorem fails_of_bail (h : Simulated i j rules) {r : Result σ Nat} {c : Config (ExecutionState σ)}
    (hr : r.Meets (Advances i rules d op pos s) (fun _ _ => True) fun _ => True)
    (hbail : r.Meets
      (fun pos' s => pos' = pos + 1 + pushSize b ∧ s.gasLeft < baseCost i.ctx.rev rest)
      (fun status _ => ¬ status.keepsGas) fun _ => True)
    (hends : Ends (Baseline.step i.env (Baseline.analysisOf i)) (.ofResult r) c) : c.Fails := by
  cases r with
  | ok pos' s' =>
      obtain ⟨hs', harrives', -⟩ := hr
      obtain ⟨rfl, hgas⟩ := hbail
      have hne : rest ≠ [] := by
        rintro rfl
        exact absurd hgas (Int.not_lt.2 (hs'.gas h.metered))
      have hsuffix : IsBlock ([d] ++ rest) post := hat.isBlock
      exact Baseline.fails_of_short h.premises h.metered h.calls (hsuffix.suffix hne) hrest.symm
        harrives' hs' (.inl hgas) hends
  | exit status' s' => exact Baseline.fails_of_ends hends hbail
  | fault f => exact Baseline.fails_of_ends hends trivial

include hat hdb hop hrest in
/-- The outcomes of an instruction in both interpreters decide how the runs go on. -/
theorem simulates_of_matched (h : Simulated i j rules) (hd : d.opcode ≠ Opcode.jumpdest.toByte)
    {r r' : Result σ Nat}
    (hr : r.Meets (Advances i rules d op pos s) (fun _ _ => True) fun _ => True)
    (hmatched : Matched i.ctx.rev i.ctx.code.bytes op (baseCost i.ctx.rev rest)
      (pos + 1 + pushSize b)
      ((tableOf i.ctx.rev 0 closed).length + 1 + (entriesOf i.ctx.rev 0 0 done).length + 1) r r')
    (hstep : Baseline.step i.env (Baseline.analysisOf i) (.running pos s) = some (.ofResult r))
    (hstep' : Advanced.step j.env (analysisOf j)
      (.running ((tableOf i.ctx.rev 0 closed).length + 1 +
        (entriesOf i.ctx.rev 0 0 done).length) t) = some (ofResult t.currentBlockCost r')) :
    StepsTogether i j rules (.running pos s)
      (.running ((tableOf i.ctx.rev 0 closed).length + 1 + (entriesOf i.ctx.rev 0 0 done).length)
        t) := by
  cases hmatched with
  | next hagree =>
      apply Simulates.both hstep hstep'
      exact related_next hat hrest hd hr hagree
  | truncated hpush hend hgas hcalls hmemory hout =>
      apply Simulates.both hstep hstep'
      exact related_truncated hat hdb hop hrest hd hr hpush hend hgas hcalls hmemory hout
  | jumped hjump hagree htarget =>
      apply Simulates.both hstep hstep'
      exact related_jumped hat hdb hop hr hjump hagree htarget
  | ended hsame =>
      apply Simulates.settled
      intro c hends
      refine ⟨_, ends_of_step_halted hstep', ?_⟩
      have hc := Baseline.eq_of_ends_halted (hends.tail hstep)
      rintro s'' rfl
      injection hc with hc
      rw [hc]
      exact ⟨_, rfl, hsame⟩
  | fault f =>
      -- Neither has a result.
      apply Simulates.settled
      intro c hends
      have hc := Baseline.eq_of_ends (hends.tail hstep) rfl
      refine ⟨_, .head hstep' (.refl rfl), ?_⟩
      rintro s' rfl
      cases hc
  | bail hbail hstatus hout =>
      refine settled_of_fails (fun c hends => ?_) hstep' hstatus hout
      exact fails_of_bail hat hrest h hr hbail (hends.tail hstep)

end Outcomes

/-- A round of Baseline at an undefined instruction. -/
theorem baseline_step_of_undefined (harrives : Arrives i.ctx.code.bytes 0 pos) {b : Byte}
    (hb : i.ctx.code.bytes[pos]? = some b) (hundef : instr.gasCost s.rev b = instr.undefined) :
    Baseline.step i.env (Baseline.analysisOf i) (.running pos s) =
      some (.halted { s with status := .undefinedInstruction }) := by
  have hfetch : (Baseline.analysisOf i).paddedCode[pos]? = _ :=
    Baseline.getElem?_paddedCode i.uninitCode i.ctx.code.bytes harrives
  simp only [Baseline.step, hfetch, hb, Option.getD_some,
    Baseline.checkRequirements_of_undefined hundef]

/-- An instruction of an accepted block can be executed: its base cost is paid, and its operands and
the room for its results are there. -/
theorem Simulated.entered (h : Simulated i j rules) (hs : Running i rules s)
    {closed : List (List Decoded)} {done rest : List Decoded} {d : Decoded}
    {post : List (List Decoded)} {op : Opcode}
    (hat : AtInstruction i.ctx.rev i.ctx.code.bytes closed done d rest post pos s t)
    (hne : instr.gasCosts s.rev op ≠ instr.undefined)
    (hcost : costOf i.ctx.rev d = instr.gasCosts s.rev op) (hsuits : Suits True op s) :
    0 ≤ toInt64 (s.gasLeft - instr.gasCosts s.rev op) ∧
      Entered i.env j.env rules op (baseCost i.ctx.rev rest)
        (s.setGas (s.gasLeft - instr.gasCosts s.rev op)) t.toExecutionState := by
  have ht := hat.solvent (hs.gas h.metered)
  obtain ⟨h0, h1⟩ := instr.gasCosts_range hne
  have hbase := baseCost_nonneg i.ctx.rev rest
  have hgas := hat.agree.gas
  rw [baseCost, hcost] at hgas
  have hleft := hs.setGas_gasLeft h0 (by omega) h.metered
  -- the whole block is paid on the other side, so what this instruction costs is covered
  -- here too
  have hpaid : 0 ≤ toInt64 (s.gasLeft - instr.gasCosts s.rev op) := by
    rw [hleft]
    omega
  have hs1 := hs.setGas h0 (by omega) hpaid
  have hagree := hat.agree.charge ht (hleft.trans (by rw [hcost]))
  exact ⟨hpaid,
    { same := h.env
      calls := h.calls
      metered := h.metered
      limit := h.premises.limit
      fits := h.premises.fits
      static := hs1.static h.premises
      startable := hs1.startable
      solvent := hs1.gas h.metered
      suits := hsuits
      agree := hagree
      nonneg := hbase }⟩

/-- At an instruction of a block. -/
theorem simulates_inBlock (h : Simulated i j rules) (hs : Running i rules s)
    (harrives : Arrives i.ctx.code.bytes 0 pos) {closed : List (List Decoded)}
    {done rest : List Decoded} {d : Decoded} {post : List (List Decoded)}
    (hat : AtInstruction i.ctx.rev i.ctx.code.bytes closed done d rest post pos s t)
    (hd : d.opcode ≠ Opcode.jumpdest.toByte) :
    StepsTogether i j rules (.running pos s)
      (.running ((tableOf i.ctx.rev 0 closed).length + 1 + (entriesOf i.ctx.rev 0 0 done).length)
        t) := by
  obtain ⟨b, hb, rfl, hrest⟩ := decodeFrom_eq_cons hat.decode
  have hctx : s.toContext = i.ctx := hs.follows.context
  have hrev : s.rev = i.ctx.rev := by rw [hctx]
  have hinstr := @getElem?_instrs_inBlock i.ctx.rev _ _ _ _ _ _ hat.split hd
  have hvalue := @pushValueAt_inBlock i.ctx.rev _ _ _ _ _ _ hat.split
  have hout : t.outputSize = 0 := hat.agree.outputSize.symm.trans hs.outputSize
  rcases decoded_cases i.ctx.rev (instructionAt i.ctx.code.bytes pos b) with
    ⟨hundef, hfn, -⟩ | ⟨op, hop, hne, hfn, hcostOf, hreq, hchange⟩
  · -- An undefined instruction fails in both.
    rw [hfn] at hinstr
    rw [← hrev] at hundef
    have hstep := @baseline_step_of_undefined σ i pos s harrives b hb hundef
    have hstatus : ¬ StatusCode.keepsGas .undefinedInstruction := by decide
    refine settled_of_fails (fun c hends => ?_) (h.step_eq hinstr) hstatus hout
    exact Baseline.fails_of_ends (hends.tail hstep) hstatus
  · have hjumpdest : op ≠ .jumpdest := by
      rintro rfl
      exact hd (toByte_of_ofByte hop)
    have hfetched : Baseline.Fetched i.ctx.code.bytes pos op := (Baseline.fetched_iff hb).2 hop
    obtain ⟨hitems, hroom⟩ := suits_of_required _ hat.required hat.growth
    rw [hreq] at hitems
    rw [hchange] at hroom
    have hsuits : Suits True op s := fun _ => ⟨hitems, hroom⟩
    have hcost : costOf i.ctx.rev (instructionAt i.ctx.code.bytes pos b) =
        instr.gasCosts s.rev op := by
      rw [hrev]
      exact hcostOf
    rw [← hrev] at hne
    obtain ⟨hpaid, hentered⟩ := h.entered hs hat hne hcost hsuits
    have hlast : endsBlock b = true → baseCost i.ctx.rev rest = 0 := by
      intro hends
      rw [hat.last_of_endsBlock rfl hends]
      rfl
    have hsum : (t.currentBlockCost : Int) =
        baseCost i.ctx.rev (done ++ [instructionAt i.ctx.code.bytes pos b]) +
          baseCost i.ctx.rev rest := by
      rw [hat.cost, ← baseCost_append, List.append_assoc]
      rfl
    -- The outcomes of the two implementations match, and they decide what comes next.
    have hmatched := @matched_exec σ _ _ _ _ _ _ _ i.ctx.rev _ _
      ((tableOf i.ctx.rev 0 closed).length + 1 + (entriesOf i.ctx.rev 0 0 done).length) _ hentered
      h.premises.reads h.size harrives hb hop hjumpdest hlast _ _ _ hsum hvalue i.uninitCode
    have hadvances := h.advances hs harrives hfetched hne hpaid hsuits hcost hchange hat.early
    have hstep := baseline_step_of_suits harrives hfetched hne hpaid hsuits
    rw [hfn] at hinstr
    have hstep' := (@Simulated.step_eq σ i j rules _ t h _ hinstr).trans
      (congrArg some (dispatch_op _ _ hjumpdest _ _ _))
    rw [← h.analysis] at hmatched
    exact simulates_of_matched hat rfl hop hrest h hd hadvances hmatched hstep hstep'

/-- Related configurations stay related, or the result is the same. -/
theorem simulates (h : Simulated i j rules) (c : Config (ExecutionState σ))
    (c' : Config (AdvancedExecutionState σ)) (hR : Related i rules c c') :
    StepsTogether i j rules c c' := by
  obtain ⟨hs, harrives, hpos⟩ := hR
  cases hpos with
  | atBlock hsplit hdecode hagree hclear hearly =>
      exact simulates_atBlock h hs harrives hsplit hdecode hagree hclear hearly
  | @inBlock closed done d rest post _ _ _ hat =>
      by_cases hd : d.opcode = Opcode.jumpdest.toByte
      · exact simulates_jumpdest h hs harrives hat hd
      · exact simulates_inBlock h hs harrives hat hd
  | atEnd hend hgas hcalls hmemory hout =>
      exact simulates_atEnd h hs harrives hend hgas hcalls hmemory hout

/-- The first basic block of the code. -/
def firstBlock (code : List Byte) : List Decoded := (cutBlocks (decode code)).1

/-- The initial configurations are related, if the cost of the first block is not clamped or its
BEGINBLOCK fails. -/
theorem related_start (h : Simulated i j rules)
    (hclear : stackRequired i.ctx.rev (firstBlock i.ctx.code.bytes) ≤ 0 →
      maxGrowth i.ctx.rev (firstBlock i.ctx.code.bytes) ≤ 1024 →
      baseCost i.ctx.rev (firstBlock i.ctx.code.bytes) ≤ 2 ^ 32 - 1 ∨ i.ctx.msg.gas < 2 ^ 32 - 1)
    (hearly : BlockCostsFit i.ctx.rev i.ctx.code.bytes ∨ i.ctx.msg.gas ≤ 2 ^ 32 - 1) :
    Related i rules (Baseline.start i) (Advanced.start j) := by
  have hsplit : blocksOf (decode i.ctx.code.bytes) =
      [] ++ firstBlock i.ctx.code.bytes :: (cutBlocks (decode i.ctx.code.bytes)).2 := rfl
  have hdecode : decodeFrom i.ctx.code.bytes 0 =
      firstBlock i.ctx.code.bytes ++ (cutBlocks (decode i.ctx.code.bytes)).2.flatten :=
    (flatten_blocksOf (decode i.ctx.code.bytes)).symm
  have hagree : Agree 0 [] i.newState j.newState :=
    { context := h.same.ctx
      gas := by
        show i.ctx.msg.gas = j.ctx.msg.gas + 0
        rw [h.same.ctx, Int.add_zero]
      solvent := fun hne => absurd rfl hne
      stack := by simp [Invocation.newState]
      memory := by simp [Invocation.newState]
      returnData := rfl
      outputOffset := rfl
      outputSize := rfl
      host := h.same.host
      calls := rfl }
  have hempty : i.newState.stack.height = 0 := rfl
  rw [Baseline.start_eq]
  refine .running h.premises.running .refl (.atBlock hsplit hdecode hagree ?_ ?_)
  · intro hrequired hgrowth
    rw [hempty] at hrequired hgrowth
    exact hclear (by omega) (by omega)
  · rcases hearly with hfit | hle
    · exact .inl (.inl hfit)
    · exact .inr ⟨hempty, hle⟩

/-- Advanced ends with the same result as Baseline. -/
theorem exists_sameEnd (h : Simulated i j rules)
    (hstart : Related i rules (Baseline.start i) (Advanced.start j)) {c : Config (ExecutionState σ)}
    (hc : Ends (Baseline.step i.env (Baseline.analysisOf i)) (Baseline.start i) c) :
    ∃ c', Ends (Advanced.step j.env (analysisOf j)) (Advanced.start j) c' ∧ SameEnd c c' :=
  exists_ends_of_simulation (simulates h) hc hstart

end Runs

end Ivmone
