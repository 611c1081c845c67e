import Ivmone.PayableRuns

/-!
# Jump destinations that wrap around

The analysis keeps the offset of a JUMPDEST and the index of its entry as 32-bit integers. In code
of more than `2 ^ 32` bytes both wrap around, and a jump to a byte that is not a JUMPDEST lands in
the middle of a block. Its instructions then run with the cost of the block the jump is in.
-/

set_option autoImplicit false

namespace Ivmone.Advanced

open Lib Instructions

/-! ## The blocks of code without PUSH instructions -/

/-- A block ends with the first instruction that ends blocks or that a JUMPDEST follows. -/
theorem blocksOf_append {ds rest : List Decoded} {d : Decoded}
    (h : ∀ x ∈ ds, endsBlock x.opcode = false ∧ x.opcode ≠ Opcode.jumpdest.toByte)
    (hd : d.opcode ≠ Opcode.jumpdest.toByte)
    (hends : (endsBlock d.opcode || atJumpdest rest) = true) :
    blocksOf (ds ++ d :: rest) = (ds ++ [d]) :: blocksOf rest := by
  induction ds with
  | nil =>
      rw [List.nil_append, blocksOf, cutBlocks_of_ends hends]
      rfl
  | cons x ds ih =>
      have htail : ∀ x ∈ ds, endsBlock x.opcode = false ∧ x.opcode ≠ Opcode.jumpdest.toByte :=
        fun y hy => h y (List.mem_cons_of_mem x hy)
      have hnext : atJumpdest (ds ++ d :: rest) = false := by
        cases ds with
        | nil => simpa [atJumpdest] using hd
        | cons y ds => simpa [atJumpdest] using (htail y List.mem_cons_self).2
      have ih := ih htail
      injection ih with hfirst hrest
      rw [List.cons_append, blocksOf, cutBlocks_of_not_ends, hfirst, hrest]
      · rfl
      · rw [(h x List.mem_cons_self).1, hnext]
        exact Bool.false_ne_true

/-- The same for the instructions that bytes are. -/
theorem blocksOf_plainFrom {offset : Nat} {xs rest : List Byte} {b : Byte}
    (h : ∀ x ∈ xs, endsBlock x = false ∧ x ≠ Opcode.jumpdest.toByte)
    (hb : b ≠ Opcode.jumpdest.toByte)
    (hends : endsBlock b = true ∨ rest.head? = some Opcode.jumpdest.toByte) :
    blocksOf (plainFrom offset (xs ++ b :: rest)) =
      plainFrom offset (xs ++ [b]) :: blocksOf (plainFrom (offset + xs.length + 1) rest) := by
  rw [plainFrom_append, plainFrom_append, plainFrom, plainFrom, plainFrom]
  apply blocksOf_append
  · intro x hx
    exact h x.opcode (opcode_mem_of_mem_plainFrom hx)
  · exact hb
  · rcases hends with hends | hends
    · rw [hends, Bool.true_or]
    · cases rest with
      | nil => cases hends
      | cons y rest =>
          injection hends with hends
          rw [hends, plainFrom, atJumpdest, beq_self_eq_true, Bool.or_true]

/-- Every instruction other than a JUMPDEST has an entry. -/
theorem length_entriesOf_of_no_jumpdest {rev : Revision} {gas : Int} {k : Nat} {ds : List Decoded}
    (h : ∀ d ∈ ds, d.opcode ≠ Opcode.jumpdest.toByte) :
    (entriesOf rev gas k ds).length = ds.length := by
  induction ds generalizing gas k with
  | nil => rfl
  | cons d ds ih =>
      rw [entriesOf, List.length_append, ih fun x hx => h x (List.mem_cons_of_mem d hx), entryOf,
        if_neg (h d List.mem_cons_self), List.length_singleton, List.length_cons, Nat.add_comm]

/-! ## Runs that stay in the first entries -/

section Prefix

variable {σ : Type} {env : Env σ} {analysis : AdvancedCodeAnalysis} {rest : List Instruction}

/-- The entries that follow do not matter for a step. -/
theorem step_append {ip : Nat} {s : AdvancedExecutionState σ} {instr : Instruction}
    (h : analysis.instrs[ip]? = some instr) :
    step env { analysis with instrs := analysis.instrs ++ rest } (.running ip s) =
      step env analysis (.running ip s) := by
  have hrest : (analysis.instrs ++ rest)[ip]? = some instr := by
    rw [List.getElem?_append_left (List.getElem?_eq_some_iff.1 h).1, h]
  rw [step, step, hrest, h]
  obtain ⟨fn, arg⟩ := instr
  rcases fn with _ | fn
  · rfl
  · cases fn <;> cases arg <;> rfl

/-- They do not matter for a run without faults either. -/
theorem after_append {c : Config (AdvancedExecutionState σ)} {n : Nat}
    (hfault : ∀ f, Lib.after (step env analysis) c n ≠ .fault f) :
    Lib.after (step env { analysis with instrs := analysis.instrs ++ rest }) c n =
      Lib.after (step env analysis) c n := by
  induction n with
  | zero => rfl
  | succ n ih =>
      cases hc : Lib.after (step env analysis) c n with
      | fault f =>
          -- A fault would still be there after one more step.
          have hstays : Lib.after (step env analysis) c (n + 1) = .fault f := by
            rw [Lib.after, hc]
            rfl
          exact absurd hstays (hfault f)
      | halted s =>
          have hprev := ih fun f hf => by
            rw [hc] at hf
            cases hf
          rw [Lib.after, Lib.after, hprev, hc]
          rfl
      | running ip s =>
          have hprev := ih fun f hf => by
            rw [hc] at hf
            cases hf
          cases hinstr : analysis.instrs[ip]? with
          | some instr => rw [Lib.after, Lib.after, hprev, hc, step_append hinstr]
          | none =>
              have hleaves : Lib.after (step env analysis) c (n + 1) = .fault .instrPosition := by
                rw [Lib.after, hc, step, hinstr]
                rfl
              exact absurd hleaves (hfault _)

end Prefix

/-! ## Code that wraps around

The last byte is a JUMPDEST at the offset `2 ^ 32 + 32`, and its BEGINBLOCK has the index `2 ^ 32 +
35`. The jump of the first block, to the offset 32, goes to the entry 35. -/

/-- A byte that is no instruction. -/
def filler : Byte := 0x0c

/-- `MSIZE MLOAD MSIZE CALLVALUE CALLVALUE MSIZE JUMP`: memory of one word, and a jump to its
size. -/
def wrappedHead : List Byte :=
  [Opcode.msize, .mload, .msize, .callvalue, .callvalue, .msize, .jump].map Opcode.toByte

/-- Code with a CREATE and an SSTORE after a number of fillers, and a JUMPDEST after more of
them. -/
def wrappedBytes (before after : Nat) : List Byte :=
  wrappedHead ++ (List.replicate before filler ++
    ([Opcode.create, .sstore, .stop].map Opcode.toByte ++
      (List.replicate after filler ++ [Opcode.jumpdest.toByte])))

theorem length_wrappedBytes (before after : Nat) :
    (wrappedBytes before after).length = before + after + 11 := by
  simp only [wrappedBytes, wrappedHead, List.length_append, List.length_map, List.length_replicate,
    List.length_cons, List.length_nil]
  omega

theorem pushSize_wrappedBytes {before after : Nat} : ∀ b ∈ wrappedBytes before after,
    pushSize b = 0 := by
  intro b hb
  have hhead : ∀ b ∈ wrappedHead, pushSize b = 0 := by decide
  have hmiddle : ∀ b ∈ [Opcode.create, .sstore, .stop].map Opcode.toByte,
      pushSize b = 0 := by decide
  rw [wrappedBytes] at hb
  simp only [List.mem_append, List.mem_singleton] at hb
  rcases hb with hb | hb | hb | hb | rfl
  · exact hhead b hb
  · rw [List.eq_of_mem_replicate hb]
    rfl
  · exact hmiddle b hb
  · rw [List.eq_of_mem_replicate hb]
    rfl
  · rfl

/-- The first two blocks. -/
def wrappedBlocks (before : Nat) : List (List Decoded) :=
  [plainFrom 0 wrappedHead,
    plainFrom 7 (List.replicate before filler ++ [Opcode.create, .sstore, .stop].map Opcode.toByte)]

/-- The third block. -/
def wrappedFillers (before after : Nat) : List Decoded :=
  plainFrom (before + 10) (List.replicate after filler)

theorem opcode_wrappedFillers {before after : Nat} {d : Decoded}
    (h : d ∈ wrappedFillers before after) :
    d.opcode = filler := List.eq_of_mem_replicate (opcode_mem_of_mem_plainFrom h)

theorem blocksOf_wrappedBytes (before after : Nat) :
    blocksOf (decode (wrappedBytes before (after + 1))) =
      wrappedBlocks before ++ [wrappedFillers before (after + 1),
        [⟨before + after + 11, Opcode.jumpdest.toByte, []⟩]] := by
  have hplain : ∀ n, ∀ x ∈ List.replicate n filler,
      endsBlock x = false ∧ x ≠ Opcode.jumpdest.toByte := by
    intro n x hx
    rw [List.eq_of_mem_replicate hx]
    decide
  have hhead : ∀ x ∈ wrappedHead.dropLast, endsBlock x = false ∧ x ≠ Opcode.jumpdest.toByte := by
    decide
  have hmiddle : ∀ x ∈ List.replicate before filler ++ [Opcode.create, .sstore].map Opcode.toByte,
      endsBlock x = false ∧ x ≠ Opcode.jumpdest.toByte := by
    have hcreate : ∀ x ∈ [Opcode.create, .sstore].map Opcode.toByte,
        endsBlock x = false ∧ x ≠ Opcode.jumpdest.toByte := by decide
    intro x hx
    rcases List.mem_append.1 hx with hx | hx
    · exact hplain before x hx
    · exact hcreate x hx
  -- Each block is some bytes that do not end it, and one that does.
  have hbytes : wrappedBytes before (after + 1) =
      wrappedHead.dropLast ++ Opcode.jump.toByte ::
        ((List.replicate before filler ++ [Opcode.create, .sstore].map Opcode.toByte) ++
          Opcode.stop.toByte ::
            (List.replicate after filler ++ filler :: [Opcode.jumpdest.toByte])) := by
    rw [wrappedBytes, List.replicate_succ', List.append_assoc, List.append_assoc]
    rfl
  rw [decode, decodeFrom_eq_plainFrom pushSize_wrappedBytes, List.drop_zero, hbytes,
    blocksOf_plainFrom hhead (by decide) (.inl (by decide)),
    blocksOf_plainFrom hmiddle (by decide) (.inl (by decide)),
    blocksOf_plainFrom (hplain after) (by decide) (.inr rfl)]
  have hfirst : 0 + wrappedHead.dropLast.length + 1 = 7 := rfl
  have hlength : 7 + (List.replicate before filler ++
      [Opcode.create, .sstore].map Opcode.toByte).length + 1 = before + 10 := by
    rw [List.length_append, List.length_replicate, List.length_map, List.length_cons,
      List.length_cons, List.length_nil]
    omega
  have hlast : before + 10 + after + 1 = before + after + 11 := by omega
  rw [hfirst, hlength, List.length_replicate, hlast, ← List.replicate_succ', List.append_assoc]
  rfl

theorem length_wrappedBlocks (before : Nat) :
    (tableOf .byzantium 0 (wrappedBlocks before)).length = before + 12 := by
  have hhead : ∀ d ∈ plainFrom 0 wrappedHead, d.opcode ≠ Opcode.jumpdest.toByte := by decide
  have hmiddle : ∀ d ∈ plainFrom 7 (List.replicate before filler ++
      [Opcode.create, .sstore, .stop].map Opcode.toByte), d.opcode ≠ Opcode.jumpdest.toByte := by
    have hcreate : ∀ x ∈ [Opcode.create, .sstore, .stop].map Opcode.toByte,
        x ≠ Opcode.jumpdest.toByte := by decide
    intro d hd
    rcases List.mem_append.1 (opcode_mem_of_mem_plainFrom hd) with hd | hd
    · rw [List.eq_of_mem_replicate hd]
      decide
    · exact hcreate _ hd
  have hlength : (plainFrom 0 wrappedHead).length = 7 := rfl
  simp only [wrappedBlocks, tableOf, List.length_cons, List.length_append,
    length_entriesOf_of_no_jumpdest hhead, length_entriesOf_of_no_jumpdest hmiddle, hlength,
    length_plainFrom, List.length_replicate, List.length_map, List.length_nil]
  omega

theorem jumpdests_wrappedBytes (before after : Nat) :
    jumpdests .byzantium (wrappedBytes before (after + 1)) =
      [(before + after + 11, before + after + 14)] := by
  have hfillers : (entriesOf .byzantium 0 0 (wrappedFillers before (after + 1))).length =
      after + 1 := by
    rw [length_entriesOf_of_no_jumpdest, wrappedFillers, length_plainFrom, List.length_replicate]
    intro d hd
    rw [opcode_wrappedFillers hd]
    decide
  have hfirst : jumpdestsOf .byzantium 0 (wrappedBlocks before) = [] := by
    cases before with
    | zero => rfl
    | succ before => rfl
  have hindex : 0 + (before + 12) + 1 + (after + 1) = before + after + 14 := by omega
  rw [jumpdests, blocksOf_wrappedBytes, jumpdestsOf_append, hfirst, length_wrappedBlocks,
    List.nil_append, jumpdestsOf, jumpdestsOf, jumpdestsOf, hfillers, hindex]
  rfl

/-- The part of the analysis that a run needs which stays in the first two blocks. -/
def wrappedAnalysis (before : Nat) : AdvancedCodeAnalysis where
  instrs := tableOf .byzantium 0 (wrappedBlocks before)
  jumpdestOffsets := [32]
  jumpdestTargets := [35]

theorem pushValuesOf_eq_nil {ds : List Decoded} (h : ∀ d ∈ ds, pushSize d.opcode = 0) :
    pushValuesOf ds = [] := by
  apply List.flatMap_eq_nil_iff.2
  intro d hd
  have hsize := h d hd
  unfold pushSize at hsize
  unfold largePushOf
  split
  · rename_i n hop
    rw [hop] at hsize
    cases hsize
  · rfl

theorem analyze_wrappedBytes {before after : Nat} (h : before + after = 2 ^ 32 + 21) :
    ∃ rest, analyze .byzantium (wrappedBytes before (after + 1)) =
      { wrappedAnalysis before with instrs := (wrappedAnalysis before).instrs ++ rest } := by
  have hjumpdests : jumpdestsOf .byzantium 0 (blocksOf (decode (wrappedBytes before (after + 1)))) =
      [(2 ^ 32 + 32, 2 ^ 32 + 35)] := by
    rw [← jumpdests, jumpdests_wrappedBytes, h]
  have hpushValues : pushValuesOf (blocksOf (decode
      (wrappedBytes before (after + 1)))).flatten = [] := by
    rw [flatten_blocksOf]
    apply pushValuesOf_eq_nil
    intro d hd
    rw [decode, decodeFrom_eq_plainFrom pushSize_wrappedBytes] at hd
    exact pushSize_wrappedBytes _ (opcode_mem_of_mem_plainFrom hd)
  -- Both numbers of the jump destination lose their bit 32.
  have hoffset : toInt32 ((2 ^ 32 + 32 : Nat) : Int) = 32 := by decide
  have htarget : toInt32 ((2 ^ 32 + 35 : Nat) : Int) = 35 := by decide
  rw [analyze_eq, ofBlocks, hjumpdests, hpushValues, blocksOf_wrappedBytes, tableOf_append,
    List.append_assoc, List.map_singleton, List.map_singleton, hoffset, htarget]
  exact ⟨_, rfl⟩

/-- The fillers cost nothing. -/
theorem baseCost_wrappedFillers {ds : List Decoded} (h : ∀ d ∈ ds, d.opcode = filler) :
    baseCost .byzantium ds = 0 := by
  induction ds with
  | nil => rfl
  | cons d ds ih =>
      have hd : costOf .byzantium d = 0 := by
        rw [costOf, h d List.mem_cons_self]
        decide
      rw [baseCost, hd, ih fun x hx => h x (List.mem_cons_of_mem d hx), Int.add_zero]

theorem blockCostsFit_wrappedBytes {before after : Nat} (h : before ≤ 26) :
    BlockCostsFit .byzantium (wrappedBytes before (after + 1)) := by
  have hfirst : ∀ before ≤ 26, ∀ b ∈ wrappedBlocks before, baseCost .byzantium b ≤ 2 ^ 32 - 1 := by
    decide
  intro b hb
  rw [blocksOf_wrappedBytes] at hb
  rcases List.mem_append.1 hb with hb | hb
  · exact hfirst before h b hb
  · rcases List.mem_cons.1 hb with rfl | hb
    · rw [baseCost_wrappedFillers fun d hd => opcode_wrappedFillers hd]
      decide
    · rw [List.eq_of_mem_singleton hb, baseCost, baseCost, costOf]
      show (opTable .byzantium Opcode.jumpdest.toByte).gasCost + 0 ≤ _
      decide

theorem size_wrappedBytes {before after : Nat} (h : before + after = 2 ^ 32 + 21) :
    (wrappedBytes before (after + 1)).length < 2 ^ 63 := by
  rw [length_wrappedBytes]
  omega

/-- The execution of such code, in Byzantium and on the host without accounts. -/
def wrapped (before after : Nat) (h : before + after = 2 ^ 32 + 21) (gas : Int) : Invocation Unit :=
  simpleInvocation .byzantium ⟨wrappedBytes before (after + 1), size_wrappedBytes h⟩ gas 0

/-- What a run does that stays in the first two blocks. -/
theorem after_wrapped {before after : Nat} (h : before + after = 2 ^ 32 + 21) {gas : Int} {n : Nat}
    {c : Config (AdvancedExecutionState Unit)}
    (hc : Lib.after (step (wrapped before after h gas).env (wrappedAnalysis before))
      (start (wrapped before after h gas)) n = c) (hfault : ∀ f, c ≠ .fault f) :
    Lib.after (step (wrapped before after h gas).env (analysisOf (wrapped before after h gas)))
      (start (wrapped before after h gas)) n = c := by
  obtain ⟨rest, hrest⟩ := analyze_wrappedBytes h
  have hanalysis : analysisOf (wrapped before after h gas) =
      { wrappedAnalysis before with instrs := (wrappedAnalysis before).instrs ++ rest } := hrest
  subst hc
  rw [hanalysis, after_append hfault]

/-! ## A memory check with negative gas -/

/-- The entry 35 is the CREATE. -/
def wrappedCreate : Invocation Unit := wrapped 26 (2 ^ 32 - 5) (by norm_num) 100

/-- The configuration after the CREATE. -/
def afterWrappedCreate : Config (AdvancedExecutionState Unit) :=
  Lib.after (step wrappedCreate.env (wrappedAnalysis 26)) (start wrappedCreate) 9

/-- A check passes with less gas than nothing, for a region that is not empty. -/
def overdrawn : Config (AdvancedExecutionState Unit) → Bool
  | .running _ s | .halted s =>
      s.ghost.checks.any fun c => c.passed && decide (c.gasBefore < 0) && decide (0 < c.size.toNat)
  | .fault _ => false

theorem overdrawn_afterWrappedCreate : overdrawn afterWrappedCreate = true := by decide +kernel

theorem not_precise_of_overdrawn {c : MemoryCheck} (hpassed : c.passed = true)
    (hgas : c.gasBefore < 0) (hpos : 0 < c.size.toNat) : ¬ c.Precise := by
  intro h
  have hfails := h.fails_iff.2 ⟨hpos, lt_of_lt_of_le hgas (le_max_left _ _)⟩
  rw [hpassed] at hfails
  cases hfails

theorem not_checksPrecise_of_overdrawn {c : Config (AdvancedExecutionState Unit)}
    (h : overdrawn c = true) : ¬ c.StateMeets fun s => ChecksPrecise s.toExecutionState := by
  have hany : ∀ s : AdvancedExecutionState Unit,
      (s.ghost.checks.any fun c => c.passed && decide (c.gasBefore < 0) && decide
        (0 < c.size.toNat)) = true → ¬ ChecksPrecise s.toExecutionState := by
    intro s hs hprecise
    obtain ⟨c, hc, hbad⟩ := List.any_eq_true.1 hs
    simp only [Bool.and_eq_true, decide_eq_true_eq] at hbad
    exact not_precise_of_overdrawn hbad.1.1 hbad.1.2 hbad.2 (hprecise c hc)
  cases c with
  | running ip s => exact hany s h
  | halted s => exact hany s h
  | fault f => cases h

/-- In code that wraps around, a memory check passes with a negative gas counter. -/
theorem memory_limit_not_precise_wrappedCreate :
    wrappedCreate.env.host.CallBounded ∧ 0 ≤ wrappedCreate.ctx.msg.gas ∧
      wrappedCreate.ctx.msg.gas < 3 * 2 ^ 27 + 2 ^ 45 ∧
      BlockCostsFit wrappedCreate.ctx.rev wrappedCreate.ctx.code.bytes ∧
      ∃ c, StateTransition.Reaches (step wrappedCreate.env (analysisOf wrappedCreate))
        (start wrappedCreate) c ∧ ¬ c.StateMeets fun s => ChecksPrecise s.toExecutionState := by
  have hafter : Lib.after (step wrappedCreate.env (analysisOf wrappedCreate))
      (start wrappedCreate) 9 = afterWrappedCreate := by
    refine after_wrapped _ rfl ?_
    intro f hf
    have hover := overdrawn_afterWrappedCreate
    rw [hf] at hover
    cases hover
  refine ⟨emptyHost_callBounded, by decide, by decide, blockCostsFit_wrappedBytes le_rfl,
    afterWrappedCreate, hafter ▸ reaches_after _ 9,
    not_checksPrecise_of_overdrawn overdrawn_afterWrappedCreate⟩

end Ivmone.Advanced
