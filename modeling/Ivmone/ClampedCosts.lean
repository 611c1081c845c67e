import Ivmone.Equivalence

/-!
# Block costs that do not fit

The cost of a block is clamped to `2 ^ 32 - 1` in its BEGINBLOCK. With less gas than that the block
is rejected all the same. With exactly that much gas a block of a larger cost is accepted; this can
only be the first block, as every later one is entered with less gas.
-/

set_option autoImplicit false

namespace Ivmone

open Lib Advanced

variable {σ : Type}

/-- The BEGINBLOCK of the first block accepts a cost that the gas does not cover. -/
def AcceptsClamped (rev : Revision) (code : List Byte) (gas : Int) : Prop :=
  gas = 2 ^ 32 - 1 ∧ 2 ^ 32 - 1 < baseCost rev (firstBlock code) ∧
    stackRequired rev (firstBlock code) ≤ 0 ∧ maxGrowth rev (firstBlock code) ≤ 1024

/-- Baseline fails in a first block that the gas does not cover. -/
theorem Baseline.fails_of_short_first {i : Invocation σ} (h0 : 0 ≤ i.ctx.msg.gas)
    (h63 : i.ctx.msg.gas < 2 ^ 63) (hcalls : i.env.host.CallBounded)
    (hcopy : i.env.host.CopyFits)
    (hshort : i.ctx.msg.gas < baseCost i.ctx.rev (firstBlock i.ctx.code.bytes)) :
    ∃ s r, .halted s ∈ Baseline.execute i ∧ makeResult s = some r ∧ ¬ r.status.keepsGas := by
  obtain ⟨s, hends, hhalted⟩ := Baseline.exists_halted h0 h63 hcalls hcopy
  have hdecode : decodeFrom i.ctx.code.bytes 0 =
      firstBlock i.ctx.code.bytes ++ (cutBlocks (decode i.ctx.code.bytes)).2.flatten :=
    (flatten_blocksOf (decode i.ctx.code.bytes)).symm
  have hp := premises_metered h0 h63
  have hfails : (Config.halted s).Fails := by
    have hstart := hends
    rw [Baseline.start_eq] at hstart
    exact Baseline.fails_of_short hp trivial hcalls (isBlock_cutBlocks _) hdecode .refl hp.running
      (.inl hshort) hstart
  have hout : s.outputSize = 0 := by
    by_contra hne
    exact hfails (hhalted.output hne).1
  exact ⟨s, _, ends_iff_mem_eval.1 hends, makeResult_of_failed hfails hout, hfails⟩

/-- For gas of at most `2 ^ 32 - 1`, clamping is harmless unless the first block is accepted with
exactly that gas. In that case Baseline fails. -/
theorem clamping_harmless (i j : Invocation σ) (hsame : i.Same j)
    (hsize : i.ctx.code.bytes.length < 2 ^ 30) (h0 : 0 ≤ i.ctx.msg.gas)
    (h32 : i.ctx.msg.gas ≤ 2 ^ 32 - 1) (hcalls : i.env.host.CallBounded)
    (hcopy : i.env.host.CopyFits) :
    (¬ AcceptsClamped i.ctx.rev i.ctx.code.bytes i.ctx.msg.gas →
      ∃ s t r r', .halted s ∈ Baseline.execute i ∧ .halted t ∈ Advanced.execute j ∧
        makeResult s = some r ∧ makeResult t.toExecutionState = some r' ∧
        (r'.status.keepsGas ↔ r.status.keepsGas) ∧
        (r'.status.keepsGas → r'.gasLeft = r.gasLeft ∧ r'.output = r.output)) ∧
    (AcceptsClamped i.ctx.rev i.ctx.code.bytes i.ctx.msg.gas →
      ∃ s r, .halted s ∈ Baseline.execute i ∧ makeResult s = some r ∧ ¬ r.status.keepsGas) := by
  have h63 : i.ctx.msg.gas < 2 ^ 63 := by omega
  constructor
  · intro hnot
    have hclear : stackRequired i.ctx.rev (firstBlock i.ctx.code.bytes) ≤ 0 →
        maxGrowth i.ctx.rev (firstBlock i.ctx.code.bytes) ≤ 1024 →
        baseCost i.ctx.rev (firstBlock i.ctx.code.bytes) ≤ 2 ^ 32 - 1 ∨
          i.ctx.msg.gas < 2 ^ 32 - 1 := by
      intro hrequired hgrowth
      -- the first block would be accepted although its true cost is not covered
      by_contra hboth
      push Not at hboth
      exact hnot ⟨by omega, hboth.1, hrequired, hgrowth⟩
    obtain ⟨s, t, r, r', hs, ht, hr, hr', hsameResult, -⟩ :=
      exists_same_results hsame hsize h0 h63 hcalls hcopy hclear (.inr h32)
    refine ⟨s, t, r, r', hs, ht, hr, hr', keepsGas_iff_of_normalize_eq hsameResult.status.symm, ?_⟩
    intro _
    exact ⟨hsameResult.gasLeft.symm, hsameResult.output.symm⟩
  · rintro ⟨hgas, hcost, -⟩
    exact Baseline.fails_of_short_first h0 h63 hcalls hcopy (by omega)

theorem clamping_harmless_truncatedPush :
    ∃ s t r r', .halted s ∈ Baseline.execute truncatedPush ∧
      .halted t ∈ Advanced.execute truncatedPush ∧
      makeResult s = some r ∧ makeResult t.toExecutionState = some r' ∧
      (r'.status.keepsGas ↔ r.status.keepsGas) ∧
      (r'.status.keepsGas → r'.gasLeft = r.gasLeft ∧ r'.output = r.output) := by
  have h := clamping_harmless truncatedPush truncatedPush truncatedPush_same (by decide) (by decide)
    (by decide) emptyHost_callBounded emptyHost_copyFits
  apply h.1
  rintro ⟨hgas, -⟩
  exact absurd hgas (by decide)

/-! ## A long block

An ADDRESS followed by many BALANCE instructions is one block. In Istanbul they cost nothing beyond
their base costs. -/

/-- An ADDRESS and `n` times BALANCE. -/
def balances (n : Nat) : List Byte :=
  Opcode.address.toByte :: List.replicate n Opcode.balance.toByte

/-- Instructions that do not end blocks are one block. -/
theorem cutBlocks_of_plain {ds : List Decoded}
    (h : ∀ d ∈ ds, endsBlock d.opcode = false ∧ d.opcode ≠ Opcode.jumpdest.toByte) :
    cutBlocks ds = (ds, []) := by
  induction ds with
  | nil => rfl
  | cons d ds ih =>
      have htail : ∀ d ∈ ds, endsBlock d.opcode = false ∧ d.opcode ≠ Opcode.jumpdest.toByte :=
        fun x hx => h x (List.mem_cons_of_mem d hx)
      have hnext : atJumpdest ds = false := by
        cases ds with
        | nil => rfl
        | cons d' ds => simpa [atJumpdest] using (htail d' List.mem_cons_self).2
      rw [cutBlocks_of_not_ends, ih htail]
      rw [(h d List.mem_cons_self).1, hnext]
      exact Bool.false_ne_true

/-- The requirements of `n` times BALANCE. -/
theorem balances_requirements {ds : List Decoded}
    (h : ∀ d ∈ ds, d.opcode = Opcode.balance.toByte) :
    baseCost .istanbul ds = 700 * ds.length ∧ stackRequired .istanbul ds ≤ 1 ∧
      maxGrowth .istanbul ds = 0 := by
  induction ds with
  | nil => exact ⟨rfl, by decide, rfl⟩
  | cons d ds ih =>
      obtain ⟨hcost, hrequired, hgrowth⟩ := ih fun x hx => h x (List.mem_cons_of_mem d hx)
      have hd := h d List.mem_cons_self
      have h1 : costOf .istanbul d = 700 := by
        unfold costOf
        rw [hd]
        decide
      have h2 : requiredBy .istanbul d = 1 ∧ changeOf .istanbul d = 0 := by
        unfold requiredBy changeOf
        rw [hd]
        decide
      rw [baseCost, stackRequired, maxGrowth, hcost, hgrowth, h1, h2.1, h2.2, List.length_cons]
      push_cast
      omega

/-- The instructions of the long block. -/
theorem decode_balances (n : Nat) :
    ∃ d ds, decode (balances n) = d :: ds ∧ d.opcode = Opcode.address.toByte ∧ ds.length = n ∧
      ∀ x ∈ ds, x.opcode = Opcode.balance.toByte := by
  have hpush : ∀ b ∈ balances n, pushSize b = 0 := by
    intro b hb
    rcases List.mem_cons.1 hb with rfl | hb
    · rfl
    · rw [List.eq_of_mem_replicate hb]
      rfl
  refine ⟨⟨0, Opcode.address.toByte, []⟩, plainFrom 1 (List.replicate n Opcode.balance.toByte),
    ?_, rfl, ?_, ?_⟩
  · rw [decode, decodeFrom_eq_plainFrom hpush, List.drop_zero, balances, plainFrom]
  · rw [length_plainFrom, List.length_replicate]
  · intro x hx
    exact List.eq_of_mem_replicate (opcode_mem_of_mem_plainFrom hx)

theorem blocksOf_balances (n : Nat) : blocksOf (decode (balances n)) = [decode (balances n)] := by
  obtain ⟨d, ds, hdecode, hd, -, hds⟩ := decode_balances n
  have hplain : ∀ x ∈ d :: ds, endsBlock x.opcode = false ∧ x.opcode ≠ Opcode.jumpdest.toByte := by
    intro x hx
    rcases List.mem_cons.1 hx with rfl | hx
    · rw [hd]
      decide
    · rw [hds x hx]
      decide
  rw [hdecode, blocksOf, cutBlocks_of_plain hplain]

/-- The states in the long block, after ADDRESS. -/
structure InLongBlock (i : Invocation σ) (t : AdvancedExecutionState σ) : Prop where
  context : t.toContext = i.ctx
  gas : t.gasLeft = 0
  height : t.stack.height = 1
  outputSize : t.outputSize = 0

/-- BALANCE in Istanbul. -/
theorem InLongBlock.run_balance {i : Invocation σ} {t : AdvancedExecutionState σ}
    (h : InLongBlock i t) (hrev : i.ctx.rev = .istanbul) (env : Env σ) (ip : Nat) :
    ∃ s, (next ip (Instructions.balance t.toContext)).run env t.toExecutionState = .ok (ip + 1) s ∧
      InLongBlock i ⟨s, t.currentBlockCost⟩ := by
  have hcold : ∀ addr cost, Instructions.chargeColdAccount t.toContext addr cost = pure () := by
    intro addr cost
    unfold Instructions.chargeColdAccount
    rw [if_neg]
    rw [h.context, hrev]
    decide
  have hpos : 0 < t.stack.height := by
    rw [h.height]
    exact Nat.one_pos
  obtain ⟨x, hpeek⟩ : ∃ x, t.stack.get? 0 = some x :=
    ⟨_, by rw [Stack.get?_eq, List.getElem?_eq_getElem (by simpa using hpos)]⟩
  obtain ⟨stack, hpoke, hitems⟩ :=
    Stack.set?_of_lt hpos (env.host (.getBalance x.toAddress) t.host).1
  have hheight : stack.height = t.stack.height := by
    rw [← Stack.length_items, ← Stack.length_items, hitems, List.length_set]
  refine ⟨{ t.toExecutionState with
    stack := stack
    host := (env.host (.getBalance x.toAddress) t.host).2
    calls := t.calls ++ [⟨.getBalance x.toAddress,
      (env.host (.getBalance x.toAddress) t.host).1⟩] },
    ?_, h.context, h.gas, hheight.trans h.height, h.outputSize⟩
  unfold Instructions.balance Instructions.accountQuery
  simp only [hcold, pure_bind]
  show ((handle env (.peek 0) t.toExecutionState).bind _) = _
  simp only [handle, hpeek, Outcome.bind]
  show ((handle env (.request (.getBalance x.toAddress)) t.toExecutionState).bind _) = _
  simp only [handle, Outcome.bind]
  show ((handle env (.poke 0 (env.host (.getBalance x.toAddress) t.host).1) _).bind _) = _
  simp only [handle, hpoke, Outcome.bind]
  rfl

section LongBlock

variable {i : Invocation σ} {done rest : List Decoded} {d : Decoded} {t : AdvancedExecutionState σ}

/-- One round of the loop in code that is a single block. -/
theorem step_in_block (hblock : blocksOf (decode i.ctx.code.bytes) = [done ++ d :: rest])
    {op : Opcode} (hd : d.opcode ≠ Opcode.jumpdest.toByte) (hop : op ≠ .jumpdest)
    (hfn : (opTable i.ctx.rev d.opcode).fn = some (instructionImplementations op)) :
    ∃ arg, Advanced.step i.env (analysisOf i)
        (.running (1 + (entriesOf i.ctx.rev 0 0 done).length) t) =
      some (ofResult t.currentBlockCost
        ((exec (analysisOf i) t.currentBlockCost t.toContext (instructionImplementations op) arg
          (1 + (entriesOf i.ctx.rev 0 0 done).length)).run i.env t.toExecutionState)) := by
  have hentry : (analyze i.ctx.rev i.ctx.code.bytes).instrs[(tableOf i.ctx.rev 0 []).length + 1 +
      (entriesOf i.ctx.rev 0 0 done).length]? = some _ := getElem?_instrs_inBlock hblock hd
  rw [tableOf, List.length_nil, Nat.zero_add, hfn] at hentry
  refine ⟨argOf (baseCost i.ctx.rev (done ++ [d])) (pushValuesOf ([].flatten ++ done)).length d, ?_⟩
  rw [Advanced.step, analysisOf, hentry]
  exact congrArg some (dispatch_op _ _ hop _ _ _)

theorem length_entriesOf_snoc (rev : Revision) (hd : d.opcode ≠ Opcode.jumpdest.toByte) :
    (entriesOf rev 0 0 (done ++ [d])).length = (entriesOf rev 0 0 done).length + 1 := by
  rw [entriesOf_append, List.length_append]
  simp only [entriesOf, entryOf, if_neg hd, List.append_nil, List.length_singleton]

/-- The run through the rest of the long block reaches the final STOP. -/
theorem InLongBlock.ends (hrev : i.ctx.rev = .istanbul)
    (hrest : ∀ x ∈ rest, x.opcode = Opcode.balance.toByte) (ht : InLongBlock i t)
    (hblock : blocksOf (decode i.ctx.code.bytes) = [done ++ rest]) :
    ∃ t', Ends (Advanced.step i.env (analysisOf i))
        (.running (1 + (entriesOf i.ctx.rev 0 0 done).length) t) (.halted t') ∧
      t'.status = .success ∧ t'.gasLeft = 0 ∧ t'.outputSize = 0 := by
  -- each BALANCE is already paid for by the block, so every step leaves the gas at zero
  induction rest generalizing done t with
  | nil =>
      rw [List.append_nil] at hblock
      have hend : (analyze i.ctx.rev i.ctx.code.bytes).instrs[_]? = _ := getElem?_instrs_end
      have hlength : (tableOf i.ctx.rev 0 []).length + 1 + (entriesOf i.ctx.rev 0 0 done).length =
          (tableOf i.ctx.rev 0 [done]).length := length_tableOf_done
      rw [tableOf, List.length_nil, Nat.zero_add] at hlength
      rw [hblock, ← hlength] at hend
      refine ⟨⟨{ t.toExecutionState with status := .success }, t.currentBlockCost⟩,
        ends_of_step_halted ?_, rfl, ht.gas, ht.outputSize⟩
      rw [Advanced.step, analysisOf, hend]
      rfl
  | cons d rest ih =>
      have hbalance := hrest d List.mem_cons_self
      have hd : d.opcode ≠ Opcode.jumpdest.toByte := by
        rw [hbalance]
        decide
      have hfn : (opTable i.ctx.rev d.opcode).fn = some (instructionImplementations .balance) := by
        rw [hbalance, hrev]
        rfl
      obtain ⟨arg, hstep⟩ := step_in_block (t := t) hblock hd (by decide) hfn
      obtain ⟨s, hrun, hs⟩ := ht.run_balance hrev i.env (1 + (entriesOf i.ctx.rev 0 0 done).length)
      have hnext : blocksOf (decode i.ctx.code.bytes) = [(done ++ [d]) ++ rest] := by
        rw [hblock, List.append_assoc]
        rfl
      obtain ⟨t', hends, hresult⟩ := ih (fun x hx => hrest x (List.mem_cons_of_mem d hx)) hs hnext
      rw [length_entriesOf_snoc i.ctx.rev hd] at hends
      refine ⟨t', .head hstep ?_, hresult⟩
      show Ends _ (ofResult t.currentBlockCost ((next _
          (Instructions.balance t.toContext)).run i.env t.toExecutionState)) _
      rw [hrun]
      exact hends

/-- The requirements of the long block. -/
theorem requirements_decode_balances (n : Nat) :
    baseCost .istanbul (decode (balances n)) = 2 + 700 * n ∧
      stackRequired .istanbul (decode (balances n)) ≤ 0 ∧
      maxGrowth .istanbul (decode (balances n)) ≤ 1 := by
  obtain ⟨d, ds, hdecode, hd, hlength, hds⟩ := decode_balances n
  obtain ⟨hcost, hrequired, hgrowth⟩ := balances_requirements hds
  have haddress : costOf .istanbul d = 2 ∧ requiredBy .istanbul d = 0 ∧
      changeOf .istanbul d = 1 := by
    unfold costOf requiredBy changeOf
    rw [hd]
    decide
  rw [hdecode, baseCost, stackRequired, maxGrowth, hcost, hgrowth, hlength, haddress.1,
    haddress.2.1, haddress.2.2]
  omega

/-- ADDRESS at the start of the long block. -/
theorem run_address (hgas : t.gasLeft = 0) (hheight : t.stack.height = 0)
    (hcontext : t.toContext = i.ctx) (hout : t.outputSize = 0) (env : Env σ) (ip : Nat) :
    ∃ s, (next ip (Instructions.address t.toContext)).run env t.toExecutionState = .ok (ip + 1) s ∧
      InLongBlock i ⟨s, t.currentBlockCost⟩ := by
  have hroom : t.stack.height < Stack.limit := by
    rw [hheight]
    decide
  obtain ⟨stack, hpush, hitems⟩ :=
    Stack.push?_of_lt hroom (UInt256.ofAddress t.toContext.msg.recipient)
  have hone : stack.height = 1 := by
    rw [← Stack.length_items, hitems, List.length_cons, Stack.length_items, hheight]
  refine ⟨{ t.toExecutionState with stack := stack }, ?_, hcontext, hgas, hone, hout⟩
  unfold Instructions.address
  show ((handle env (.push _) t.toExecutionState).bind _) = _
  simp only [handle, hpush, Outcome.bind]
  rfl

/-- Advanced accepts the long block with a gas of `2 ^ 32 - 1`, however long it is. -/
theorem ends_of_long_block {n : Nat} (hrev : i.ctx.rev = .istanbul)
    (hcode : i.ctx.code.bytes = balances n) (hgas : i.ctx.msg.gas = 2 ^ 32 - 1)
    (hcost : 2 ^ 32 - 1 < 2 + 700 * n) (hsize : n + 1 < 2 ^ 30) :
    ∃ t, Ends (Advanced.step i.env (analysisOf i)) (Advanced.start i) (.halted t) ∧
      t.status = .success ∧ t.gasLeft = 0 ∧ t.outputSize = 0 := by
  obtain ⟨hbase, hrequired, hgrowth⟩ := requirements_decode_balances n
  obtain ⟨d, ds, hdecode, hd, hlength, hds⟩ := decode_balances n
  have hblock : blocksOf (decode i.ctx.code.bytes) = [[] ++ d :: ds] := by
    rw [hcode, blocksOf_balances, hdecode, List.nil_append]
  have hbegin : (analyze i.ctx.rev i.ctx.code.bytes).instrs[(tableOf i.ctx.rev 0 []).length]? =
      some (beginblockOf i.ctx.rev (d :: ds)) := getElem?_instrs_of_append hblock
  have hlt : (d :: ds).length < 2 ^ 30 := by
    rw [List.length_cons, hlength]
    exact hsize
  have hheight : stackRequired .istanbul (d :: ds) ≤ (0 : Nat) ∧
      (0 : Nat) + maxGrowth .istanbul (d :: ds) ≤ 1024 := by
    rw [← hdecode]
    omega
  have hstack := (stack_check_iff .istanbul 0 hlt (Nat.zero_le 1024)).2 hheight
  -- the block costs more than 32 bits hold, so it is recorded, and paid, as 2^32 - 1
  have hclamped : ((summarize .istanbul 0 (d :: ds)).close.gasCost : Int) = 2 ^ 32 - 1 := by
    rw [close_gasCost, ← hdecode, hbase]
    omega
  let s0 : AdvancedExecutionState σ := ⟨i.newState, 0⟩
  let info := (summarize .istanbul 0 (d :: ds)).close
  have hpaid : toInt64 (i.newState.gasLeft - info.gasCost) = 0 := by
    show toInt64 (i.ctx.msg.gas - info.gasCost) = 0
    rw [hgas, hclamped]
    rfl
  have hstep : Advanced.step i.env (analysisOf i) (Advanced.start i) =
      some (.running 1 ⟨i.newState.setGas (i.newState.gasLeft - info.gasCost), info.gasCost⟩) := by
    rw [tableOf, List.length_nil] at hbegin
    rw [Advanced.start, Advanced.step, analysisOf, hbegin, hrev]
    show some (opxBeginblock info 0 s0) = _
    rcases opxBeginblock_cases info 0 s0 with ⟨status, -, -, hnot⟩ | ⟨hrun, -⟩
    · exact absurd ⟨hpaid.ge, hstack⟩ hnot
    · rw [hrun]
  have hne : d.opcode ≠ Opcode.jumpdest.toByte := by
    rw [hd]
    decide
  have hfn : (opTable i.ctx.rev d.opcode).fn = some (instructionImplementations .address) := by
    rw [hd, hrev]
    rfl
  obtain ⟨arg, haddress⟩ := step_in_block hblock hne (by decide) hfn
    (t := ⟨i.newState.setGas (i.newState.gasLeft - info.gasCost), info.gasCost⟩)
  obtain ⟨s, hrun, hs⟩ := run_address (i := i)
    (t := ⟨i.newState.setGas (i.newState.gasLeft - info.gasCost), info.gasCost⟩) hpaid rfl rfl rfl
    i.env 1
  have hnext : blocksOf (decode i.ctx.code.bytes) = [([] ++ [d]) ++ ds] := by
    rw [hblock]
    rfl
  obtain ⟨t', hends, hresult⟩ := hs.ends hrev hds hnext
  rw [length_entriesOf_snoc i.ctx.rev hne] at hends
  refine ⟨t', .head hstep (.head haddress ?_), hresult⟩
  show Ends _ (ofResult info.gasCost ((next 1 (Instructions.address _)).run i.env _)) _
  rw [hrun]
  exact hends

end LongBlock

/-- The long block as an invocation. -/
def longBlock (n : Nat) (h : n + 1 < 2 ^ 63) : Invocation Unit :=
  simpleInvocation .istanbul
    ⟨balances n, by rw [balances, List.length_cons, List.length_replicate]; exact h⟩ (2 ^ 32 - 1) 0

theorem firstBlock_longBlock (n : Nat) : firstBlock (balances n) = decode (balances n) := by
  have hblocks := blocksOf_balances n
  unfold blocksOf at hblocks
  injection hblocks

/-- A long block that costs more than the gas fails in Baseline and succeeds in Advanced. -/
theorem longBlock_results {n : Nat} (h : n + 1 < 2 ^ 63) (hcost : 2 ^ 32 - 1 < 2 + 700 * n)
    (hsize : n + 1 < 2 ^ 30) :
    ∃ s t r r', .halted s ∈ Baseline.execute (longBlock n h) ∧
      .halted t ∈ Advanced.execute (longBlock n h) ∧ makeResult s = some r ∧
      makeResult t.toExecutionState = some r' ∧ ¬ r.status.keepsGas ∧ r'.status = .success := by
  have hshort : (longBlock n h).ctx.msg.gas <
      baseCost (longBlock n h).ctx.rev (firstBlock (longBlock n h).ctx.code.bytes) := by
    show (2 ^ 32 - 1 : Int) < baseCost .istanbul (firstBlock (balances n))
    rw [firstBlock_longBlock, (requirements_decode_balances n).1]
    omega
  obtain ⟨s, r, hs, hr, hfails⟩ :=
    Baseline.fails_of_short_first (i := longBlock n h) (show (0 : Int) ≤ 2 ^ 32 - 1 by omega)
      (show (2 ^ 32 - 1 : Int) < 2 ^ 63 by omega) emptyHost_callBounded emptyHost_copyFits hshort
  obtain ⟨t, hends, hstatus, -, hout⟩ :=
    ends_of_long_block (i := longBlock n h) rfl rfl rfl hcost hsize
  refine ⟨s, t, r, ⟨.success, t.gasLeft, []⟩, hs, ends_iff_mem_eval.1 hends, hr, ?_, hfails, rfl⟩
  unfold makeResult
  rw [hstatus, hout]
  rfl

theorem clamping_harmless_fails :
    ∃ h : 6135668 + 1 < 2 ^ 63,
      (longBlock 6135668 h).ctx.code.bytes.length < 2 ^ 30 ∧
      (longBlock 6135668 h).ctx.msg.gas = 2 ^ 32 - 1 ∧
      (longBlock 6135668 h).env.host.CallBounded ∧ (longBlock 6135668 h).env.host.CopyFits ∧
      ∃ s t r r', .halted s ∈ Baseline.execute (longBlock 6135668 h) ∧
        .halted t ∈ Advanced.execute (longBlock 6135668 h) ∧ makeResult s = some r ∧
        makeResult t.toExecutionState = some r' ∧ ¬ r.status.keepsGas ∧ r'.status = .success := by
  have hsize : 6135668 + 1 < 2 ^ 63 := by norm_num
  refine ⟨hsize, ?_, rfl, emptyHost_callBounded, emptyHost_copyFits,
    longBlock_results hsize (by norm_num) (by norm_num)⟩
  show (balances 6135668).length < 2 ^ 30
  rw [balances, List.length_cons, List.length_replicate]
  norm_num

end Ivmone
