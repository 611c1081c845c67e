import Ivmone.AdvancedSafety
import Ivmone.Lib.Runs

/-!
# Invariants of Advanced executions

Two invariants of the loop. The first one holds for code of any size: whatever entry of the table
is executed, the state follows from the initial one by instructions that meet their specifications.
The second one, for code of less than `2 ^ 30` bytes, also says where in the blocks of the code the
instruction pointer is, and that the stack has what the rest of the block requires.
-/

set_option autoImplicit false

namespace Ivmone.Advanced

open Lib Instructions

variable {σ : Type}

/-! ## One round of the loop -/

theorem instructionImplementations_ne_beginblock {op : Opcode} (hop : op ≠ .jumpdest) :
    instructionImplementations op ≠ .opxBeginblock := by
  cases op with
  | jumpdest => exact absurd rfl hop
  | push n =>
      simp only [instructionImplementations]
      split <;> exact fun h => by cases h
  | _ => exact fun h => by cases h

theorem dispatch_op (env : Env σ) (analysis : AdvancedCodeAnalysis) {op : Opcode}
    (hop : op ≠ .jumpdest) (arg : Argument) (ip : Nat) (s : AdvancedExecutionState σ) :
    dispatch env analysis { fn := some (instructionImplementations op), arg := arg } ip s =
      ofResult s.currentBlockCost
        ((exec analysis s.currentBlockCost s.toContext (instructionImplementations op)
          arg ip).run env s.toExecutionState) := by
  have hne := instructionImplementations_ne_beginblock hop
  generalize instructionImplementations op = fn at hne
  cases fn with
  | opxBeginblock => exact absurd rfl hne
  | _ => rfl

/-- A BEGINBLOCK fails, or the requirements of the block are there. -/
theorem opxBeginblock_cases (block : BlockInfo) (ip : Nat) (s : AdvancedExecutionState σ) :
    (∃ status, ¬ status.keepsGas ∧
      opxBeginblock block ip s =
        .halted ⟨{ s.setGas (s.gasLeft - block.gasCost) with status := status },
          s.currentBlockCost⟩ ∧
      ¬ (0 ≤ toInt64 (s.gasLeft - block.gasCost) ∧ block.stackReq ≤ s.stack.height ∧
        s.stack.height + block.stackMaxGrowth ≤ 1024)) ∨
    (opxBeginblock block ip s =
        .running (ip + 1) ⟨s.setGas (s.gasLeft - block.gasCost), block.gasCost⟩ ∧
      0 ≤ toInt64 (s.gasLeft - block.gasCost) ∧ block.stackReq ≤ s.stack.height ∧
      s.stack.height + block.stackMaxGrowth ≤ 1024) := by
  have hgas : (s.setGas (s.gasLeft - block.gasCost)).gasLeft =
      toInt64 (s.gasLeft - block.gasCost) := rfl
  have hsize : (s.setGas (s.gasLeft - block.gasCost)).stack.size = s.stack.height := rfl
  have hlimit : Stack.limit = 1024 := rfl
  unfold opxBeginblock
  simp only [hgas, hsize, hlimit]
  -- the source tests gas, then underflow, then overflow
  by_cases h1 : toInt64 (s.gasLeft - block.gasCost) < 0
  · rw [if_pos h1]
    exact .inl ⟨.outOfGas, by decide, rfl, by omega⟩
  · rw [if_neg h1]
    by_cases h2 : (s.stack.height : Int) < block.stackReq
    · rw [if_pos h2]
      exact .inl ⟨.stackUnderflow, by decide, rfl, by omega⟩
    · rw [if_neg h2]
      by_cases h3 : ((1024 : Nat) : Int) < s.stack.height + block.stackMaxGrowth
      · rw [if_pos h3]
        exact .inl ⟨.stackOverflow, by decide, rfl, by omega⟩
      · rw [if_neg h3]
        exact .inr ⟨rfl, by omega, by omega, by omega⟩

/-- What a round of the loop can do: it faults, begins a block, or calls the function of an
entry. -/
theorem step_inv {env : Env σ} {analysis : AdvancedCodeAnalysis} {ip : Nat}
    {s : AdvancedExecutionState σ} {c : Config (AdvancedExecutionState σ)}
    (h : step env analysis (.running ip s) = some c) :
    (∃ f, c = .fault f ∧ (f = .instrPosition ∨ f = .nullFunction ∨ f = .argument)) ∨
    (∃ info, analysis.instrs[ip]? = some { fn := some .opxBeginblock, arg := .block info } ∧
      c = opxBeginblock info ip s) ∨
    ∃ fn arg, analysis.instrs[ip]? = some { fn := some fn, arg := arg } ∧ fn ≠ .opxBeginblock ∧
      c = ofResult s.currentBlockCost
        ((exec analysis s.currentBlockCost s.toContext fn arg ip).run env s.toExecutionState) := by
  simp only [step, Option.some.injEq] at h
  cases hinstr : analysis.instrs[ip]? with
  | none =>
      rw [hinstr] at h
      exact .inl ⟨.instrPosition, h.symm, .inl rfl⟩
  | some instr =>
      rw [hinstr] at h
      obtain ⟨fn, arg⟩ := instr
      dsimp only [dispatch] at h
      split at h
      · -- a byte without an implementation, then `opx_beginblock` with its block, then
        -- `opx_beginblock` with another argument, then every other entry
        exact .inl ⟨.nullFunction, h.symm, .inr (.inl rfl)⟩
      · rename_i info
        exact .inr (.inl ⟨info, rfl, h.symm⟩)
      · exact .inl ⟨.argument, h.symm, .inr (.inr rfl)⟩
      · rename_i fn' hne _
        exact .inr (.inr ⟨fn', arg, rfl, hne, h.symm⟩)

/-- A round of the loop never forgets a call. -/
theorem step_calls {env : Env σ} {analysis : AdvancedCodeAnalysis} {ip : Nat}
    {s : AdvancedExecutionState σ} {c : Config (AdvancedExecutionState σ)}
    (h : step env analysis (.running ip s) = some c) :
    c.StateMeets fun s' => ∀ x ∈ s.calls, x ∈ s'.calls := by
  rcases step_inv h with ⟨f, rfl, -⟩ | ⟨info, -, rfl⟩ | ⟨fn, arg, -, -, rfl⟩
  · trivial
  · rcases opxBeginblock_cases info ip s with ⟨status, -, heq, -⟩ | ⟨heq, -⟩
    · rw [heq]
      exact fun _ => id
    · rw [heq]
      exact fun _ => id
  · have hrun := run_calls env (exec analysis s.currentBlockCost s.toContext fn arg ip)
      s.toExecutionState
    generalize (exec analysis s.currentBlockCost s.toContext fn arg ip).run env
      s.toExecutionState = r at hrun
    cases r with
    | ok ip' s' => exact hrun
    | exit status s' => exact hrun
    | fault f => trivial

/-! ## Gas -/

/-- The gas left and the cost of the current block are within the gas of the execution. -/
structure Budget (rules : Rules) (s : AdvancedExecutionState σ) : Prop where
  total : rules.metered → s.gasLeft + s.currentBlockCost ≤ rules.ceiling
  cost : rules.metered → (s.currentBlockCost : Int) ≤ 2 ^ 32 - 1

section Meets

variable {i : Invocation σ} {rules : Rules} {s : AdvancedExecutionState σ}

/-- The configurations after the function of an instruction. -/
theorem meets_ofResult {known : Prop} {change : Int} {next : Nat → Prop} {t : ExecutionState σ}
    {r : Result σ Nat} (hs : Running i rules s.toExecutionState) (hb : Budget rules s)
    (hr : StepsFrom i.env rules known change next t s.toExecutionState r) :
    (ofResult s.currentBlockCost r).Meets
      (fun ip s' => (rules.metered ∧ Derailed i.env t s'.toExecutionState) ∨
        (next ip ∧ Running i rules s'.toExecutionState ∧ Budget rules s' ∧
          s'.currentBlockCost = s.currentBlockCost ∧
          Continues rules known change s.toExecutionState s'.toExecutionState))
      (fun s' => (rules.metered ∧ Derailed i.env t s'.toExecutionState) ∨
        Halted i rules s'.toExecutionState)
      (Excused rules known) := by
  cases r with
  | ok ip s' =>
      rcases hr with hd | ⟨hnext, hcont⟩
      · exact .inl hd
      · refine .inr ⟨hnext, hs.continues hcont, ⟨fun hm => ?_, hb.cost⟩, rfl, hcont⟩
        have h1 := hb.total hm
        have h2 := hcont.gas hm
        -- the block's cost is unchanged, so the total can only drop with the gas
        show s'.gasLeft + s.currentBlockCost ≤ rules.ceiling
        omega
  | exit status s' =>
      rcases hr with ⟨hm, hd⟩ | hleaves
      · exact .inl ⟨hm, hd.mono fun _ => id⟩
      · exact .inr (hs.leaves hleaves)
  | fault f => exact hr

/-- The configurations after a BEGINBLOCK. -/
theorem meets_opxBeginblock {info : BlockInfo} (hs : Running i rules s.toExecutionState)
    (hcost : (info.gasCost : Int) ≤ 2 ^ 32 - 1) (ip : Nat) :
    (opxBeginblock info ip s).Meets
      (fun ip' s' => ip' = ip + 1 ∧ Running i rules s'.toExecutionState ∧ Budget rules s' ∧
        s'.currentBlockCost = info.gasCost ∧ s'.stack = s.stack ∧
        (rules.metered → s'.gasLeft = s.gasLeft - info.gasCost) ∧
        info.stackReq ≤ s.stack.height ∧ s.stack.height + info.stackMaxGrowth ≤ 1024)
      (fun s' => Halted i rules s'.toExecutionState)
      (fun _ => False) := by
  have h0 : (0 : Int) ≤ info.gasCost := Int.natCast_nonneg _
  rcases opxBeginblock_cases info ip s with ⟨status, hstatus, heq, -⟩ | ⟨heq, hgas, hreq, hgrowth⟩
  · rw [heq]
    refine ⟨(hs.follows.trans (hs.follows_setGas h0 (by omega))).congr rfl rfl rfl rfl rfl, ?_, ?_⟩
    · exact fun hne => absurd hs.outputSize hne
    · exact fun hkeeps => absurd hkeeps hstatus
  · rw [heq]
    have hleft : rules.metered → (s.setGas (s.gasLeft - info.gasCost)).gasLeft =
        s.gasLeft - info.gasCost := hs.setGas_gasLeft h0 (by omega)
    refine ⟨rfl, hs.setGas h0 (by omega) hgas, ⟨fun hm => ?_, fun _ => hcost⟩, rfl,
      rfl, hleft, hreq, hgrowth⟩
    -- what the block deducts is what its cost records, so the total is still the old gas
    have h1 := hleft hm
    have h2 := (hs.follows.gas hm).1
    show (s.setGas (s.gasLeft - info.gasCost)).gasLeft + info.gasCost ≤ rules.ceiling
    omega

theorem Budget.correctable (hb : Budget rules s) (hs : Running i rules s.toExecutionState) {n : Int}
    (hn : rules.metered → 0 ≤ n ∧ n ≤ 2 ^ 32 - 1) :
    Correctable rules s.toExecutionState s.currentBlockCost n :=
  ⟨hb.total, hb.cost, hn, hs.gas⟩

end Meets

theorem budget_start {i : Invocation σ} {rules : Rules} (hp : Premises i rules) :
    Budget rules ⟨i.newState, 0⟩ := by
  refine ⟨fun hm => ?_, fun _ => by simp⟩
  show i.ctx.msg.gas + ((0 : Nat) : Int) ≤ rules.ceiling
  have := (hp.gas hm).2
  omega

/-! ## Any entry of the table -/

/-- A state by which every call that is not answered within its gas derails an execution. -/
def anchor (i : Invocation σ) : ExecutionState σ := { i.newState with gasLeft := -1 }

/-- The configurations of an execution of any code. -/
abbrev Valid (i : Invocation σ) (rules : Rules) : Config (AdvancedExecutionState σ) → Prop :=
  Config.Meets
    (fun _ s => (rules.metered ∧ Derailed i.env (anchor i) s.toExecutionState) ∨
      (Running i rules s.toExecutionState ∧ Budget rules s))
    (fun s => (rules.metered ∧ Derailed i.env (anchor i) s.toExecutionState) ∨
      Halted i rules s.toExecutionState)
    (fun f => Excused rules False f ∨ f = .instrPosition)

section Valid

variable {i : Invocation σ} {rules : Rules}

theorem gasCost_beginblockOf_le (rev : Revision) (b : List Decoded) :
    (((summarize rev 0 b).close.gasCost : Nat) : Int) ≤ 2 ^ 32 - 1 := by
  rw [close_gasCost]
  exact min_le_right _ _

theorem valid_dispatch (hp : Premises i rules)
    (hfit : rules.metered → BlockCostsFit i.ctx.rev i.ctx.code.bytes) {ip : Nat}
    {s : AdvancedExecutionState σ} (hs : Running i rules s.toExecutionState) (hb : Budget rules s)
    {instr : Instruction}
    (hentry : Entry i.ctx.rev (BlockCostsFit i.ctx.rev i.ctx.code.bytes) (analysisOf i).pushValues
      instr) :
    Valid i rules (dispatch i.env (analysisOf i) instr ip s) := by
  cases hentry with
  | beginblock b =>
      refine (meets_opxBeginblock hs (gasCost_beginblockOf_le _ b) ip).mono ?_ ?_ fun _ h => h.elim
      · exact fun ip' s' h => .inr ⟨h.2.1, h.2.2.1⟩
      · exact fun s' h => .inr h
  | undefined arg => exact .inr (hs.halted _)
  | op hop hjumpdest hdef hgas hfit' hvalue =>
      rw [dispatch_op _ _ hjumpdest]
      -- the anchor has no gas left, so nothing is promised about how far the run is from it
      have hanchor : ¬ 0 ≤ (anchor i).gasLeft := by
        show ¬ ((0 : Int) ≤ -1)
        decide
      refine (meets_ofResult hs hb (exec_steps (t := anchor i) hp.limit hp.reads hp.fits
        (hs.static hp) hop hjumpdest hvalue hs.startable (fun h => h.elim)
        (hb.correctable hs fun hm => ⟨hgas, hfit' (hfit hm)⟩) fun _ h => absurd h hanchor)).mono ?_
        (fun _ => id) fun f hf => .inl hf
      rintro ip' s' (hd | ⟨-, hs', hb', -⟩)
      · exact .inl hd
      · exact .inr ⟨hs', hb'⟩

/-- One round of the loop keeps the invariant. -/
theorem valid_step (hp : Premises i rules)
    (hfit : rules.metered → BlockCostsFit i.ctx.rev i.ctx.code.bytes)
    {c c' : Config (AdvancedExecutionState σ)} (hc : Valid i rules c)
    (h : step i.env (analysisOf i) c = some c') : Valid i rules c' := by
  cases c with
  | running ip s =>
      rcases hc with ⟨hm, hd⟩ | ⟨hs, hb⟩
      · have hcalls := step_calls h
        cases c' with
        | running ip' s' => exact .inl ⟨hm, hd.mono hcalls⟩
        | halted s' => exact .inl ⟨hm, hd.mono hcalls⟩
        | fault f => exact .inl (.inr (.inr hm))
      · simp only [step, Option.some.injEq] at h
        subst h
        cases hinstr : (analysisOf i).instrs[ip]? with
        | none => exact .inr rfl
        | some instr =>
            exact valid_dispatch hp hfit hs hb (entry_of_mem_instrs (List.mem_of_getElem? hinstr))
  | halted s => cases h
  | fault f => cases h

/-- Every configuration of an execution has the invariant. -/
theorem valid_of_reaches (hp : Premises i rules)
    (hfit : rules.metered → BlockCostsFit i.ctx.rev i.ctx.code.bytes)
    {c : Config (AdvancedExecutionState σ)}
    (h : StateTransition.Reaches (step i.env (analysisOf i)) (start i) c) : Valid i rules c :=
  invariant_of_reaches (fun _ _ => valid_step hp hfit) h (.inr ⟨hp.running, budget_start hp⟩)

end Valid

/-! ## Positions in the blocks -/

section Positions

variable {rev : Revision} {code : List Byte}

/-- The entry of an instruction of a block. -/
theorem getElem?_instrs_inBlock {closed : List (List Decoded)} {done : List Decoded} {d : Decoded}
    {rest : List Decoded} {post : List (List Decoded)}
    (hsplit : blocksOf (decode code) = closed ++ (done ++ d :: rest) :: post)
    (hd : d.opcode ≠ Opcode.jumpdest.toByte) :
    (analyze rev code).instrs[(tableOf rev 0 closed).length + 1 +
      (entriesOf rev 0 0 done).length]? = some {
        fn := (opTable rev d.opcode).fn
        arg := argOf (baseCost rev (done ++ [d])) (pushValuesOf
          (closed.flatten ++ done)).length d } := by
  have hlength : (entriesOf rev 0 0 done).length =
      (entriesOf rev 0 (pushValuesOf closed.flatten).length done).length :=
    length_entriesOf 0 0 0 _ done
  have hbase : baseCost rev (done ++ [d]) = 0 + baseCost rev done + costOf rev d := by
    rw [baseCost_append, baseCost, baseCost]
    omega
  -- skip the closed blocks, then the block's own first entry, then what is done of it
  rw [analyze_eq]
  simp only [hsplit, tableOf_append, tableOf, entriesOf_append, entriesOf, entryOf, if_neg hd]
  rw [List.append_assoc, List.getElem?_append_right (by omega), Nat.zero_add, hlength, hbase]
  have hindex : (tableOf rev 0 closed).length + 1 +
      (entriesOf rev 0 (pushValuesOf closed.flatten).length done).length -
        (tableOf rev 0 closed).length =
      (entriesOf rev 0 (pushValuesOf closed.flatten).length done).length + 1 := by omega
  rw [hindex]
  simp [pushValuesOf_append]

/-- The large push value of an instruction of a block. -/
theorem pushValueAt_inBlock {closed : List (List Decoded)} {done : List Decoded} {d : Decoded}
    {rest : List Decoded} {post : List (List Decoded)}
    (hsplit : blocksOf (decode code) = closed ++ (done ++ d :: rest) :: post) :
    PushValueAt (analyze rev code).pushValues (pushValuesOf (closed.flatten ++ done)).length d := by
  have hvalues : (analyze rev code).pushValues =
      pushValuesOf (closed.flatten ++ done) ++
        (largePushOf d ++ pushValuesOf (rest ++ post.flatten)) := by
    have hcons : pushValuesOf (d :: (rest ++ post.flatten)) =
        largePushOf d ++ pushValuesOf (rest ++ post.flatten) := rfl
    rw [← hcons, ← pushValuesOf_append, analyze_eq]
    simp only [ofBlocks, hsplit]
    simp
  rw [hvalues]
  exact pushValueAt_append _ d _

/-- The STOP after the last block. -/
theorem getElem?_instrs_end :
    (analyze rev code).instrs[(tableOf rev 0 (blocksOf (decode code))).length]? =
      some { fn := some .opStop } := by
  rw [analyze_eq]
  simp

variable (rev code)

/-- Where the instruction pointer is, for the cost of the current block and the height of the
stack: at a BEGINBLOCK; at an instruction of a block, the rest of which has what it requires; or at
the STOP after the last block. -/
inductive Located : Nat → Nat → Nat → Prop
  | atBlock {closed : List (List Decoded)} {b : List Decoded} {post : List (List Decoded)}
      {cost height : Nat} (hsplit : blocksOf (decode code) = closed ++ b :: post) :
      Located (tableOf rev 0 closed).length cost height
  | inBlock {closed : List (List Decoded)} {done : List Decoded} {d : Decoded} {rest : List Decoded}
      {post : List (List Decoded)} {cost height : Nat}
      (hsplit : blocksOf (decode code) = closed ++ (done ++ d :: rest) :: post)
      (hd : d.opcode ≠ Opcode.jumpdest.toByte)
      (hcost : (cost : Int) = min (baseCost rev (done ++ d :: rest)) (2 ^ 32 - 1))
      (hrequired : stackRequired rev (d :: rest) ≤ height)
      (hgrowth : height + maxGrowth rev (d :: rest) ≤ 1024) :
      Located ((tableOf rev 0 closed).length + 1 + (entriesOf rev 0 0 done).length) cost height
  | atEnd {cost height : Nat} : Located (tableOf rev 0 (blocksOf (decode code))).length cost height

variable {rev code}

/-- After the instructions `done` of a block: a JUMPDEST has no entry, and at the end of the block
the next entry is that of the next block or the last STOP. -/
theorem Located.of_split {closed : List (List Decoded)} {done rest : List Decoded}
    {post : List (List Decoded)} {cost height : Nat}
    (hsplit : blocksOf (decode code) = closed ++ (done ++ rest) :: post)
    (hcost : (cost : Int) = min (baseCost rev (done ++ rest)) (2 ^ 32 - 1))
    (hrequired : stackRequired rev rest ≤ height) (hgrowth : height + maxGrowth rev rest ≤ 1024) :
    Located rev code ((tableOf rev 0 closed).length + 1 + (entriesOf rev 0 0 done).length) cost
      height := by
  -- by induction on what is left of the block: only a JUMPDEST leaves no entry behind, so
  -- only there the position stands still
  induction rest generalizing done with
  | nil =>
      rw [List.append_nil] at hsplit
      -- the block is used up, so the position is where the next one is written
      have hnext : (tableOf rev 0 closed).length + 1 + (entriesOf rev 0 0 done).length =
          (tableOf rev 0 (closed ++ [done])).length := by
        rw [tableOf_append_singleton, List.length_append, List.length_cons,
          length_entriesOf 0 0 0 (pushValuesOf closed.flatten).length]
        omega
      rw [hnext]
      cases post with
      | nil =>
          rw [← hsplit]
          exact .atEnd
      | cons b post =>
          have hsplit' : blocksOf (decode code) = closed ++ [done] ++ b :: post := by
            rw [hsplit, List.append_assoc]
            rfl
          exact .atBlock hsplit'
  | cons d rest ih =>
      by_cases hd : d.opcode = Opcode.jumpdest.toByte
      · have hentries : entriesOf rev 0 0 (done ++ [d]) = entriesOf rev 0 0 done := by
          simp [entriesOf_append, entriesOf, entryOf, hd]
        have happend : done ++ d :: rest = done ++ [d] ++ rest := by simp
        obtain ⟨-, hreq, hchange⟩ := jumpdest_requirements rev hd
        rw [happend] at hsplit hcost
        rw [stackRequired, hreq, hchange] at hrequired
        rw [maxGrowth, hchange] at hgrowth
        rw [← hentries]
        exact ih hsplit hcost (by omega) (by omega)
      · exact .inBlock hsplit hd hcost hrequired hgrowth

end Positions

/-! ## Executions by blocks -/

/-- The configurations of an execution of code of less than `2 ^ 30` bytes. -/
abbrev BlockValid (i : Invocation σ) (rules : Rules) : Config (AdvancedExecutionState σ) → Prop :=
  Config.Meets
    (fun ip s => (rules.metered ∧ Derailed i.env i.newState s.toExecutionState) ∨
      (Running i rules s.toExecutionState ∧ Budget rules s ∧
        Located i.ctx.rev i.ctx.code.bytes ip s.currentBlockCost s.stack.height))
    (fun s => (rules.metered ∧ Derailed i.env i.newState s.toExecutionState) ∨
      Halted i rules s.toExecutionState)
    (Excused rules True)

section BlockValid

variable {i : Invocation σ} {rules : Rules} {s : AdvancedExecutionState σ}

/-- The blocks of code of less than `2 ^ 30` bytes have fewer instructions than that. -/
theorem length_lt_of_split {code : List Byte} (hsize : code.length < 2 ^ 30)
    {closed : List (List Decoded)} {b : List Decoded} {post : List (List Decoded)}
    (hsplit : blocksOf (decode code) = closed ++ b :: post) : b.length < 2 ^ 30 := by
  have hflatten := flatten_blocksOf (decode code)
  have hlength := length_decode_le code
  rw [hsplit] at hflatten
  have hle : b.length ≤ (decode code).length := by
    rw [← hflatten]
    simp
    omega
  omega

/-- A jump leads to the BEGINBLOCK of a block that starts with a JUMPDEST. -/
theorem JumpedTo.exists_block {rev : Revision} {code : List Byte} (hsize : code.length < 2 ^ 30)
    {ip : Nat} (h : JumpedTo (analyze rev code) ip) :
    ∃ closed d b post, blocksOf (decode code) =
        closed ++ (instructionAt code d Opcode.jumpdest.toByte :: b) :: post ∧
      ip = (tableOf rev 0 closed).length := by
  obtain ⟨d, -, hfind⟩ := h
  rcases @findJumpdest_cases rev code hsize d with ⟨index, hmem, heq⟩ | ⟨-, heq⟩
  · obtain ⟨closed, b, post, hsplit, hindex⟩ := exists_block_of_mem_jumpdests hmem
    exact ⟨closed, d, b, post, hsplit, by omega⟩
  · omega

/-- The instruction pointer stays in the blocks. -/
theorem Located.next {rev : Revision} {code : List Byte} (hsize : code.length < 2 ^ 30)
    {closed : List (List Decoded)} {done : List Decoded} {d : Decoded} {rest : List Decoded}
    {post : List (List Decoded)} {op : Opcode} {ip' cost height : Nat}
    (hsplit : blocksOf (decode code) = closed ++ (done ++ d :: rest) :: post)
    (hd : d.opcode ≠ Opcode.jumpdest.toByte)
    (hcost : (cost : Int) = min (baseCost rev (done ++ d :: rest)) (2 ^ 32 - 1))
    (hrequired : stackRequired rev (d :: rest) ≤ height - changeOf rev d)
    (hgrowth : height - changeOf rev d + maxGrowth rev (d :: rest) ≤ 1024)
    (hnext : NextEntry (analyze rev code)
      ((tableOf rev 0 closed).length + 1 + (entriesOf rev 0 0 done).length) op ip') :
    Located rev code ip' cost height := by
  rcases hnext with ⟨-, -, rfl⟩ | ⟨-, hjumped⟩
  · have happend : done ++ d :: rest = done ++ [d] ++ rest := by simp
    have hentries : (entriesOf rev 0 0 done).length + 1 =
        (entriesOf rev 0 0 (done ++ [d])).length := by
      simp [entriesOf_append, entriesOf, entryOf, hd]
    rw [happend] at hsplit hcost
    rw [stackRequired] at hrequired
    rw [maxGrowth] at hgrowth
    rw [Nat.add_assoc, hentries]
    exact .of_split hsplit hcost (by omega) (by omega)
  · obtain ⟨closed', d', b', post', hsplit', rfl⟩ := hjumped.exists_block hsize
    exact .atBlock hsplit'

/-- The instruction of a block whose rest has what it requires. -/
theorem meets_inBlock (hp : Premises i rules)
    (hfit : rules.metered → BlockCostsFit i.ctx.rev i.ctx.code.bytes)
    (hs : Running i rules s.toExecutionState) (hb : Budget rules s)
    {closed : List (List Decoded)} {done : List Decoded} {d : Decoded} {rest : List Decoded}
    {post : List (List Decoded)}
    (hsplit : blocksOf (decode i.ctx.code.bytes) = closed ++ (done ++ d :: rest) :: post)
    (hd : d.opcode ≠ Opcode.jumpdest.toByte)
    (hcost : (s.currentBlockCost : Int) = min (baseCost i.ctx.rev (done ++ d :: rest)) (2 ^ 32 - 1))
    (hrequired : requiredBy i.ctx.rev d ≤ s.stack.height)
    (hroom : s.stack.height + changeOf i.ctx.rev d ≤ 1024) {op : Opcode}
    (hop : Opcode.ofByte d.opcode = some op)
    (hreq : requiredBy i.ctx.rev d = (instr.traits op).stackHeightRequired)
    (hchange : changeOf i.ctx.rev d = (instr.traits op).stackHeightChange) (ip : Nat) :
    StepsFrom i.env rules True (changeOf i.ctx.rev d) (NextEntry (analysisOf i) ip op) i.newState
      s.toExecutionState
      ((exec (analysisOf i) s.currentBlockCost s.toContext (instructionImplementations op)
        (argOf (baseCost i.ctx.rev (done ++ [d])) (pushValuesOf (closed.flatten ++ done)).length d)
        ip).run i.env s.toExecutionState) := by
  have hjumpdest : op ≠ .jumpdest := by
    intro h
    exact hd (by rw [toByte_of_ofByte hop, h])
  have hnonneg := baseCost_nonneg i.ctx.rev (done ++ [d])
  have hrest := baseCost_nonneg i.ctx.rev rest
  have hsum : baseCost i.ctx.rev (done ++ d :: rest) =
      baseCost i.ctx.rev (done ++ [d]) + baseCost i.ctx.rev rest := by
    rw [← baseCost_append, List.append_assoc]
    rfl
  -- the cost of the whole block fits, so the part that a correction adds back does too
  have hle : rules.metered → baseCost i.ctx.rev (done ++ d :: rest) ≤ 2 ^ 32 - 1 := fun hm =>
    hfit hm _ (by rw [hsplit]; simp)
  rw [hchange]
  refine exec_steps hp.limit hp.reads hp.fits (hs.static hp) hop hjumpdest
    (pushValueAt_inBlock hsplit) hs.startable (fun _ => ⟨by omega, by omega⟩)
    (hb.correctable hs fun hm => ⟨hnonneg, ?_⟩) fun hm h0 => ⟨hs.gas hm, ?_⟩
  · have := hle hm
    omega
  · have := hle hm
    omega

/-- The gas cost of the BEGINBLOCK at an instruction pointer, and 0 for any other entry. -/
def pendingCost (analysis : AdvancedCodeAnalysis) (ip : Nat) : Nat :=
  match analysis.instrs[ip]? with
  | some { fn := some .opxBeginblock, arg := .block info } => info.gasCost
  | _ => 0

/-- A round of the loop goes to the next entry, and a BEGINBLOCK is paid for; or it jumps to a
BEGINBLOCK that costs something. -/
def Progress (analysis : AdvancedCodeAnalysis) (ip : Nat) (gas : Int) (ip' : Nat) (gas' : Int) :
    Prop :=
  (ip' = ip + 1 ∧ gas' ≤ gas - pendingCost analysis ip) ∨
    (pendingCost analysis ip = 0 ∧ gas' ≤ gas ∧ 1 ≤ pendingCost analysis ip')

theorem pendingCost_beginblock {analysis : AdvancedCodeAnalysis} {ip : Nat} {rev : Revision}
    {b : List Decoded} (h : analysis.instrs[ip]? = some (beginblockOf rev b)) :
    (pendingCost analysis ip : Int) = min (baseCost rev b) (2 ^ 32 - 1) := by
  rw [← close_gasCost rev 0]
  simp only [pendingCost, h, beginblockOf]

theorem pendingCost_op {analysis : AdvancedCodeAnalysis} {ip : Nat} {op : Opcode} {arg : Argument}
    (h : analysis.instrs[ip]? = some { fn := some (instructionImplementations op), arg := arg })
    (hop : op ≠ .jumpdest) : pendingCost analysis ip = 0 := by
  have hne := instructionImplementations_ne_beginblock hop
  unfold pendingCost
  rw [h]
  split
  · rename_i info heq
    simp only [Option.some.injEq, Instruction.mk.injEq] at heq
    exact absurd heq.1 hne
  · rfl

/-- What an instruction that continues has done to the gas and the instruction pointer. -/
theorem NextEntry.progress {rev : Revision} {code : List Byte} (hsize : code.length < 2 ^ 30)
    {ip ip' : Nat} {op : Opcode} {gas gas' : Int} (h : NextEntry (analyze rev code) ip op ip')
    (hpending : pendingCost (analyze rev code) ip = 0) (hgas : gas' ≤ gas) :
    Progress (analyze rev code) ip gas ip' gas' := by
  rcases h with ⟨-, -, rfl⟩ | ⟨-, hjumped⟩
  · exact .inl ⟨rfl, by omega⟩
  · obtain ⟨closed, d, b, post, hsplit, rfl⟩ := hjumped.exists_block hsize
    have hcost : (pendingCost (analyze rev code) (tableOf rev 0 closed).length : Int) = _ :=
      pendingCost_beginblock (getElem?_instrs_of_append hsplit)
    have hjumpdest : costOf rev (instructionAt code d Opcode.jumpdest.toByte) = 1 :=
      (jumpdest_requirements rev rfl).1
    have hrest := baseCost_nonneg rev b
    rw [baseCost, hjumpdest] at hcost
    exact .inr ⟨hpending, hgas, by omega⟩

/-- One round of the loop from a position in the blocks. -/
theorem meets_dispatch (hp : Premises i rules)
    (hfit : rules.metered → BlockCostsFit i.ctx.rev i.ctx.code.bytes)
    (hsize : i.ctx.code.bytes.length < 2 ^ 30) {ip : Nat}
    (hs : Running i rules s.toExecutionState) (hb : Budget rules s)
    (hloc : Located i.ctx.rev i.ctx.code.bytes ip s.currentBlockCost s.stack.height) :
    ∃ instr, (analysisOf i).instrs[ip]? = some instr ∧
      (dispatch i.env (analysisOf i) instr ip s).Meets
        (fun ip' s' => (rules.metered ∧ Derailed i.env i.newState s'.toExecutionState) ∨
          (Running i rules s'.toExecutionState ∧ Budget rules s' ∧
            Located i.ctx.rev i.ctx.code.bytes ip' s'.currentBlockCost s'.stack.height ∧
            (rules.metered → Progress (analysisOf i) ip s.gasLeft ip' s'.gasLeft)))
        (fun s => (rules.metered ∧ Derailed i.env i.newState s.toExecutionState) ∨
          Halted i rules s.toExecutionState)
        (Excused rules True) := by
  generalize hcur : s.currentBlockCost = cost at hloc
  generalize hheight : s.stack.height = height at hloc
  have hlimit := s.stack.height_le
  cases hloc with
  | @atBlock closed b post _ _ hsplit =>
      refine ⟨beginblockOf i.ctx.rev b, getElem?_instrs_of_append hsplit, ?_⟩
      refine (meets_opxBeginblock hs (gasCost_beginblockOf_le _ b) _).mono ?_ ?_ fun _ h => h.elim
      · rintro ip' s' ⟨rfl, hs', hb', hcost, hstack, hgas, hreq, hgrowth⟩
        obtain ⟨hreq', hgrowth'⟩ :=
          (stack_check_iff i.ctx.rev 0 (length_lt_of_split hsize hsplit) hlimit).1 ⟨hreq, hgrowth⟩
        have hcost' : (s'.currentBlockCost : Int) =
            min (baseCost i.ctx.rev ([] ++ b)) (2 ^ 32 - 1) := by
          rw [hcost, close_gasCost]
          rfl
        rw [← hstack] at hreq' hgrowth'
        refine .inr ⟨hs', hb', .of_split hsplit hcost' hreq' hgrowth', fun hm => .inl ⟨rfl, ?_⟩⟩
        -- what is pending at the block's first entry is exactly what entering it deducts
        have hpending : (pendingCost (analysisOf i)
            (tableOf i.ctx.rev 0 closed).length : Int) = _ :=
          pendingCost_beginblock (getElem?_instrs_of_append hsplit)
        rw [hgas hm, hpending, close_gasCost]
      · exact fun s' h => .inr h
  | @inBlock closed done d rest post _ _ hsplit hd hcost hrequired hgrowth =>
      refine ⟨_, getElem?_instrs_inBlock hsplit hd, ?_⟩
      subst hcur hheight
      obtain ⟨hitems, hroom⟩ := suits_of_required _ hrequired hgrowth
      rcases decoded_cases i.ctx.rev d with ⟨-, hfn, -⟩ | ⟨op, hop, hdef, hfn, -, hreq, hchange⟩
      · rw [hfn]
        exact .inr (hs.halted _)
      · have hjumpdest : op ≠ .jumpdest := by
          intro h
          exact hd (by rw [toByte_of_ofByte hop, h])
        have hsteps := meets_inBlock hp hfit hs hb hsplit hd hcost hitems hroom hop hreq hchange
          ((tableOf i.ctx.rev 0 closed).length + 1 + (entriesOf i.ctx.rev 0 0 done).length)
        rw [hfn, dispatch_op _ _ hjumpdest]
        refine (meets_ofResult hs hb hsteps).mono ?_ (fun _ => id) fun _ => id
        rintro ip' s' (hderailed | ⟨hnext, hs', hb', hcost', hcont⟩)
        · exact .inl hderailed
        · have hheight' := hcont.height trivial
          have hinstr := @getElem?_instrs_inBlock i.ctx.rev _ _ _ _ _ _ hsplit hd
          rw [hfn] at hinstr
          refine .inr ⟨hs', hb', ?_, fun hm => ?_⟩
          · rw [hcost']
            exact .next hsize hsplit hd hcost (by omega) (by omega) hnext
          · exact hnext.progress hsize (pendingCost_op hinstr hjumpdest) (hcont.gas hm).2
  | atEnd =>
      exact ⟨_, getElem?_instrs_end, .inr (hs.halted _)⟩

/-- One round of the loop keeps the invariant. -/
theorem blockValid_step (hp : Premises i rules)
    (hfit : rules.metered → BlockCostsFit i.ctx.rev i.ctx.code.bytes)
    (hsize : i.ctx.code.bytes.length < 2 ^ 30) {c c' : Config (AdvancedExecutionState σ)}
    (hc : BlockValid i rules c) (h : step i.env (analysisOf i) c = some c') :
    BlockValid i rules c' := by
  cases c with
  | running ip s =>
      rcases hc with ⟨hm, hd⟩ | ⟨hs, hb, hloc⟩
      · have hcalls := step_calls h
        cases c' with
        | running ip' s' => exact .inl ⟨hm, hd.mono hcalls⟩
        | halted s' => exact .inl ⟨hm, hd.mono hcalls⟩
        | fault f => exact .inr (.inr hm)
      · obtain ⟨instr, hinstr, hmeets⟩ := meets_dispatch hp hfit hsize hs hb hloc
        simp only [step, hinstr, Option.some.injEq] at h
        subst h
        refine hmeets.mono ?_ (fun _ => id) fun _ => id
        rintro ip' s' (hd | ⟨hs', hb', hloc', -⟩)
        · exact .inl hd
        · exact .inr ⟨hs', hb', hloc'⟩
  | halted s => cases h
  | fault f => cases h

theorem blockValid_start (hp : Premises i rules) : BlockValid i rules (start i) := by
  have hsplit : blocksOf (decode i.ctx.code.bytes) =
      [] ++ (cutBlocks (decode i.ctx.code.bytes)).1 ::
        (cutBlocks (decode i.ctx.code.bytes)).2 := rfl
  exact .inr ⟨hp.running, budget_start hp, .atBlock hsplit⟩

/-- Every configuration of an execution has the invariant. -/
theorem blockValid_of_reaches (hp : Premises i rules)
    (hfit : rules.metered → BlockCostsFit i.ctx.rev i.ctx.code.bytes)
    (hsize : i.ctx.code.bytes.length < 2 ^ 30) {c : Config (AdvancedExecutionState σ)}
    (h : StateTransition.Reaches (step i.env (analysisOf i)) (start i) c) :
    BlockValid i rules c :=
  invariant_of_reaches (fun _ _ => blockValid_step hp hfit hsize) h (blockValid_start hp)

end BlockValid

end Ivmone.Advanced
