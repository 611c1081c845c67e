import Ivmone.AdvancedRuns
import Ivmone.BaselineSafety
import Ivmone.Effects
import Ivmone.Payments

/-!
# The gas of the memory

Every call of `check_memory` is recorded with the size of the memory and the gas before and after
it. Over a whole run, what `grow_memory` has deducted is the cost of the memory there is: it depends
only on the size, not on the checks that led to it.
-/

set_option autoImplicit false

namespace Ivmone

open Lib Lib.Program Instructions

/-! ## One check -/

/-- The new size for which a check calls `grow_memory`, if it does. -/
def MemoryCheck.growsTo (c : MemoryCheck) : Option Nat :=
  (regionEnd c.offset c.size).filter fun newSize => c.memoryBefore < newSize

/-- What `grow_memory` deducts in a check. -/
def MemoryCheck.cost (c : MemoryCheck) : Int :=
  match c.growsTo with
  | some newSize => growthCost c.memoryBefore newSize
  | none => 0

/-- The sums and products of `num_words` and `grow_memory` fit their 64-bit types, and the argument
of `Memory::grow` meets its assertions. -/
structure GrowsInRange (size newSize : Nat) : Prop where
  rounding : newSize + (wordSize - 1) < 2 ^ 64
  newSquare : InInt64 (numWords newSize * numWords newSize)
  newCost : InInt64 (memoryCost (numWords newSize))
  currentSquare : InInt64 ((size / wordSize : Int) * (size / wordSize : Int))
  currentCost : InInt64 (memoryCost (size / wordSize))
  cost : InInt64 (growthCost size newSize)
  argument : InInt64 (numWords newSize * wordSize)
  multiple : (numWords newSize * wordSize).toNat % 32 = 0
  larger : size < (numWords newSize * wordSize).toNat

theorem growsInRange {size newSize : Nat} (hlt : size < newSize) (hle : newSize ≤ 2 ^ 33) :
    GrowsInRange size newSize := by
  have hnew := numWords_eq hle
  obtain ⟨h1, h2, h3, h4⟩ := memoryCost_bounds (show 0 ≤ numWords newSize by omega) (by omega)
  obtain ⟨h5, h6, h7, h8⟩ := memoryCost_bounds (show 0 ≤ (size : Int) / wordSize by
    unfold wordSize; omega) (by unfold wordSize; omega)
  obtain ⟨h9, h10⟩ := growthCost_bounds hlt hle
  exact {
    rounding := by
      unfold wordSize
      omega
    newSquare := ⟨by omega, by omega⟩
    newCost := ⟨by omega, by omega⟩
    currentSquare := ⟨by omega, by omega⟩
    currentCost := ⟨by omega, by omega⟩
    cost := ⟨by omega, by omega⟩
    argument := by
      unfold wordSize
      exact ⟨by omega, by omega⟩
    multiple := by
      unfold wordSize
      omega
    larger := by
      unfold wordSize
      omega }

/-- What a check does: it leaves the state, or it deducts the cost of the growth and then either
passes and has grown the memory to whole words, or fails. -/
structure MemoryCheck.Exact (c : MemoryCheck) : Prop where
  kept : c.growsTo = none → c.gasAfter = c.gasBefore ∧ c.memoryAfter = c.memoryBefore
  deducted : ∀ newSize, c.growsTo = some newSize →
    c.gasAfter = toInt64 (c.gasBefore - growthCost c.memoryBefore newSize)
  grown : ∀ newSize, c.growsTo = some newSize → c.passed = true →
    c.memoryAfter = (numWords newSize * wordSize).toNat
  failed : c.passed = false → c.memoryAfter = c.memoryBefore
  inRange : ∀ newSize, c.growsTo = some newSize → GrowsInRange c.memoryBefore newSize
  -- The deduction itself does not overflow either, unless the gas was negative before.
  gasInRange : 0 ≤ c.gasBefore → c.gasBefore < 2 ^ 63 → InInt64 (c.gasBefore - c.cost)

variable {σ : Type} {env : Env σ} {s t : ExecutionState σ}

/-- Checks in a row: every one is exact, and finds a memory of whole words whose cost is what the
checks before it have deducted. -/
structure ChecksPaid (checks : List MemoryCheck) : Prop where
  exact : ∀ c ∈ checks, c.Exact
  before : ∀ pre c post, checks = pre ++ c :: post →
    c.memoryBefore % 32 = 0 ∧ (pre.map MemoryCheck.cost).sum = memoryCost (c.memoryBefore / 32)

theorem ChecksPaid.append {checks : List MemoryCheck} {c : MemoryCheck} (h : ChecksPaid checks)
    (hc : c.Exact) (hwords : c.memoryBefore % 32 = 0)
    (htotal : (checks.map MemoryCheck.cost).sum = memoryCost (c.memoryBefore / 32)) :
    ChecksPaid (checks ++ [c]) := by
  refine ⟨List.forall_mem_append.2 ⟨h.exact, List.forall_mem_singleton.2 hc⟩, ?_⟩
  intro pre c' post heq
  rcases List.eq_nil_or_concat post with rfl | ⟨post', last, rfl⟩
  · obtain ⟨rfl, hlast⟩ := List.append_inj' heq rfl
    injection hlast with hlast
    subst hlast
    exact ⟨hwords, htotal⟩
  · rw [List.concat_eq_append, ← List.cons_append, ← List.append_assoc] at heq
    obtain ⟨heq, -⟩ := List.append_inj' heq rfl
    exact h.before pre c' post' heq

/-- The memory has whole words, all checks passed, and together they deducted its cost. -/
structure MemoryAccount (s : ExecutionState σ) : Prop where
  words : s.memory.size % 32 = 0
  total : (s.ghost.checks.map MemoryCheck.cost).sum = memoryCost (s.memory.size / 32)
  checks : ChecksPaid s.ghost.checks
  passed : ∀ c ∈ s.ghost.checks, c.passed = true

/-- What is left of it when the last check may have failed. -/
structure MemoryKept (s : ExecutionState σ) : Prop where
  words : s.memory.size % 32 = 0
  checks : ChecksPaid s.ghost.checks

theorem MemoryAccount.kept (h : MemoryAccount s) : MemoryKept s := ⟨h.words, h.checks⟩

theorem MemoryAccount.congr (h : MemoryAccount s) (hsize : t.memory.size = s.memory.size)
    (hchecks : t.ghost.checks = s.ghost.checks) : MemoryAccount t := by
  refine ⟨hsize ▸ h.words, ?_, hchecks ▸ h.checks, hchecks ▸ h.passed⟩
  rw [hchecks, hsize]
  exact h.total

theorem MemoryCheck.growsTo_eq {c : MemoryCheck} {newSize : Nat}
    (hend : regionEnd c.offset c.size = some newSize) :
    c.growsTo = if c.memoryBefore < newSize then some newSize else none := by
  unfold growsTo
  rw [hend, Option.filter_some]
  simp

theorem MemoryCheck.cost_of_none {c : MemoryCheck} (h : c.growsTo = none) : c.cost = 0 := by
  unfold cost
  rw [h]

theorem MemoryCheck.cost_of_some {c : MemoryCheck} {newSize : Nat} (h : c.growsTo = some newSize) :
    c.cost = growthCost c.memoryBefore newSize := by
  unfold cost
  rw [h]

/-- A check that does not call `grow_memory`. -/
theorem MemoryCheck.exact_of_none {c : MemoryCheck} (hgrows : c.growsTo = none)
    (hgas : c.gasAfter = c.gasBefore) (hmemory : c.memoryAfter = c.memoryBefore) : c.Exact where
  kept _ := ⟨hgas, hmemory⟩
  deducted newSize h := by
    rw [hgrows] at h
    cases h
  grown newSize h := by
    rw [hgrows] at h
    cases h
  failed _ := hmemory
  inRange newSize h := by
    rw [hgrows] at h
    cases h
  gasInRange h0 h63 := by
    rw [cost_of_none hgrows]
    exact ⟨by omega, by omega⟩

/-- A check that calls `grow_memory`. -/
theorem MemoryCheck.exact_of_some {c : MemoryCheck} {newSize : Nat}
    (hgrows : c.growsTo = some newSize) (hlt : c.memoryBefore < newSize) (hle : newSize ≤ 2 ^ 33)
    (hgas : c.gasAfter = toInt64 (c.gasBefore - growthCost c.memoryBefore newSize))
    (hgrown : c.passed = true → c.memoryAfter = 32 * ((newSize + 31) / 32))
    (hfailed : c.passed = false → c.memoryAfter = c.memoryBefore) : c.Exact where
  kept h := by
    rw [hgrows] at h
    cases h
  deducted n h := by
    rw [hgrows] at h
    cases h
    exact hgas
  grown n h hpassed := by
    rw [hgrows] at h
    cases h
    rw [hgrown hpassed, numWords_eq hle]
    unfold wordSize
    omega
  failed := hfailed
  inRange n h := by
    rw [hgrows] at h
    cases h
    exact growsInRange hlt hle
  gasInRange h0 h63 := by
    obtain ⟨h1, h2⟩ := growthCost_bounds hlt hle
    rw [cost_of_some hgrows]
    exact ⟨by omega, by omega⟩

/-- One more check in the account. -/
theorem MemoryAccount.append {c : MemoryCheck} (h : MemoryAccount s) (hc : c.Exact)
    (hbefore : c.memoryBefore = s.memory.size) (hpassed : c.passed = true)
    (hchecks : t.ghost.checks = s.ghost.checks ++ [c])
    (hwords : t.memory.size % 32 = 0)
    (hcost : memoryCost (t.memory.size / 32) = memoryCost (s.memory.size / 32) + c.cost) :
    MemoryAccount t := by
  refine ⟨hwords, ?_, ?_, ?_⟩
  · rw [hchecks, List.map_append, List.sum_append, h.total, hcost]
    simp
  · rw [hchecks]
    exact h.checks.append hc (hbefore ▸ h.words) (hbefore ▸ h.total)
  · rw [hchecks]
    exact List.forall_mem_append.2 ⟨h.passed, List.forall_mem_singleton.2 hpassed⟩

/-- A memory check keeps the account if it passes. -/
theorem checkMemory_account (env : Env σ) (h : MemoryAccount s) (offset : UInt256)
    (size : MemorySize) (hsize : ∀ n, size = .u64 n → n ≤ maxBufferSize) :
    (handle env (.checkMemory offset size) s).Meets
      (fun _ t => MemoryAccount t ∧ s.memory.size ≤ t.memory.size)
      (fun _ t => MemoryKept t ∧ s.memory.size ≤ t.memory.size) fun f => f ≠ .growth := by
  -- the four ways a check ends; each adds one record to the account
  have hcheck := handle_checkMemory env s offset size hsize
  generalize handle env (.checkMemory offset size) s = r at hcheck
  cases hcheck with
  | rejected hend =>
      refine ⟨⟨h.words, h.checks.append ?_ h.words h.total⟩, le_rfl⟩
      refine MemoryCheck.exact_of_none ?_ rfl rfl
      show (regionEnd offset size).filter _ = none
      rw [hend]
      rfl
  | covered newSize hend hle =>
      set check : MemoryCheck := ⟨offset, size, s.memory.size, s.gasLeft, true, s.memory.size,
        s.gasLeft⟩ with hdef
      have hgrows : check.growsTo = none :=
        (MemoryCheck.growsTo_eq hend).trans (if_neg (Nat.not_lt.2 hle))
      refine ⟨h.append (MemoryCheck.exact_of_none hgrows rfl rfl) rfl rfl rfl h.words ?_, le_rfl⟩
      rw [MemoryCheck.cost_of_none hgrows]
      exact (Int.add_zero _).symm
  | unpaid newSize hend hlt hgas =>
      refine ⟨⟨h.words, h.checks.append ?_ h.words h.total⟩, le_rfl⟩
      exact MemoryCheck.exact_of_some ((MemoryCheck.growsTo_eq hend).trans (if_pos hlt)) hlt
        (regionEnd_le hsize hend) rfl (fun h => nomatch h) fun _ => rfl
  | grown newSize m hend hlt hgas hm hbytes =>
      have hle := regionEnd_le hsize hend
      set check : MemoryCheck := ⟨offset, size, s.memory.size, s.gasLeft, true, m.size,
        toInt64 (s.gasLeft - growthCost s.memory.size newSize)⟩ with hdef
      have hgrows : check.growsTo = some newSize :=
        (MemoryCheck.growsTo_eq hend).trans (if_pos hlt)
      have hexact : check.Exact :=
        MemoryCheck.exact_of_some hgrows hlt hle rfl (fun _ => hm) fun h => nomatch h
      refine ⟨h.append hexact rfl rfl rfl ?_ ?_, ?_⟩
      · show m.size % 32 = 0
        omega
      · show memoryCost (m.size / 32) = _
        rw [hm, memoryCost_grown s.memory.size hle, MemoryCheck.cost_of_some hgrows]
      · show s.memory.size ≤ m.size
        omega

/-! ## Operations -/

/-- A memory check of an implementation is small enough, and no implementation breaks an assertion
of `Memory::grow` itself. -/
def Op.Regular : Op → Prop
  | .checkMemory _ (.u64 size) => size ≤ maxBufferSize
  | .fault f => f ≠ .growth
  | _ => True

theorem handle_account (env : Env σ) {o : Op} (ho : o.Regular) (h : MemoryAccount s) :
    (handle env o s).Meets (fun _ t => MemoryAccount t ∧ s.memory.size ≤ t.memory.size)
      (fun _ t => MemoryKept t ∧ s.memory.size ≤ t.memory.size) fun f => f ≠ .growth := by
  cases o with
  | pop | push | peek | poke | load =>
      simp only [handle]
      split
      · exact ⟨h.congr rfl rfl, le_rfl⟩
      · intro hf
        cases hf
  | store offset bytes =>
      simp only [handle]
      split
      · rename_i memory hstore
        have hsize := Memory.size_of_store? hstore
        exact ⟨h.congr hsize rfl, hsize.ge⟩
      · intro hf
        cases hf
  | charge cost =>
      simp only [handle]
      split
      · exact ⟨⟨h.words, h.checks⟩, le_rfl⟩
      · exact ⟨h.congr rfl rfl, le_rfl⟩
  | checkMemory offset size =>
      refine checkMemory_account env h offset size ?_
      rintro n rfl
      exact ho
  | exit status => exact ⟨h.kept, le_rfl⟩
  | fault f => exact ho
  | _ => exact ⟨h.congr rfl rfl, le_rfl⟩

theorem run_account (env : Env σ) {α : Type} {p : Exec α} (hp : p.Uses Op.Regular)
    (h : MemoryAccount s) :
    (p.run env s).Meets (fun _ t => MemoryAccount t ∧ s.memory.size ≤ t.memory.size)
      (fun _ t => MemoryKept t ∧ s.memory.size ≤ t.memory.size) fun f => f ≠ .growth := by
  refine run_of_uses (R := fun t => MemoryAccount t ∧ s.memory.size ≤ t.memory.size) ?_ hp
    ⟨h, le_rfl⟩
  rintro o t ho ⟨ht, hle⟩
  exact (handle_account env ho ht).mono (fun _ _ h => ⟨h.1, hle.trans h.2⟩)
    (fun _ _ h => ⟨h.1, hle.trans h.2⟩) fun _ => id

/-! ## Instructions -/

section Regular

variable {ctx : Context}

attribute [local simp] Uses Footprint Op.Regular Exec.perform Exec.pop Exec.push Exec.peek Exec.poke
  Exec.top Exec.setTop Exec.charge Exec.checkMemory Exec.checkMemory64 Exec.load Exec.store
  Exec.memorySize Exec.gasLeft Exec.setGasLeft Exec.int64 Exec.returnData Exec.setReturnData
  Exec.setOutputOffset Exec.setOutputSize Exec.request Exec.Host.call
  Exec.keccak256 Exec.read Exec.Host.accountExists Exec.Host.getStorage Exec.Host.setStorage
  Exec.Host.getBalance Exec.Host.getCodeSize Exec.Host.getCodeHash Exec.Host.copyCode
  Exec.Host.selfdestruct Exec.Host.getTxContext Exec.Host.getBlockHash Exec.Host.emitLog
  Exec.Host.accessAccount Exec.Host.accessStorage

attribute [local simp] footprint_exit footprint_fault

theorem regular_popTopics (n : Nat) : (popTopics n).Uses Op.Regular := by
  induction n with
  | zero => trivial
  | succ n ih =>
      unfold popTopics
      exact Uses.bind (by simp) fun topic => Uses.bind ih fun topics => trivial

theorem regular_popIntoTop (f : UInt256 → UInt256 → UInt256) : (popIntoTop f).Uses Op.Regular := by
  simp [popIntoTop]

theorem regular_intoSecond (f : UInt256 → UInt256 → UInt256) : (intoSecond f).Uses Op.Regular := by
  simp [intoSecond]

theorem regular_pushTxContext (field : TxContext → UInt256) :
    (pushTxContext field).Uses Op.Regular := by
  simp [pushTxContext]

theorem regular_copyWindow (source : List Byte) : (copyWindow source).Uses Op.Regular := by
  simp [copyWindow]

theorem regular_call (kind : CallKind) (isStatic : Bool) :
    (Instructions.call kind isStatic ctx).Uses Op.Regular := by
  simp [Instructions.call, popCallValue, chargeColdAccount, loadRegion, callCost, callGas,
    allButOne64th, addStipend, hasBalance, sendCall, storeOutput, spendGas]

theorem regular_create (kind : CallKind) : (create kind ctx).Uses Op.Regular := by
  simp [create, popSalt, hasBalance, createGas, allButOne64th, loadRegion, sendCreate, spendGas]

theorem regular_basic {op : Opcode} {f : Context → Exec Unit} (hop : Baseline.op2fn op = .basic f) :
    (f ctx).Uses Op.Regular := by
  cases op with
  | stop | jump | jumpi | pc | push | return_ | revert | invalid | selfdestruct => cases hop
  | log n =>
      cases hop
      simp only [log]
      split
      · simp
      · simp
        exact regular_popTopics _
  | add | mul | signextend | lt | gt | slt | sgt | and_ | or_ | xor_ | byte | shl | shr | sar =>
      cases hop
      exact regular_popIntoTop _
  | sub | div | sdiv | mod | smod | eq =>
      cases hop
      exact regular_intoSecond _
  | addmod | mulmod =>
      cases hop
      simp [addmod, mulmod, popTwoIntoTop]
  | iszero | not_ =>
      cases hop
      simp [iszero, not_, mapTop]
  | origin | gasprice | coinbase | timestamp | number | difficulty | gaslimit | chainid | basefee =>
      cases hop
      exact regular_pushTxContext _
  | calldatacopy | codecopy =>
      cases hop
      exact regular_copyWindow _
  | balance | extcodesize | extcodehash =>
      cases hop
      simp [balance, extcodesize, extcodehash, accountQuery, chargeColdAccount]
  | extcodecopy =>
      cases hop
      simp [extcodecopy, chargeColdAccount]
  | exp | keccak256 | calldataload | returndatacopy | blockhash | sload | sstore =>
      cases hop
      simp [exp, Instructions.keccak256, calldataload, returndatacopy, blockhash, sload, sstore]
  | address | caller | callvalue | calldatasize | codesize | returndatasize | selfbalance | pop
  | mload | mstore | mstore8 | msize | gas | jumpdest | dup | swap =>
      cases hop
      simp [address, caller, callvalue, calldatasize, codesize, returndatasize, selfbalance,
        Instructions.pop, mload, mstore, mstore8, msize, gas, jumpdest, dup, swap, maxBufferSize]
  | call | callcode | delegatecall | staticcall =>
      cases hop
      exact regular_call _ _
  | create | create2 =>
      cases hop
      exact regular_create _

theorem regular_terminating {op : Opcode} {f : Context → Exec StatusCode}
    (hop : Baseline.op2fn op = .terminating f) : (f ctx).Uses Op.Regular := by
  cases op with
  | stop | return_ | revert | invalid | selfdestruct =>
      cases hop
      simp [stop, return_, invalid, selfdestruct, chargeColdAccount, chargeNewBeneficiary]
  | _ => cases hop

theorem Op.OnStack.regular {o : Op} (h : o.OnStack) : o.Regular := by
  cases o with
  | checkMemory => exact h.elim
  | fault f => exact h
  | _ => trivial

/-- The memory checks of an instruction in Baseline. -/
theorem regular_invoke (op : Opcode) (analysis : Baseline.CodeAnalysis) (ctx : Context)
    (pos : Nat) :
    (Baseline.invoke (Baseline.op2fn op) analysis ctx pos).Uses Op.Regular := by
  cases hop : Baseline.op2fn op with
  | basic f => exact Uses.bind (regular_basic hop) fun _ => trivial
  | terminating f => exact Uses.bind (regular_terminating hop) fun _ => by simp
  | codePosition f =>
      exact (onStack_codePosition hop analysis pos).mono fun _ h => h.regular

theorem regular_argNumber (arg : Advanced.Argument) : (Advanced.argNumber arg).Uses Op.Regular :=
  (onStack_argNumber arg).mono fun _ h => h.regular

theorem regular_corrected {p : Exec Unit} (hp : p.Uses Op.Regular) (cost : Nat)
    (arg : Advanced.Argument) : (Advanced.corrected cost arg p).Uses Op.Regular := by
  refine Uses.bind (regular_argNumber arg) fun number => Uses.bind (by simp) fun correction => ?_
  refine Uses.bind (by simp) fun gas => Uses.bind (by simp) fun gas' => ?_
  exact Uses.bind (by simp) fun _ => Uses.bind hp fun _ => by simp

/-- The memory checks of an instruction in Advanced. -/
theorem regular_exec (op : Opcode) (analysis : Advanced.AdvancedCodeAnalysis) (cost : Nat)
    (ctx : Context) (arg : Advanced.Argument) (ip : Nat) :
    (Advanced.exec analysis cost ctx (Advanced.instructionImplementations op) arg ip).Uses
      Op.Regular := by
  have himpl := implemented op
  generalize hbase : Baseline.op2fn op = base at himpl
  generalize hfn : Advanced.instructionImplementations op = fn at himpl
  cases himpl with
  | plain hreads => exact Uses.bind (regular_basic hbase) fun _ => trivial
  | corrected hexec hreads =>
      rw [hexec]
      exact Uses.bind (regular_corrected (regular_basic hbase) cost arg) fun _ => trivial
  | gas =>
      refine Uses.bind (Uses.bind (regular_argNumber arg) fun number => ?_) fun _ => trivial
      simp
  | jumpdest => simp [Advanced.exec]
  | jump | jumpi | pc | pushSmall | pushFull =>
      exact (onStack_exec analysis cost ctx arg ip (by simp)).mono fun _ h => h.regular
  | return_ hkeeps => simp [Advanced.exec, Advanced.exitWith, Advanced.opReturn]
  | terminating hexec =>
      rw [hexec]
      exact Uses.bind (regular_terminating hbase) fun _ => by simp

/-- The memory checks of an entry of the instruction table. -/
theorem regular_entry {rev : Revision} {code : List Byte} {fn : Advanced.ExecFn}
    {arg : Advanced.Argument} {ip : Nat}
    (h : (Advanced.analyze rev code).instrs[ip]? = some { fn := some fn, arg := arg })
    (hfn : fn ≠ .opxBeginblock) (analysis : Advanced.AdvancedCodeAnalysis) (cost : Nat)
    (ctx : Context) : (Advanced.exec analysis cost ctx fn arg ip).Uses Op.Regular := by
  have hentry := Advanced.entry_of_mem_instrs (List.mem_of_getElem? h)
  generalize hinstr : ({ fn := some fn, arg := arg } : Advanced.Instruction) = entry at hentry
  cases hentry with
  | beginblock b =>
      injection hinstr with hbegin
      injection hbegin with hbegin
      exact absurd hbegin hfn
  | undefined arg' =>
      injection hinstr with hundefined
      injection hundefined with hundefined
      rw [hundefined]
      simp [Advanced.exec]
  | @op op d gas k hop hjumpdest hdef hgas hfit hvalue =>
      injection hinstr with himpl
      injection himpl with himpl
      rw [himpl]
      exact regular_exec op analysis cost ctx arg ip

end Regular

/-! ## Whole runs -/

/-- While an execution runs, its memory account is exact. -/
abbrev Config.Accounted {S : Type} (state : S → ExecutionState σ) : Config S → Prop :=
  Config.Meets (fun _ s => MemoryAccount (state s)) (fun s => MemoryKept (state s))
    fun f => f ≠ .growth

/-- The memory has at least the given size. -/
abbrev Config.MemoryFrom {S : Type} (state : S → ExecutionState σ) (size : Nat) : Config S → Prop :=
  Config.Meets (fun _ s => MemoryAccount (state s) ∧ size ≤ (state s).memory.size)
    (fun s => MemoryKept (state s) ∧ size ≤ (state s).memory.size) fun f => f ≠ .growth

theorem Baseline.memoryFrom_step {analysis : Baseline.CodeAnalysis} {size : Nat}
    {c c' : Config (ExecutionState σ)} (hc : c.MemoryFrom id size)
    (h : Baseline.step env analysis c = some c') : c'.MemoryFrom id size := by
  cases c with
  | halted s => cases h
  | fault f => cases h
  | running pos s =>
      obtain ⟨haccount, hle⟩ := hc
      rcases Baseline.step_inv h with ⟨f, rfl, rfl | rfl⟩ |
        ⟨b, status, s', -, -, rfl | ⟨-, -, rfl⟩, rfl⟩ | ⟨b, op, -, -, -, -, -, rfl⟩
      · intro hf
        cases hf
      · intro hf
        cases hf
      · exact ⟨⟨haccount.words, haccount.checks⟩, hle⟩
      · exact ⟨⟨haccount.words, haccount.checks⟩, hle⟩
      · have hcharged : MemoryAccount (s.setGas (s.gasLeft - instr.gasCosts s.rev op)) :=
          haccount.congr rfl rfl
        have hrun := run_account env (regular_invoke op analysis s.toContext pos) hcharged
        generalize Exec.run env (Baseline.invoke (Baseline.op2fn op) analysis s.toContext pos) _ = r
          at hrun
        cases r with
        | ok pos' t => exact ⟨hrun.1, hle.trans hrun.2⟩
        | exit status t => exact ⟨⟨hrun.1.words, hrun.1.checks⟩, hle.trans hrun.2⟩
        | fault f => exact hrun

theorem Advanced.memoryFrom_step {rev : Revision} {code : List Byte} {size : Nat}
    {c c' : Config (Advanced.AdvancedExecutionState σ)}
    (hc : c.MemoryFrom Advanced.AdvancedExecutionState.toExecutionState size)
    (h : Advanced.step env (Advanced.analyze rev code) c = some c') :
    c'.MemoryFrom Advanced.AdvancedExecutionState.toExecutionState size := by
  cases c with
  | halted s => cases h
  | fault f => cases h
  | running ip s =>
      obtain ⟨haccount, hle⟩ := hc
      rcases Advanced.step_inv h with ⟨f, rfl, rfl | rfl | rfl⟩ | ⟨info, -, rfl⟩ |
        ⟨fn, arg, hinstr, hfn, rfl⟩
      · intro hf
        cases hf
      · intro hf
        cases hf
      · intro hf
        cases hf
      · rcases Advanced.opxBeginblock_cases info ip s with ⟨status, -, heq, -⟩ | ⟨heq, -⟩
        · rw [heq]
          exact ⟨⟨haccount.words, haccount.checks⟩, hle⟩
        · rw [heq]
          exact ⟨haccount.congr rfl rfl, hle⟩
      · have hrun := run_account env (regular_entry hinstr hfn (Advanced.analyze rev code)
          s.currentBlockCost s.toContext) haccount
        generalize Exec.run env (Advanced.exec _ s.currentBlockCost s.toContext fn arg ip) _ = r
          at hrun
        cases r with
        | ok pos' t => exact ⟨hrun.1, hle.trans hrun.2⟩
        | exit status t => exact ⟨⟨hrun.1.words, hrun.1.checks⟩, hle.trans hrun.2⟩
        | fault f => exact hrun

theorem memoryAccount_newState (i : Invocation σ) : MemoryAccount i.newState where
  words := rfl
  total := by
    show (0 : Int) = memoryCost ((0 : Nat) / 32)
    decide
  checks := {
    exact := fun _ h => absurd h List.not_mem_nil
    before := fun pre c post h => by simp [Invocation.newState] at h }
  passed _ h := absurd h List.not_mem_nil

theorem Config.Accounted.memoryFrom {S : Type} {state : S → ExecutionState σ} {c : Config S}
    (h : c.Accounted state) : c.MemoryFrom state 0 :=
  h.mono (fun _ _ h => ⟨h, Nat.zero_le _⟩) (fun _ h => ⟨h, Nat.zero_le _⟩) fun _ => id

theorem Config.MemoryFrom.accounted {S : Type} {state : S → ExecutionState σ} {size : Nat}
    {c : Config S} (h : c.MemoryFrom state size) : c.Accounted state :=
  h.mono (fun _ _ h => h.1) (fun _ h => h.1) fun _ => id

/-- From a configuration on, the memory never gets smaller. -/
theorem memory_never_shrinks {S : Type} {step : Config S → Option (Config S)}
    {state : S → ExecutionState σ}
    (hstep : ∀ size c c', c.MemoryFrom state size → step c = some c' → c'.MemoryFrom state size)
    {c c' : Config S} (hc : c.Accounted state) (h : StateTransition.Reaches step c c') :
    c.StateMeets fun s => c'.StateMeets fun s' => (state s).memory.size ≤
      (state s').memory.size := by
  have hfrom : ∀ size, c.MemoryFrom state size →
      c'.StateMeets fun s' => size ≤ (state s').memory.size := by
    intro size hsize
    have hc' := invariant_of_reaches (hstep size) h hsize
    cases c' with
    | running pos s' => exact hc'.2
    | halted s' => exact hc'.2
    | fault f => trivial
  cases c with
  | running pos s => exact hfrom _ ⟨hc, le_rfl⟩
  | halted s => exact hfrom _ ⟨hc, le_rfl⟩
  | fault f => trivial

/-- The gas of the memory is path independent, and the memory never shrinks. -/
theorem memory_gas_is_path_independent (i : Invocation σ) :
    (∀ c, StateTransition.Reaches (Baseline.step i.env (Baseline.analysisOf i))
      (Baseline.start i) c → c.Accounted id ∧
        ∀ c', StateTransition.Reaches (Baseline.step i.env (Baseline.analysisOf i)) c c' →
          c.StateMeets fun s => c'.StateMeets fun s' => s.memory.size ≤ s'.memory.size) ∧
    (∀ c, StateTransition.Reaches (Advanced.step i.env (Advanced.analysisOf i))
      (Advanced.start i) c → c.Accounted Advanced.AdvancedExecutionState.toExecutionState ∧
        ∀ c', StateTransition.Reaches (Advanced.step i.env (Advanced.analysisOf i)) c c' →
          c.StateMeets fun s => c'.StateMeets fun s' => s.memory.size ≤ s'.memory.size) := by
  have hnew := memoryAccount_newState i
  refine ⟨fun c hc => ?_, fun c hc => ?_⟩
  · have hstart : (Baseline.start i).Accounted id := by
      rw [Baseline.start_eq]
      exact hnew
    have haccount : c.Accounted id := by
      apply Config.MemoryFrom.accounted
      exact invariant_of_reaches (fun c c' => Baseline.memoryFrom_step) hc hstart.memoryFrom
    exact ⟨haccount, fun c' hc' =>
      memory_never_shrinks (fun size c c' => Baseline.memoryFrom_step) haccount hc'⟩
  · have hstart : (Advanced.start i).Accounted Advanced.AdvancedExecutionState.toExecutionState :=
      hnew
    have haccount : c.Accounted Advanced.AdvancedExecutionState.toExecutionState := by
      apply Config.MemoryFrom.accounted
      exact invariant_of_reaches (fun c c' => Advanced.memoryFrom_step) hc hstart.memoryFrom
    exact ⟨haccount, fun c' hc' =>
      memory_never_shrinks (fun size c c' => Advanced.memoryFrom_step) haccount hc'⟩

theorem memory_gas_is_path_independent_truncatedPush :
    (Baseline.start truncatedPush).Accounted id ∧
      (Advanced.start truncatedPush).Accounted Advanced.AdvancedExecutionState.toExecutionState :=
  ⟨((memory_gas_is_path_independent truncatedPush).1 _ Relation.ReflTransGen.refl).1,
    ((memory_gas_is_path_independent truncatedPush).2 _ Relation.ReflTransGen.refl).1⟩

end Ivmone
