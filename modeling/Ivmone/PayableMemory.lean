import Ivmone.GasForwarding
import Ivmone.MemoryGas

/-!
# Memory that can be paid for

`check_memory` rejects an offset or a size beyond `max_buffer_size` without computing a cost. With
the gas of a message below the cost of `2 ^ 27` words that is exact: the gas left and the cost of
the memory there is never exceed the gas of the message together, and so the cost of such a region
would exceed the gas left in any state.
-/

set_option autoImplicit false

namespace Ivmone

open Lib Lib.Program Instructions

/-! ## One check -/

/-- The words a memory needs to hold the region of a check. -/
def MemoryCheck.wordsNeeded (c : MemoryCheck) : Nat := (c.offset.toNat + c.size.toNat + 31) / 32

/-- The exact cost of the expansion. -/
def MemoryCheck.expansionCost (c : MemoryCheck) : Int :=
  max 0 (memoryCost c.wordsNeeded - memoryCost (c.memoryBefore / 32))

/-- The check fails exactly if the gas left does not cover the expansion; else the memory is
expanded to whole words. -/
structure MemoryCheck.Precise (c : MemoryCheck) : Prop where
  fails_iff : c.passed = false ↔ 0 < c.size.toNat ∧ c.gasBefore < c.expansionCost
  grown : c.passed = true → 0 < c.size.toNat →
    c.memoryAfter = max c.memoryBefore (32 * c.wordsNeeded)

/-- The cost of `2 ^ 27` words: `3 * 2 ^ 27 + 2 ^ 45`. -/
def payableGas : Int := memoryCost (2 ^ 27)

variable {σ : Type} {env : Env σ} {ctx : Context} {s s' t : ExecutionState σ}

/-- A region that is rejected at once costs more than any gas that is payable. -/
theorem payableGas_le_of_rejected {offset : UInt256} {size : MemorySize}
    (hsize : ∀ n, size = .u64 n → 0 < n ∧ n ≤ maxBufferSize) (h : regionEnd offset size = none) :
    0 < size.toNat ∧ payableGas ≤ memoryCost ((offset.toNat + size.toNat + 31) / 32 : Nat) := by
  -- whatever test rejects the region, it ends past 2^32, so it has 2^27 words or more
  have hlarge : 0 < size.toNat ∧ 2 ^ 32 ≤ offset.toNat + size.toNat := by
    cases size with
    | u64 n =>
        obtain ⟨hpos, -⟩ := hsize n rfl
        unfold regionEnd maxBufferSize at h
        show 0 < n ∧ 2 ^ 32 ≤ offset.toNat + n
        split at h
        · omega
        · cases h
    | u256 size =>
        unfold regionEnd at h
        show 0 < size.toNat ∧ 2 ^ 32 ≤ offset.toNat + size.toNat
        split at h
        · cases h
        · rename_i hne
          have hpos : 0 < size.toNat := by
            rw [Nat.pos_iff_ne_zero]
            exact fun h0 => hne (BitVec.eq_of_toNat_eq h0)
          unfold regionEnd maxBufferSize at h
          split at h
          · omega
          · split at h
            · omega
            · cases h
  refine ⟨hlarge.1, memoryCost_le (by norm_num) ?_⟩
  have hwords : 2 ^ 27 ≤ (offset.toNat + size.toNat + 31) / 32 := by omega
  exact_mod_cast hwords

/-- Of a region that is not rejected, the end is the exact sum. -/
theorem regionEnd_exact {offset : UInt256} {size : MemorySize} {newSize : Nat}
    (hsize : ∀ n, size = .u64 n → 0 < n ∧ n ≤ maxBufferSize)
    (h : regionEnd offset size = some newSize) (hpos : 0 < size.toNat) :
    newSize = offset.toNat + size.toNat := by
  cases size with
  | u64 n => exact (regionEnd_u64 (hsize n rfl).2 h).2
  | u256 size => exact (regionEnd_u256 h (Nat.ne_of_gt hpos)).2.2

theorem regionEnd_zero {offset : UInt256} {size : MemorySize} {newSize : Nat}
    (hsize : ∀ n, size = .u64 n → 0 < n ∧ n ≤ maxBufferSize)
    (h : regionEnd offset size = some newSize) (hzero : ¬ 0 < size.toNat) : newSize = 0 := by
  cases size with
  | u64 n => exact absurd (hsize n rfl).1 hzero
  | u256 size =>
      have h0 : size = 0 := BitVec.eq_of_toNat_eq (Nat.eq_zero_of_not_pos hzero)
      unfold regionEnd at h
      rw [if_pos h0] at h
      injection h with h
      exact h.symm

theorem growthCost_eq {size newSize : Nat} (hle : newSize ≤ 2 ^ 33) :
    growthCost size newSize = memoryCost ((newSize + 31) / 32 : Nat) - memoryCost (size / 32) := by
  unfold growthCost
  rw [numWords_eq hle]

theorem memoryCost_nonneg {words : Int} (h : 0 ≤ words) : 0 ≤ memoryCost words := by
  have hsquare : 0 ≤ words * words := by nlinarith
  unfold memoryCost
  omega

theorem MemoryCheck.precise_of_failed {c : MemoryCheck} (hpassed : c.passed = false)
    (hpos : 0 < c.size.toNat)
    (hcost : c.gasBefore < memoryCost c.wordsNeeded - memoryCost (c.memoryBefore / 32)) :
    c.Precise := by
  refine ⟨⟨fun _ => ⟨hpos, lt_of_lt_of_le hcost (le_max_right _ _)⟩, fun _ => hpassed⟩, fun h => ?_⟩
  rw [hpassed] at h
  cases h

theorem MemoryCheck.precise_of_passed {c : MemoryCheck} (hpassed : c.passed = true)
    (h0 : 0 ≤ c.gasBefore) (hcost : 0 < c.size.toNat →
      memoryCost c.wordsNeeded - memoryCost (c.memoryBefore / 32) ≤ c.gasBefore)
    (hgrown : 0 < c.size.toNat → c.memoryAfter = max c.memoryBefore (32 * c.wordsNeeded)) :
    c.Precise := by
  refine ⟨⟨fun h => ?_, fun h => ?_⟩, fun _ => hgrown⟩
  · rw [hpassed] at h
    cases h
  · exact absurd h.2 (not_lt.2 (max_le h0 (hcost h.1)))

/-- The recorded check is precise, and after one that passes the memory has whole words. -/
theorem checkResult_precise {offset : UInt256} {size : MemorySize} {r : Result σ Unit}
    (hsize : ∀ n, size = .u64 n → 0 < n ∧ n ≤ maxBufferSize) (hwords : s.memory.size % 32 = 0)
    (h0 : 0 ≤ s.gasLeft) (hfunds : s.funds < payableGas) (h : CheckResult s offset size r) :
    r.Meets
      (fun _ t => t.memory.size % 32 = 0 ∧
        ∃ c : MemoryCheck, t.ghost.checks = s.ghost.checks ++ [c] ∧ c.Precise)
      (fun _ t => ∃ c : MemoryCheck, t.ghost.checks = s.ghost.checks ++ [c] ∧ c.Precise)
      fun _ => True := by
  have hle := fun newSize => @regionEnd_le offset size newSize fun n hn => (hsize n hn).2
  have hmemory : 0 ≤ memoryCost (s.memory.size / 32) := memoryCost_nonneg (by omega)
  have hgas' : s.gasLeft + memoryCost (s.memory.size / 32) < payableGas := hfunds
  have hpayable : payableGas < 2 ^ 62 := by decide
  cases h with
  | rejected hend =>
      obtain ⟨hpos, hcost⟩ := payableGas_le_of_rejected hsize hend
      refine ⟨_, rfl, MemoryCheck.precise_of_failed rfl hpos ?_⟩
      show s.gasLeft < memoryCost ((offset.toNat + size.toNat + 31) / 32 : Nat) -
        memoryCost (s.memory.size / 32)
      omega
  | covered newSize hend hcovered =>
      -- The words that are needed are there already.
      have hneeded : 0 < size.toNat → (offset.toNat + size.toNat + 31) /
          32 ≤ s.memory.size / 32 := by
        intro hpos
        have hexact := regionEnd_exact hsize hend hpos
        omega
      refine ⟨hwords, _, rfl, MemoryCheck.precise_of_passed rfl h0 (fun hpos => ?_) fun hpos => ?_⟩
      · have hcost : memoryCost ((offset.toNat + size.toNat + 31) / 32 : Nat) ≤
            memoryCost (s.memory.size / 32) := by
          have hwords' := hneeded hpos
          exact memoryCost_le (by omega) (by omega)
        show memoryCost ((offset.toNat + size.toNat + 31) / 32 : Nat) -
          memoryCost (s.memory.size / 32) ≤ s.gasLeft
        omega
      · have hwords' := hneeded hpos
        show s.memory.size = max s.memory.size (32 * ((offset.toNat + size.toNat + 31) / 32))
        omega
  | unpaid newSize hend hlt hgas =>
      have hpos : 0 < size.toNat := by
        by_contra hzero
        have hnone := regionEnd_zero hsize hend hzero
        omega
      have hexact := regionEnd_exact hsize hend hpos
      obtain ⟨hcost, hcost'⟩ := growthCost_bounds hlt (hle newSize hend)
      rw [toInt64_of_inInt64 ⟨by omega, by omega⟩, growthCost_eq (hle newSize hend), hexact] at hgas
      refine ⟨_, rfl, MemoryCheck.precise_of_failed rfl hpos ?_⟩
      show s.gasLeft < memoryCost ((offset.toNat + size.toNat + 31) / 32 : Nat) -
        memoryCost (s.memory.size / 32)
      omega
  | grown newSize m hend hlt hgas hm hbytes =>
      have hpos : 0 < size.toNat := by
        by_contra hzero
        have hnone := regionEnd_zero hsize hend hzero
        omega
      have hexact := regionEnd_exact hsize hend hpos
      obtain ⟨hcost, hcost'⟩ := growthCost_bounds hlt (hle newSize hend)
      rw [toInt64_of_inInt64 ⟨by omega, by omega⟩, growthCost_eq (hle newSize hend), hexact] at hgas
      rw [hexact] at hm
      refine ⟨?_, _, rfl, MemoryCheck.precise_of_passed rfl h0 (fun _ => ?_) fun _ => ?_⟩
      · show m.size % 32 = 0
        omega
      · show memoryCost ((offset.toNat + size.toNat + 31) / 32 : Nat) -
          memoryCost (s.memory.size / 32) ≤ s.gasLeft
        omega
      · show m.size = max s.memory.size (32 * ((offset.toNat + size.toNat + 31) / 32))
        omega

/-! ## One operation -/

/-- All checks so far have been precise. -/
def ChecksPrecise (s : ExecutionState σ) : Prop := ∀ c ∈ s.ghost.checks, c.Precise

theorem ChecksPrecise.append {c : MemoryCheck} (h : ChecksPrecise s) (hc : c.Precise)
    (hchecks : t.ghost.checks = s.ghost.checks ++ [c]) : ChecksPrecise t := by
  unfold ChecksPrecise
  rw [hchecks]
  exact List.forall_mem_append.2 ⟨h, List.forall_mem_singleton.2 hc⟩

theorem ChecksPrecise.congr (h : ChecksPrecise s) (hchecks : t.ghost.checks = s.ghost.checks) :
    ChecksPrecise t := by
  unfold ChecksPrecise
  rw [hchecks]
  exact h

/-- The gas left is not negative, and with the cost of the memory it is within a budget. -/
structure Solvent (budget : Int) (s : ExecutionState σ) : Prop where
  words : s.memory.size % 32 = 0
  gas : 0 ≤ s.gasLeft
  funds : s.funds ≤ budget
  checks : ChecksPrecise s

theorem Solvent.congr {budget : Int} (h : Solvent budget s) (hgas : t.gasLeft = s.gasLeft)
    (hmemory : t.memory.size = s.memory.size) (hchecks : t.ghost.checks = s.ghost.checks) :
    Solvent budget t := by
  refine ⟨hmemory ▸ h.words, hgas ▸ h.gas, ?_, h.checks.congr hchecks⟩
  have hfunds := h.funds
  unfold ExecutionState.funds at *
  rwa [hgas, hmemory]

theorem Solvent.gas_lt {budget : Int} (h : Solvent budget s) (hbudget : budget < payableGas) :
    s.gasLeft < 2 ^ 62 := by
  have hmemory : 0 ≤ memoryCost (s.memory.size / 32) := memoryCost_nonneg (by omega)
  have hfunds : s.gasLeft + memoryCost (s.memory.size / 32) ≤ budget := h.funds
  have hpayable : payableGas < 2 ^ 62 := by decide
  omega

/-- Gas is taken, and not more than there is. -/
theorem Solvent.take {budget cost : Int} (h : Solvent budget s) (hcost : 0 ≤ cost)
    (hgas : t.gasLeft = s.gasLeft - cost) (hpos : 0 ≤ t.gasLeft)
    (hmemory : t.memory.size = s.memory.size) (hchecks : t.ghost.checks = s.ghost.checks) :
    Solvent budget t := by
  refine ⟨hmemory ▸ h.words, hpos, ?_, h.checks.congr hchecks⟩
  have hfunds := h.funds
  unfold ExecutionState.funds at *
  rw [hgas, hmemory]
  omega

/-- An operation that takes a payable cost at most, and checks no empty region of a fixed size. -/
def Op.Takes : Op → Prop
  | .charge cost => 0 ≤ cost ∧ cost < 2 ^ 62
  | .checkMemory _ (.u64 size) => 0 < size ∧ size ≤ maxBufferSize
  | .setGasLeft _ => False
  | _ => True

theorem handle_solvent (env : Env σ) {o : Op} (ho : o.Takes) {budget : Int}
    (hbudget : budget < payableGas) (h : Solvent budget s) :
    (handle env o s).Meets (fun _ t => Solvent budget t) (fun _ t => ChecksPrecise t)
      fun _ => True := by
  have hlt := h.gas_lt hbudget
  have hge := h.gas
  cases o with
  | setGasLeft => exact ho.elim
  | pop | push | peek | poke | load =>
      simp only [handle]
      split
      · exact h.congr rfl rfl rfl
      · trivial
  | store offset bytes =>
      simp only [handle]
      split
      · rename_i memory hstore
        exact h.congr rfl (Memory.size_of_store? hstore) rfl
      · trivial
  | charge cost =>
      obtain ⟨hcost, hcost'⟩ := ho
      simp only [handle]
      rw [noteInt64_of_inInt64 ⟨by omega, by omega⟩, setGas_of_cost hge (by omega) hcost hcost']
      split
      · exact h.checks
      · rename_i hpos
        exact h.take hcost rfl (Int.not_lt.1 hpos) rfl rfl
  | checkMemory offset size =>
      have hsize : ∀ n, size = .u64 n → 0 < n ∧ n ≤ maxBufferSize := by
        rintro n rfl
        exact ho
      have hcheck := handle_checkMemory env s offset size fun n hn => (hsize n hn).2
      have hprecise := checkResult_precise hsize h.words hge (lt_of_le_of_lt h.funds hbudget) hcheck
      generalize handle env (.checkMemory offset size) s = r at hcheck hprecise
      cases hcheck with
      | rejected hend =>
          obtain ⟨c, hchecks, hc⟩ := hprecise
          exact h.checks.append hc hchecks
      | unpaid newSize hend hlt' hgas =>
          obtain ⟨c, hchecks, hc⟩ := hprecise
          exact h.checks.append hc hchecks
      | covered newSize hend hle =>
          obtain ⟨hwords, c, hchecks, hc⟩ := hprecise
          exact ⟨hwords, hge, h.funds, h.checks.append hc hchecks⟩
      | grown newSize m hend hlt' hgas hm hbytes =>
          obtain ⟨hwords, c, hchecks, hc⟩ := hprecise
          have hle := regionEnd_le (fun n hn => (hsize n hn).2) hend
          obtain ⟨hcost, hcost'⟩ := growthCost_bounds hlt' hle
          refine ⟨hwords, hgas, ?_, h.checks.append hc hchecks⟩
          -- What the growth has cost is in the memory now.
          have hfunds : s.gasLeft + memoryCost (s.memory.size / 32) ≤ budget := h.funds
          show toInt64 (s.gasLeft - growthCost s.memory.size newSize) + memoryCost
              (m.size / 32) ≤ budget
          rw [toInt64_of_inInt64 ⟨by omega, by omega⟩, hm, memoryCost_grown s.memory.size hle]
          omega
  | exit status => exact h.checks
  | fault f => trivial
  | _ => exact h.congr rfl rfl rfl

/-- An operation that is no memory check. -/
def Op.SkipsChecks : Op → Prop
  | .checkMemory _ _ => False
  | _ => True

theorem handle_skipsChecks (env : Env σ) {o : Op} (ho : o.SkipsChecks) (h : ChecksPrecise s) :
    (handle env o s).Meets (fun _ t => ChecksPrecise t) (fun _ t => ChecksPrecise t)
      fun _ => True := by
  cases o with
  | checkMemory => exact ho.elim
  | pop | push | peek | poke | load | store | charge =>
      simp only [handle]
      split
      · exact h
      · first | exact h | trivial
  | fault f => trivial
  | _ => exact h

theorem run_skipsChecks (env : Env σ) {α : Type} {p : Exec α} (hp : p.Uses Op.SkipsChecks)
    (h : ChecksPrecise s) :
    (p.run env s).Meets (fun _ t => ChecksPrecise t) (fun _ t => ChecksPrecise t) fun _ => True :=
  run_of_uses (fun _ _ ho hs => handle_skipsChecks env ho hs) hp h

theorem run_solvent (env : Env σ) {α : Type} {p : Exec α} (hp : p.Uses Op.Takes) {budget : Int}
    (hbudget : budget < payableGas) (h : Solvent budget s) :
    (p.run env s).Meets (fun _ t => Solvent budget t) (fun _ t => ChecksPrecise t) fun _ => True :=
  run_of_uses (fun _ _ ho hs => handle_solvent env ho hbudget hs) hp h

/-! ## Instructions -/

section Takes

attribute [local simp] Uses Footprint Op.Takes Op.SkipsChecks Exec.perform Exec.pop Exec.push
  Exec.peek Exec.poke
  Exec.top Exec.setTop Exec.charge Exec.checkMemory Exec.checkMemory64 Exec.load Exec.store
  Exec.memorySize Exec.gasLeft Exec.setGasLeft Exec.int64 Exec.returnData Exec.setReturnData
  Exec.setOutputOffset Exec.setOutputSize Exec.request Exec.Host.call
  Exec.keccak256 Exec.read Exec.Host.accountExists Exec.Host.getStorage Exec.Host.setStorage
  Exec.Host.getBalance Exec.Host.getCodeSize Exec.Host.getCodeHash Exec.Host.copyCode
  Exec.Host.selfdestruct Exec.Host.getTxContext Exec.Host.getBlockHash Exec.Host.emitLog
  Exec.Host.accessAccount Exec.Host.accessStorage

attribute [local simp] footprint_exit footprint_fault

theorem takes_popTopics (n : Nat) : (popTopics n).Uses Op.Takes := by
  induction n with
  | zero => trivial
  | succ n ih =>
      unfold popTopics
      exact Uses.bind (by simp) fun topic => Uses.bind ih fun topics => trivial

theorem takes_sstore (ctx : Context) : (sstore ctx).Uses Op.Takes := by
  have hcost : ∀ (cost : Int) (status : StorageStatus), 0 ≤ cost → cost ≤ 2100 →
      0 ≤ sstoreCost ctx.rev cost status ∧ sstoreCost ctx.rev cost status < 4611686018427387904 :=
    fun cost status h0 h1 => sstoreCost_range ctx.rev h0 h1 status
  simp [sstore, instr.coldSloadCost]
  grind

/-- The instructions other than LOG, calls and creations. -/
theorem takes_basic {op : Opcode} {f : Context → Exec Unit} (hop : Baseline.op2fn op = .basic f)
    (hlog : ∀ n, op ≠ .log n) (hcall : op.isCall = false) : (f ctx).Uses Op.Takes := by
  have hwords : ∀ (size : Nat) (price : Int), 0 ≤ price → price ≤ 6 →
      0 ≤ numWords size * price ∧ numWords size * price < 4611686018427387904 :=
    fun size price h0 h6 => wordCost_range size h0 h6
  cases op with
  | stop | jump | jumpi | pc | push | return_ | revert | invalid | selfdestruct => cases hop
  | log n => exact absurd rfl (hlog n)
  | call | callcode | delegatecall | staticcall | create | create2 => cases hcall
  | add | mul | signextend | lt | gt | slt | sgt | and_ | or_ | xor_ | byte | shl | shr | sar =>
      cases hop
      simp [add, mul, signextend, lt, gt, slt, sgt, and_, or_, xor_, byte, shl, shr,
        sar, popIntoTop]
  | sub | div | sdiv | mod | smod | eq =>
      cases hop
      simp [sub, div, sdiv, mod, smod, eq, intoSecond]
  | addmod | mulmod =>
      cases hop
      simp [addmod, mulmod, popTwoIntoTop]
  | iszero | not_ =>
      cases hop
      simp [iszero, not_, mapTop]
  | origin | gasprice | coinbase | timestamp | number | difficulty | gaslimit | chainid | basefee =>
      cases hop
      simp [origin, gasprice, coinbase, timestamp, number, difficulty, gaslimit, chainid, basefee,
        pushTxContext]
  | calldatacopy | codecopy =>
      cases hop
      simp [calldatacopy, codecopy, copyWindow, hwords]
  | keccak256 =>
      cases hop
      simp [Instructions.keccak256, hwords]
  | returndatacopy =>
      cases hop
      simp [returndatacopy, hwords]
  | balance | extcodesize | extcodehash =>
      cases hop
      simp [balance, extcodesize, extcodehash, accountQuery, chargeColdAccount,
        instr.additionalColdAccountAccessCost, instr.coldAccountAccessCost,
          instr.warmStorageReadCost]
  | extcodecopy =>
      cases hop
      simp [extcodecopy, chargeColdAccount, hwords, instr.additionalColdAccountAccessCost,
        instr.coldAccountAccessCost, instr.warmStorageReadCost]
  | exp =>
      cases hop
      simp only [exp, Uses, Program.sat_bind]
      refine ⟨trivial, fun base => ⟨trivial, fun exponent =>
        ⟨?_, fun _ => ⟨trivial, fun _ => trivial⟩⟩⟩⟩
      have hbytes := UInt256.countSignificantBytes_le exponent
      show 0 ≤ _ * _ ∧ _ * _ < _
      split <;> omega
  | sload =>
      cases hop
      simp [sload, instr.coldSloadCost, instr.warmStorageReadCost]
  | sstore =>
      cases hop
      exact takes_sstore ctx
  | calldataload | blockhash | address | caller | callvalue | calldatasize | codesize | returndatasize
  | selfbalance | pop | mload | mstore | mstore8 | msize | gas | jumpdest | dup | swap =>
      cases hop
      simp [calldataload, blockhash, address, caller, callvalue, calldatasize, codesize,
        returndatasize, selfbalance, Instructions.pop, mload, mstore, mstore8, msize, gas, jumpdest,
        dup, swap, maxBufferSize]

theorem takes_terminating {op : Opcode} {f : Context → Exec StatusCode}
    (hop : Baseline.op2fn op = .terminating f) : (f ctx).Uses Op.Takes := by
  cases op with
  | stop | return_ | revert | invalid | selfdestruct =>
      cases hop
      simp [stop, return_, invalid, selfdestruct, chargeColdAccount, chargeNewBeneficiary,
        instr.coldAccountAccessCost]
  | _ => cases hop

theorem takes_readCall (kind : CallKind) (isStatic : Bool) (ctx : Context) :
    (readCall kind isStatic ctx).Uses Op.Takes := by
  simp [readCall, popCallValue, chargeColdAccount, loadRegion,
    instr.additionalColdAccountAccessCost, instr.coldAccountAccessCost, instr.warmStorageReadCost]

theorem takes_payCall (kind : CallKind) (isStatic : Bool) (ctx : Context) :
    (payCall kind isStatic ctx).Uses Op.Takes := by
  refine Uses.bind (takes_readCall kind isStatic ctx) fun x => ?_
  generalize (x.value != 0) = hasValue
  cases hasValue with
  | false => simp [callCost]
  | true => simp [callCost]

theorem takes_payCreate (kind : CallKind) (ctx : Context) : (payCreate kind ctx).Uses Op.Takes := by
  have hwords : ∀ size : Nat, 0 ≤ numWords size * 6 ∧ numWords size * 6 < 4611686018427387904 :=
    fun size => wordCost_range size (by omega) (by omega)
  simp [payCreate, popSalt, hwords]

theorem skips_sstore (ctx : Context) : (sstore ctx).Uses Op.SkipsChecks := by
  simp [sstore]

theorem skips_gated (ctx : Context) {send : Exec Unit} (hsend : send.Uses Op.SkipsChecks)
    (value : UInt256) :
    (gated ctx value send).Uses Op.SkipsChecks := by
  unfold gated
  split
  · trivial
  · refine Uses.bind (by simp [hasBalance]) fun enough => ?_
    split
    · exact hsend
    · trivial

theorem skips_forwardGas (ctx : Context) (gas value : UInt256) :
    (forwardGas ctx gas value).Uses Op.SkipsChecks := by
  simp [forwardGas, callGas, allButOne64th, addStipend]

theorem skips_sendCall (msg : Message) (outputOffset outputSize : UInt256) :
    (sendCall msg outputOffset outputSize).Uses Op.SkipsChecks := by
  simp [sendCall, storeOutput, spendGas]

theorem skips_forwardCreate (kind : CallKind) (ctx : Context) (x : CreateOperands) :
    (forwardCreate kind ctx x).Uses Op.SkipsChecks := by
  simp [forwardCreate, createGas, allButOne64th, loadRegion, sendCreate, spendGas]

/-- LOG after its check: the size is known to be small. -/
theorem takes_logRest (numTopics : Fin 5) (ctx : Context) (offset : UInt256) {size : UInt256}
    (hsize : size.toNat ≤ maxBufferSize) :
    (do
      Exec.charge (toInt64 size.toSize * 8)
      let topics ← popTopics numTopics
      let data ← if size.toSize ≠ 0 then Exec.load offset.toSize size.toSize else pure []
      Exec.Host.emitLog ctx.msg.recipient data topics).Uses Op.Takes := by
  have hsmall : size.toSize ≤ maxBufferSize := by
    rw [UInt256.toSize_of_lt (Nat.lt_of_le_of_lt hsize (by decide))]
    exact hsize
  unfold maxBufferSize at hsmall
  have hcost : (Exec.charge (toInt64 size.toSize * 8)).Uses Op.Takes := by
    rw [toInt64_of_inInt64 ⟨by omega, by omega⟩]
    exact ⟨⟨by omega, by omega⟩, fun _ => trivial⟩
  refine Uses.bind hcost fun _ => Uses.bind (takes_popTopics _) fun topics => ?_
  simp

end Takes

/-! ## Calls, creations and LOG -/

theorem size_of_outputCopied {offset size : UInt256} {output : Buffer} {m m' : Memory}
    (h : outputCopied offset size output m = some m') : m'.size = m.size := by
  unfold outputCopied at h
  dsimp only at h
  split at h
  · exact Memory.size_of_store? h
  · injection h with h
    rw [h]

/-- Settling with the callee takes what it has used. -/
theorem Solvent.spend {budget used : Int} (h : Solvent budget s) (hbudget : budget < payableGas)
    (h0 : 0 ≤ used) (hle : used ≤ s.gasLeft) : Solvent budget (Ivmone.spend used s) := by
  have hlt := h.gas_lt hbudget
  obtain ⟨hgas, hghost⟩ := spend_gas h0 hle (by omega)
  exact h.take h0 hgas (by omega) rfl (by rw [hghost])

theorem Solvent.askBalance {budget : Int} (h : Solvent budget s) (value : UInt256) :
    Solvent budget (Ivmone.askBalance env ctx value s) := by
  obtain ⟨host, calls, hask⟩ := askBalance_eq env ctx value s
  rw [hask]
  exact h.congr rfl rfl rfl

/-- An exit from a payment, or from a rest that checks no memory. -/
theorem checksPrecise_of_exit {α β : Type} {p : Exec α} {rest : α → Exec β} {status : StatusCode}
    {budget : Int} (hp : p.Uses Op.Takes) (hrest : ∀ x, (rest x).Uses Op.SkipsChecks)
    (hbudget : budget < payableGas) (h : Solvent budget s)
    (hexit : (p >>= rest).run env s = .exit status t) : ChecksPrecise t := by
  have hpays := run_solvent env hp hbudget h
  rcases Outcome.bind_eq_exit ((run_bind _ p rest s).symm.trans hexit) with hexit | ⟨x,
    s', hx, hexit⟩
  · rw [Exec.run, hexit] at hpays
    exact hpays
  · rw [Exec.run, hx] at hpays
    have hskips := run_skipsChecks env (hrest x) hpays.checks
    rw [Exec.run, hexit] at hskips
    exact hskips

theorem call_solvent {kind : CallKind} {isStatic : Bool} {budget : Int}
    (hhost : env.host.CallBounded) (hbudget : budget < payableGas) (h : Solvent budget s) :
    ((call kind isStatic ctx).run env s).Meets (fun _ t => Solvent budget t)
      (fun _ t => ChecksPrecise t) fun _ => True := by
  have hlt := h.gas_lt hbudget
  have hpays := run_solvent env (takes_payCall kind isStatic ctx) hbudget h
  cases hrun : (call kind isStatic ctx).run env s with
  | fault f => trivial
  | exit status t =>
      rw [call_eq] at hrun
      refine checksPrecise_of_exit (takes_payCall kind isStatic ctx) (fun x => ?_) hbudget h hrun
      exact Uses.bind (skips_forwardGas ctx x.gas x.value) fun msgGas =>
        skips_gated ctx (skips_sendCall _ x.outputOffset x.outputSize) x.value
  | ok u t =>
      obtain ⟨x, paid, msgGas, ready, hpay, hforward, hend⟩ := call_ok hrun
      rw [hpay] at hpays
      obtain ⟨hspent, hroom, hfunds⟩ := payCall_ok h.gas (by omega) hpay
      obtain ⟨f, rfl, hforwarded, -, hready⟩ := forwardGas_ok hspent.nonneg (by omega) hforward
      have hstipend := stipend_nonneg x.value
      have hsolvent : Solvent budget ready := by
        refine ⟨?_, ?_, ?_, ?_⟩ <;> rw [hready]
        · exact hpays.words
        · show 0 ≤ paid.gasLeft + stipend x.value
          have hnonneg := hspent.nonneg
          omega
        · have hbefore := h.funds
          unfold ExecutionState.funds at *
          show paid.gasLeft + stipend x.value + memoryCost (paid.memory.size / 32) ≤ budget
          omega
        · exact hpays.checks
      have hgas : ready.gasLeft = paid.gasLeft + stipend x.value := by rw [hready]
      have hasked := @Solvent.askBalance σ env ctx _ _ hsolvent x.value
      rcases hend with ⟨-, stack, memory, hmemory, rfl⟩ | ⟨-, rfl | rfl⟩
      · obtain ⟨host, calls, hask⟩ := askBalance_eq env ctx x.value ready
        generalize Ivmone.askBalance env ctx x.value ready = asked at *
        have hgas' : asked.gasLeft = ready.gasLeft := by rw [hask]
        have hsize : memory.size = asked.memory.size := by
          rw [hask]
          exact size_of_outputCopied hmemory
        have hf := hforwarded.nonneg
        have hown := hforwarded.le
        set msg := callMessage kind isStatic ctx x.dst x.value x.input
          (f + stipend x.value) with hmsg
        have hmsgGas : msg.gas = f + stipend x.value := rfl
        obtain ⟨hr0, hr⟩ := hhost msg asked.host (by omega)
        -- The callee has got no more than there is.
        refine Solvent.spend ?_ hbudget (by omega) (show _ ≤ asked.gasLeft by omega)
        exact hasked.congr rfl hsize rfl
      · exact hsolvent
      · exact hasked

theorem create_solvent {kind : CallKind} {budget : Int} (hhost : env.host.CallBounded)
    (hbudget : budget < payableGas) (h : Solvent budget s) :
    ((create kind ctx).run env s).Meets (fun _ t => Solvent budget t) (fun _ t => ChecksPrecise t)
      fun _ => True := by
  have hpays := run_solvent env (takes_payCreate kind ctx) hbudget h
  cases hrun : (create kind ctx).run env s with
  | fault f => trivial
  | exit status t =>
      rw [create_eq] at hrun
      refine checksPrecise_of_exit (takes_payCreate kind ctx) (fun x => ?_) hbudget h hrun
      exact skips_gated ctx (skips_forwardCreate kind ctx x) x.endowment
  | ok u t =>
      obtain ⟨x, paid, hpay, hend⟩ := create_ok hrun
      rw [hpay] at hpays
      have hpaid : Solvent budget paid := hpays
      have hasked := @Solvent.askBalance σ env ctx _ _ hpaid x.endowment
      rcases hend with ⟨-, msgGas, ready, input, stack, hcreate, rfl⟩ | ⟨-, rfl | rfl⟩
      · have hlt := hasked.gas_lt hbudget
        obtain ⟨rfl, hforwarded⟩ := createGas_ok hasked.gas (by omega) hcreate
        generalize Ivmone.askBalance env ctx x.endowment paid = ready at *
        have hf := hforwarded.nonneg
        have hown := hforwarded.le
        set msg := createMessage kind ctx x.endowment x.salt input msgGas with hmsg
        have hmsgGas : msg.gas = msgGas := rfl
        obtain ⟨hr0, hr⟩ := hhost msg ready.host (by omega)
        have hsettled : Solvent budget (Ivmone.spend
            (msg.gas - (env.host (.call msg) ready.host).1.gasLeft) (called env msg ready)) := by
          refine Solvent.spend (hasked.congr rfl rfl rfl) hbudget (by omega) ?_
          show _ ≤ ready.gasLeft
          omega
        exact hsettled.congr rfl rfl rfl
      · exact hpaid
      · exact hasked

theorem log_solvent {numTopics : Fin 5} {budget : Int} (hbudget : budget < payableGas)
    (h : Solvent budget s) :
    ((log numTopics ctx).run env s).Meets (fun _ t => Solvent budget t) (fun _ t => ChecksPrecise t)
      fun _ => True := by
  have htakes : Exec.pop.Uses Op.Takes := ⟨trivial, fun _ => trivial⟩
  have hpop : ∀ {s : ExecutionState σ}, Solvent budget s →
      (run (handle env) Exec.pop s).Meets (fun _ t => Solvent budget t) (fun _ t => ChecksPrecise t)
        fun _ => True := fun hs => run_solvent env htakes hbudget hs
  unfold log
  by_cases hstatic : ctx.msg.isStatic
  · rw [if_pos hstatic]
    exact h.checks
  · rw [if_neg hstatic, Exec.run, run_bind]
    refine Outcome.Meets.bind (hpop h) fun offset s1 h1 => ?_
    rw [run_bind]
    refine Outcome.Meets.bind (hpop h1) fun size s2 h2 => ?_
    rw [run_bind]
    -- the check that passes also bounds the size, which the cost per byte is then made of
    have hcheck : (run (handle env) (Exec.checkMemory offset size) s2).Meets
        (fun _ t => Solvent budget t ∧ size.toNat ≤ maxBufferSize) (fun _ t => ChecksPrecise t)
        fun _ => True := by
      have hchecks : (Exec.checkMemory offset size).Uses Op.Takes := ⟨trivial, fun _ => trivial⟩
      have hsolvent := run_solvent env hchecks hbudget h2
      cases hrun : (Exec.checkMemory offset size).run env s2 with
      | ok u t =>
          rw [hrun] at hsolvent
          rw [← Exec.run, hrun]
          exact ⟨hsolvent, (checkMemory_ok hrun).1.toNat_le⟩
      | exit status t =>
          rw [hrun] at hsolvent
          rw [← Exec.run, hrun]
          exact hsolvent
      | fault f =>
          rw [← Exec.run, hrun]
          trivial
    refine Outcome.Meets.bind hcheck fun _ s3 h3 => ?_
    exact run_solvent env (takes_logRest numTopics ctx offset h3.2) hbudget h3.1

/-- Every implementation keeps within the budget. -/
theorem basic_solvent {op : Opcode} {f : Context → Exec Unit} {budget : Int}
    (hop : Baseline.op2fn op = .basic f) (hhost : env.host.CallBounded)
    (hbudget : budget < payableGas) (h : Solvent budget s) :
    ((f ctx).run env s).Meets (fun _ t => Solvent budget t) (fun _ t => ChecksPrecise t)
      fun _ => True := by
  by_cases hlog : ∃ n, op = .log n
  · obtain ⟨n, rfl⟩ := hlog
    cases hop
    exact log_solvent hbudget h
  · by_cases hcall : op.isCall = false
    · exact run_solvent env (takes_basic hop (fun n hn => hlog ⟨n, hn⟩) hcall) hbudget h
    · cases op with
      | call | callcode | delegatecall | staticcall =>
          cases hop
          exact call_solvent hhost hbudget h
      | create | create2 =>
          cases hop
          exact create_solvent hhost hbudget h
      | _ => exact absurd rfl hcall

end Ivmone
