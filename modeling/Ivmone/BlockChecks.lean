import Ivmone.AdvancedRuns

/-!
# Block checks and instruction checks

The BEGINBLOCK of a block tests its stack and gas requirements once; Baseline tests those of every
instruction. For a block of defined instructions the tests of the BEGINBLOCK pass if and only if all
tests of its instructions do, with the heights and the gas that the base costs and the height
changes of the instructions lead to.
-/

set_option autoImplicit false

namespace Ivmone

variable {σ : Type}

namespace Baseline

/-- The stack test of `check_requirements`, with the status it ends in. -/
def stackTest (metrics : InstructionTableEntry) (stackSize : Nat) : StatusCode :=
  if stackSize = Stack.limit then
    if metrics.canOverflowStack then .stackOverflow else .success
  else if (stackSize : Int) < metrics.stackHeightRequired then .stackUnderflow
  else .success

/-- `check_requirements` ends with the stack test, unless the instruction is undefined or the gas
does not cover its base cost. -/
theorem checkRequirements_eq_stackTest (s : ExecutionState σ) (op : Byte)
    (hdef : instr.gasCost s.rev op ≠ instr.undefined)
    (hgas : 0 ≤ toInt64 (s.gasLeft - instr.gasCost s.rev op)) :
    (checkRequirements s op).1 = stackTest (instructionTable s.rev op) s.stack.size := by
  have hpaid : ¬ (s.setGas (s.gasLeft - (instructionTable s.rev op).gasCost)).gasLeft < 0 :=
    Int.not_lt.2 hgas
  have hsize : (s.setGas (s.gasLeft - (instructionTable s.rev op).gasCost)).stack.size =
      s.stack.size := rfl
  have hdef' : (instructionTable s.rev op).gasCost ≠ instr.undefined := hdef
  unfold checkRequirements stackTest
  dsimp only
  rw [if_neg hdef', if_neg hpaid, hsize]
  split
  · split <;> rfl
  · split <;> rfl

/-- Without enough gas for the base cost, `check_requirements` is out of gas. -/
theorem checkRequirements_of_short (s : ExecutionState σ) (op : Byte)
    (hdef : instr.gasCost s.rev op ≠ instr.undefined)
    (hgas : toInt64 (s.gasLeft - instr.gasCost s.rev op) < 0) :
    checkRequirements s op = (.outOfGas, s.setGas (s.gasLeft - instr.gasCost s.rev op)) := by
  have hshort : (s.setGas (s.gasLeft - (instructionTable s.rev op).gasCost)).gasLeft < 0 := hgas
  have hdef' : (instructionTable s.rev op).gasCost ≠ instr.undefined := hdef
  unfold checkRequirements
  dsimp only
  rw [if_neg hdef', if_pos hshort]
  rfl

/-- The stack test passes at every instruction, with the height changed by each of them. -/
def StackTestsPass (rev : Revision) : List Decoded → Nat → Prop
  | [], _ => True
  | d :: ds, stackSize =>
      stackTest (instructionTable rev d.opcode) stackSize = .success ∧
        StackTestsPass rev ds (stackSize + (instr.traitsOf d.opcode).stackHeightChange).toNat

/-- The base costs are deducted one after the other and the gas never goes below zero. -/
def DeductionsPass (rev : Revision) : List Decoded → Int → Prop
  | [], _ => True
  | d :: ds, gas =>
      0 ≤ gas - (instructionTable rev d.opcode).gasCost ∧
        DeductionsPass rev ds (gas - (instructionTable rev d.opcode).gasCost)

end Baseline

namespace Advanced

variable {rev : Revision}

/-- The table entries of a defined instruction in the two interpreters. -/
theorem entries_of_defined {d : Decoded} (hdef : instr.gasCost rev d.opcode ≠ instr.undefined) :
    ∃ op, Opcode.ofByte d.opcode = some op ∧ costOf rev d = instr.gasCost rev d.opcode ∧
      requiredBy rev d = (instr.traits op).stackHeightRequired ∧
      changeOf rev d = (instr.traits op).stackHeightChange ∧
      instr.traitsOf d.opcode = instr.traits op := by
  obtain ⟨op, hop, hcost, hne⟩ := instr.exists_opcode hdef
  obtain ⟨h1, h2, h3⟩ := requirements_of_ofByte rev hop hne
  exact ⟨op, hop, h1.trans hcost.symm, h2, h3, instr.traitsOf_of_ofByte hop⟩

/-- One stack test: overflow is only tested at the limit, as no instruction adds more than one
item. -/
theorem stackTest_iff {d : Decoded} (hdef : instr.gasCost rev d.opcode ≠ instr.undefined)
    {height : Nat} (hheight : height ≤ 1024) :
    Baseline.stackTest (Baseline.instructionTable rev d.opcode) height = .success ↔
      requiredBy rev d ≤ height ∧ height + changeOf rev d ≤ 1024 := by
  obtain ⟨op, -, -, hrequired, hchange, htraits⟩ := entries_of_defined hdef
  obtain ⟨h0, h17, hone, -⟩ := traits_range op
  unfold Baseline.stackTest Baseline.instructionTable
  rw [hrequired, hchange, htraits]
  by_cases hfull : height = Stack.limit
  · have h1024 : height = 1024 := hfull
    rw [if_pos hfull]
    by_cases hgrow : 0 < (instr.traits op).stackHeightChange
    · rw [if_pos (decide_eq_true hgrow)]
      exact ⟨nofun, fun h => absurd h.2 (by omega)⟩
    · rw [if_neg (by simpa using hgrow)]
      exact ⟨fun _ => by omega, fun _ => rfl⟩
  · have h1024 : height ≠ 1024 := hfull
    rw [if_neg hfull]
    by_cases hunder : (height : Int) < (instr.traits op).stackHeightRequired
    · rw [if_pos hunder]
      exact ⟨nofun, fun h => absurd h.1 (by omega)⟩
    · rw [if_neg hunder]
      exact ⟨fun _ => by omega, fun _ => rfl⟩

/-- The exact requirements of a list of instructions are those of all its instructions. -/
theorem stackTestsPass_iff {ds : List Decoded}
    (hdef : ∀ d ∈ ds, instr.gasCost rev d.opcode ≠ instr.undefined) {height : Nat}
    (hheight : height ≤ 1024) :
    Baseline.StackTestsPass rev ds height ↔
      stackRequired rev ds ≤ height ∧ height + maxGrowth rev ds ≤ 1024 := by
  induction ds generalizing height with
  | nil =>
      refine ⟨fun _ => ?_, fun _ => trivial⟩
      show (0 : Int) ≤ height ∧ height + (0 : Int) ≤ 1024
      omega
  | cons d ds ih =>
      have hd := hdef d List.mem_cons_self
      obtain ⟨op, -, -, hrequired, hchange, htraits⟩ := entries_of_defined hd
      obtain ⟨h0, -, -, hsum⟩ := traits_range op
      have hgrowth := maxGrowth_nonneg rev ds
      have htail : ∀ x ∈ ds, instr.gasCost rev x.opcode ≠ instr.undefined :=
        fun x hx => hdef x (List.mem_cons_of_mem d hx)
      unfold Baseline.StackTestsPass
      rw [stackTest_iff hd hheight, htraits, ← hchange, stackRequired, maxGrowth]
      constructor
      · rintro ⟨⟨hneeds, hroom⟩, hrest⟩
        have hnext := (ih htail (by omega)).1 hrest
        omega
      · rintro ⟨hneeds, hroom⟩
        refine ⟨by omega, (ih htail (by omega)).2 ?_⟩
        omega

/-- The deductions of the base costs end with the base cost of the whole list. -/
theorem deductionsPass_iff {ds : List Decoded}
    (hdef : ∀ d ∈ ds, instr.gasCost rev d.opcode ≠ instr.undefined) {gas : Int}
    (hgas : ds = [] → 0 ≤ gas) :
    Baseline.DeductionsPass rev ds gas ↔ 0 ≤ gas - baseCost rev ds := by
  induction ds generalizing gas with
  | nil =>
      refine ⟨fun _ => ?_, fun _ => trivial⟩
      have h0 := hgas rfl
      show 0 ≤ gas - 0
      omega
  | cons d ds ih =>
      obtain ⟨-, -, hcost, -⟩ := entries_of_defined (hdef d List.mem_cons_self)
      have htail : ∀ x ∈ ds, instr.gasCost rev x.opcode ≠ instr.undefined :=
        fun x hx => hdef x (List.mem_cons_of_mem d hx)
      have hrest := baseCost_nonneg rev ds
      have hentry : (Baseline.instructionTable rev d.opcode).gasCost = costOf rev d := hcost.symm
      unfold Baseline.DeductionsPass
      rw [hentry, baseCost]
      constructor
      · rintro ⟨h0, hds⟩
        have hall := (ih htail fun _ => h0).1 hds
        omega
      · intro hall
        have h0 : 0 ≤ gas - costOf rev d := by omega
        exact ⟨h0, (ih htail fun _ => h0).2 (by omega)⟩

/-- The BEGINBLOCK of a block lets it start. -/
def Enters (info : BlockInfo) (ip : Nat) (s : AdvancedExecutionState σ) : Prop :=
  ∃ t, opxBeginblock info ip s = .running (ip + 1) t

/-- The BEGINBLOCK of a block is out of gas. -/
def IsOutOfGas (info : BlockInfo) (ip : Nat) (s : AdvancedExecutionState σ) : Prop :=
  ∃ t, opxBeginblock info ip s = .halted t ∧ t.status = .outOfGas

/-- The gas test comes first and is the only one that ends out of gas. -/
theorem isOutOfGas_iff (info : BlockInfo) (ip : Nat) (s : AdvancedExecutionState σ) :
    IsOutOfGas info ip s ↔ toInt64 (s.gasLeft - info.gasCost) < 0 := by
  have hgas : (s.setGas (s.gasLeft - info.gasCost)).gasLeft =
      toInt64 (s.gasLeft - info.gasCost) := rfl
  unfold IsOutOfGas opxBeginblock
  simp only [hgas]
  constructor
  · rintro ⟨t, ht, hstatus⟩
    by_contra hpaid
    rw [if_neg hpaid] at ht
    split at ht
    · cases ht
      cases hstatus
    · split at ht
      · cases ht
        cases hstatus
      · cases ht
  · intro hshort
    rw [if_pos hshort]
    exact ⟨_, rfl, rfl⟩

/-- With the gas for it, a block starts if and only if its two stack tests pass. -/
theorem enters_iff {info : BlockInfo} {ip : Nat} {s : AdvancedExecutionState σ}
    (hgas : ¬ IsOutOfGas info ip s) :
    Enters info ip s ↔
      info.stackReq ≤ s.stack.height ∧ s.stack.height + info.stackMaxGrowth ≤ 1024 := by
  rw [isOutOfGas_iff] at hgas
  rcases opxBeginblock_cases info ip s with ⟨status, -, hrun, hnot⟩ | ⟨hrun, -, hstack⟩
  · refine ⟨?_, fun hstack => absurd ⟨Int.not_lt.1 hgas, hstack⟩ hnot⟩
    rintro ⟨t, ht⟩
    rw [hrun] at ht
    cases ht
  · exact ⟨fun _ => hstack, fun _ => ⟨_, hrun⟩⟩

/-- The requirements of a block are exactly those of its instructions. -/
theorem block_requirements_exact (rev : Revision) (code : List Byte) {closed : List (List Decoded)}
    {b : List Decoded} {post : List (List Decoded)}
    (hsplit : blocksOf (decode code) = closed ++ b :: post)
    (hdef : ∀ d ∈ b, instr.gasCost rev d.opcode ≠ instr.undefined) (hlen : b.length < 2 ^ 30) :
    ∃ info, (analyze rev code).instrs[(tableOf rev 0 closed).length]? =
        some { fn := some .opxBeginblock, arg := .block info } ∧
      (∀ (ip : Nat) (s : AdvancedExecutionState σ), ¬ IsOutOfGas info ip s →
        (Enters info ip s ↔ Baseline.StackTestsPass rev b s.stack.height)) ∧
      (baseCost rev b ≤ 2 ^ 32 - 1 →
        ∀ (ip : Nat) (s : AdvancedExecutionState σ), -2 ^ 62 ≤ s.gasLeft → s.gasLeft < 2 ^ 63 →
          (b = [] → 0 ≤ s.gasLeft) →
          (¬ IsOutOfGas info ip s ↔ Baseline.DeductionsPass rev b s.gasLeft)) := by
  refine ⟨(summarize rev 0 b).close, getElem?_instrs_of_append hsplit, ?_, ?_⟩
  · intro ip s hgas
    rw [enters_iff hgas, stackTestsPass_iff hdef s.stack.height_le]
    exact stack_check_iff rev 0 hlen s.stack.height_le
  · intro hfit ip s hlow hhigh hempty
    have hcost : ((summarize rev 0 b).close.gasCost : Int) = baseCost rev b := by
      rw [close_gasCost]
      omega
    have h0 := baseCost_nonneg rev b
    rw [deductionsPass_iff hdef hempty, isOutOfGas_iff, hcost, Int.not_lt,
      toInt64_of_inInt64 ⟨by omega, by omega⟩]

/-- ADDRESS, as the whole code, with the gas of its base cost. -/
theorem block_requirements_exact_address :
    ∃ info, (analyze .berlin [Opcode.address.toByte]).instrs[0]? =
        some { fn := some .opxBeginblock, arg := .block info } ∧
      (¬ IsOutOfGas info 0 (⟨truncatedPush.newState, 0⟩ : AdvancedExecutionState Unit) ↔
        Baseline.DeductionsPass .berlin [⟨0, Opcode.address.toByte, []⟩] 100) := by
  have hdecode : decode [Opcode.address.toByte] = [⟨0, Opcode.address.toByte, []⟩] := by
    unfold decode
    rw [decodeFrom_of_some rfl, decodeFrom_of_le (by decide)]
    rfl
  have hsplit : blocksOf (decode [Opcode.address.toByte]) =
      [] ++ [⟨0, Opcode.address.toByte, []⟩] :: [] := by
    rw [hdecode]
    rfl
  obtain ⟨info, hinfo, -, hgas⟩ := block_requirements_exact (σ := Unit) .berlin
    [Opcode.address.toByte] hsplit (by decide) (by decide)
  exact ⟨info, hinfo, hgas (by decide) 0 ⟨truncatedPush.newState, 0⟩ (by decide) (by decide) nofun⟩

end Advanced

end Ivmone
