import Ivmone.Jumpdests

/-!
# The requirements of a block

What a block needs, as exact integers: the stack items it requires, how far the stack grows in it,
and its base cost. The analysis computes with `int` and stores clamped values; a block with fewer
than `2 ^ 30` instructions passes the check of its BEGINBLOCK if and only if the exact requirements
are met.
-/

set_option autoImplicit false

namespace Ivmone.Advanced

variable (rev : Revision)

/-- The stack items an instruction requires; an undefined one requires none. -/
def requiredBy (d : Decoded) : Int := (opTable rev d.opcode).stackReq

/-- The height change an instruction makes. -/
def changeOf (d : Decoded) : Int := (opTable rev d.opcode).stackChange

/-- The stack items a list of instructions requires at its start. -/
def stackRequired : List Decoded → Int
  | [] => 0
  | d :: ds => max (requiredBy rev d) (stackRequired ds - changeOf rev d)

/-- How far the stack grows at most in a list of instructions. -/
def maxGrowth : List Decoded → Int
  | [] => 0
  | d :: ds => max 0 (changeOf rev d + maxGrowth ds)

/-- The height change of a list of instructions. -/
def totalChange : List Decoded → Int
  | [] => 0
  | d :: ds => changeOf rev d + totalChange ds

/-- The entry of a byte in the table: undefined, or that of an opcode. -/
theorem opTable_cases (rev : Revision) (b : Byte) :
    (instr.gasCost rev b = instr.undefined ∧ opTable rev b = { fn := some .opUndefined }) ∨
    ∃ op, Opcode.ofByte b = some op ∧ instr.gasCosts rev op ≠ instr.undefined ∧
      opTable rev b = {
        fn := some (instructionImplementations op)
        gasCost := instr.gasCosts rev op
        stackReq := (instr.traits op).stackHeightRequired
        stackChange := (instr.traits op).stackHeightChange } := by
  unfold opTable
  by_cases hdef : instr.gasCost rev b = instr.undefined
  · exact .inl ⟨hdef, if_pos hdef⟩
  · obtain ⟨op, hop, hcost, hne⟩ := instr.exists_opcode hdef
    refine .inr ⟨op, hop, hne, ?_⟩
    rw [if_neg hdef, hop, hcost, instr.traitsOf_of_ofByte hop]
    rfl

/-- A decoded instruction is undefined, or that of an opcode with its traits. -/
theorem decoded_cases (d : Decoded) :
    (instr.gasCost rev d.opcode = instr.undefined ∧
      (opTable rev d.opcode).fn = some .opUndefined ∧ costOf rev d = 0 ∧ requiredBy rev d = 0 ∧
      changeOf rev d = 0) ∨
    ∃ op, Opcode.ofByte d.opcode = some op ∧ instr.gasCosts rev op ≠ instr.undefined ∧
      (opTable rev d.opcode).fn = some (instructionImplementations op) ∧
      costOf rev d = instr.gasCosts rev op ∧
      requiredBy rev d = (instr.traits op).stackHeightRequired ∧
      changeOf rev d = (instr.traits op).stackHeightChange := by
  unfold costOf requiredBy changeOf
  rcases opTable_cases rev d.opcode with ⟨hundef, heq⟩ | ⟨op, hop, hdef, heq⟩
  · rw [heq]
    exact .inl ⟨hundef, rfl, rfl, rfl, rfl⟩
  · rw [heq]
    exact .inr ⟨op, hop, hdef, rfl, rfl, rfl, rfl⟩

/-- A decoded instruction has the cost and the traits of its opcode. -/
theorem requirements_of_ofByte {d : Decoded} {op : Opcode} (hop : Opcode.ofByte d.opcode = some op)
    (hne : instr.gasCosts rev op ≠ instr.undefined) :
    costOf rev d = instr.gasCosts rev op ∧
      requiredBy rev d = (instr.traits op).stackHeightRequired ∧
      changeOf rev d = (instr.traits op).stackHeightChange := by
  rcases decoded_cases rev d with ⟨hundef, -⟩ | ⟨op', hop', -, -, h⟩
  · rw [instr.gasCost_of_ofByte hop] at hundef
    exact absurd hundef hne
  · rw [hop] at hop'
    injection hop' with hop'
    subst hop'
    exact h

theorem costOf_range (d : Decoded) : 0 ≤ costOf rev d ∧ costOf rev d ≤ 32000 := by
  unfold costOf
  rcases opTable_cases rev d.opcode with ⟨-, heq⟩ | ⟨op, -, hne, heq⟩
  · rw [heq]
    decide
  · rw [heq]
    exact instr.gasCosts_range hne

theorem stack_range (d : Decoded) :
    0 ≤ requiredBy rev d ∧ requiredBy rev d ≤ 17 ∧ changeOf rev d ≤ 1 ∧
      0 ≤ requiredBy rev d + changeOf rev d := by
  unfold requiredBy changeOf
  rcases opTable_cases rev d.opcode with ⟨-, heq⟩ | ⟨op, -, -, heq⟩
  · rw [heq]
    decide
  · rw [heq]
    exact traits_range op

/-- A JUMPDEST costs 1 and does nothing to the stack. -/
theorem jumpdest_requirements {d : Decoded} (hd : d.opcode = Opcode.jumpdest.toByte) :
    costOf rev d = 1 ∧ requiredBy rev d = 0 ∧ changeOf rev d = 0 := by
  unfold costOf requiredBy changeOf
  rw [hd]
  cases rev <;> decide

theorem baseCost_nonneg (ds : List Decoded) : 0 ≤ baseCost rev ds := by
  induction ds with
  | nil => exact le_rfl
  | cons d ds ih =>
      have hd := costOf_range rev d
      rw [baseCost]
      omega

theorem maxGrowth_nonneg (ds : List Decoded) : 0 ≤ maxGrowth rev ds := by
  cases ds with
  | nil => exact le_rfl
  | cons d ds => exact le_max_left _ _

/-- The first instruction has what it requires if the whole list does. -/
theorem suits_of_required {d : Decoded} {ds : List Decoded} {height : Nat}
    (hrequired : stackRequired rev (d :: ds) ≤ height)
    (hgrowth : height + maxGrowth rev (d :: ds) ≤ 1024) :
    requiredBy rev d ≤ height ∧ height + changeOf rev d ≤ 1024 := by
  have hnonneg := maxGrowth_nonneg rev ds
  rw [stackRequired] at hrequired
  rw [maxGrowth] at hgrowth
  omega

/-! ## One more instruction at the end -/

theorem totalChange_append (xs : List Decoded) (d : Decoded) :
    totalChange rev (xs ++ [d]) = totalChange rev xs + changeOf rev d := by
  induction xs with
  | nil => simp [totalChange]
  | cons x xs ih => rw [List.cons_append, totalChange, totalChange, ih, Int.add_assoc]

theorem stackRequired_append (xs : List Decoded) (d : Decoded) :
    stackRequired rev (xs ++ [d]) =
      max (stackRequired rev xs) (requiredBy rev d - totalChange rev xs) := by
  induction xs with
  | nil =>
      have hd := stack_range rev d
      simp only [List.nil_append, stackRequired, totalChange]
      omega
  | cons x xs ih =>
      rw [List.cons_append, stackRequired, stackRequired, totalChange, ih]
      omega

theorem maxGrowth_append (xs : List Decoded) (d : Decoded) :
    maxGrowth rev (xs ++ [d]) = max (maxGrowth rev xs) (totalChange rev (xs ++ [d])) := by
  induction xs with
  | nil => rfl
  | cons x xs ih =>
      rw [List.cons_append, maxGrowth, maxGrowth, totalChange, ih]
      omega

/-- The height never falls by more than the required items, and rises by at most one for every
instruction. -/
theorem totalChange_range (xs : List Decoded) :
    -stackRequired rev xs ≤ totalChange rev xs ∧ totalChange rev xs ≤ xs.length := by
  induction xs with
  | nil => simp [stackRequired, totalChange]
  | cons x xs ih =>
      have hx := stack_range rev x
      rw [stackRequired, totalChange, List.length_cons]
      push_cast
      omega

/-! ## The accumulated analysis -/

/-- The accumulated analysis is exact as long as no more items are required than a BEGINBLOCK can
hold; beyond that it stays beyond. -/
theorem summarize_cases (index : Nat) {xs : List Decoded} (hlen : xs.length < 2 ^ 30) :
    (stackRequired rev xs ≤ 2 ^ 15 - 1 ∧
      (summarize rev index xs).stackReq = stackRequired rev xs ∧
      (summarize rev index xs).stackChange = totalChange rev xs ∧
      (summarize rev index xs).stackMaxGrowth = maxGrowth rev xs) ∨
    (2 ^ 15 - 1 < stackRequired rev xs ∧ 2 ^ 15 - 1 < (summarize rev index xs).stackReq) := by
  induction xs using List.reverseRecOn with
  | nil => exact .inl ⟨by simp [stackRequired], rfl, rfl, rfl⟩
  | append_singleton xs d ih =>
      rw [List.length_append, List.length_singleton] at hlen
      rw [summarize_append, stackRequired_append, totalChange_append, maxGrowth_append,
        totalChange_append]
      have hd := stack_range rev d
      have hrange := totalChange_range rev xs
      have hreq : (opTable rev d.opcode).stackReq = requiredBy rev d := rfl
      have hchange : (opTable rev d.opcode).stackChange = changeOf rev d := rfl
      simp only [BlockAnalysis.add, hreq, hchange]
      rcases ih (by omega) with ⟨hle, h1, h2, h3⟩ | ⟨h1, h2⟩
      · rw [h1, h2, h3, toInt32_of_lt (x := requiredBy rev d - totalChange rev xs)
          (by omega) (by omega), toInt32_of_lt (by omega) (by omega)]
        by_cases hlarge : max (stackRequired rev xs)
          (requiredBy rev d - totalChange rev xs) ≤ 2 ^ 15 - 1
        · exact .inl ⟨hlarge, rfl, rfl, rfl⟩
        · exact .inr ⟨by omega, by omega⟩
      · exact .inr ⟨by omega, by omega⟩

/-- What the BEGINBLOCK of a block holds: the base cost and the required items up to the largest
values of their types, and the growth of the stack if the items required are that few. -/
theorem close_summarize (index : Nat) {b : List Decoded} (hlen : b.length < 2 ^ 30) :
    ((summarize rev index b).close.gasCost : Int) = min (baseCost rev b) (2 ^ 32 - 1) ∧
      (summarize rev index b).close.stackReq = min (stackRequired rev b) (2 ^ 15 - 1) ∧
      (stackRequired rev b ≤ 2 ^ 15 - 1 →
        (summarize rev index b).close.stackMaxGrowth = min (maxGrowth rev b) (2 ^ 15 - 1)) := by
  have hclamp : ∀ max x : Int, clamp max x = min x max := by
    intro max x
    unfold clamp
    split <;> omega
  have hcost := baseCost_nonneg rev b
  simp only [BlockAnalysis.close, hclamp, summarize_gasCost]
  rcases summarize_cases rev index hlen with ⟨hle, h1, -, h3⟩ | ⟨h1, h2⟩
  · rw [h1, h3]
    exact ⟨by omega, rfl, fun _ => rfl⟩
  · exact ⟨by omega, by omega, fun hle => absurd hle (by omega)⟩

/-- The stack check of a BEGINBLOCK is the exact one. -/
theorem stack_check_iff (index : Nat) {b : List Decoded} (hlen : b.length < 2 ^ 30) {height : Nat}
    (hheight : height ≤ 1024) :
    ((summarize rev index b).close.stackReq ≤ height ∧
        height + (summarize rev index b).close.stackMaxGrowth ≤ 1024) ↔
      (stackRequired rev b ≤ height ∧ height + maxGrowth rev b ≤ 1024) := by
  obtain ⟨-, hreq, hgrowth⟩ := close_summarize rev index hlen
  rw [hreq]
  by_cases hle : stackRequired rev b ≤ 2 ^ 15 - 1
  · rw [hgrowth hle]
    omega
  · omega

/-- The gas cost in a BEGINBLOCK, at any length of the block. -/
theorem close_gasCost (index : Nat) (b : List Decoded) :
    ((summarize rev index b).close.gasCost : Int) = min (baseCost rev b) (2 ^ 32 - 1) := by
  have hcost := baseCost_nonneg rev b
  simp only [BlockAnalysis.close, clamp, summarize_gasCost]
  split <;> omega

end Ivmone.Advanced
