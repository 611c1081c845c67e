import Ivmone.State

/-!
# What a memory check does

`checkMemory` depends only on its operands, the size of the memory and the gas left. `regionEnd` is
the end of a region that is small enough to be considered; a check passes if the region lies in the
memory already or if the gas covers the growth.
-/

set_option autoImplicit false

namespace Ivmone

open Lib

/-- The memory has a whole number of words and is far below the limits of 64-bit arithmetic. -/
def Memory.Sized (m : Memory) : Prop := m.size % 32 = 0 ∧ m.size ≤ 2 ^ 33

/-! ## The end of a region -/

theorem word_eq_zero_iff (x : UInt256) (i : Nat) :
    x.word i = 0 ↔ x.toNat / 2 ^ (64 * i) % 2 ^ 64 = 0 := by
  rw [← BitVec.toNat_inj]
  simp [UInt256.word, Nat.shiftRight_eq_div_pow]

/-- The test of the four 64-bit words of a number is a comparison of the number. -/
theorem words_too_large_iff (x : UInt256) :
    ((x.word 3 ||| x.word 2 ||| x.word 1) ≠ 0 ∨ maxBufferSize < (x.word 0).toNat) ↔
      maxBufferSize < x.toNat := by
  have h0 : (x.word 0).toNat = x.toNat % 2 ^ 64 := by simp [UInt256.word]
  have hor : (x.word 3 ||| x.word 2 ||| x.word 1) = 0 ↔
      (x.word 3 = 0 ∧ x.word 2 = 0) ∧ x.word 1 = 0 := by
    simp only [BitVec.ofNat_eq_ofNat, BitVec.or_eq_zero_iff]
  have hlt := x.isLt
  rw [h0, Ne, hor, word_eq_zero_iff, word_eq_zero_iff, word_eq_zero_iff]
  unfold maxBufferSize
  omega

/-- The end of a region of memory, unless its offset or size is too large. -/
def regionEnd (offset : UInt256) : MemorySize → Option Nat
  | .u64 size =>
      if maxBufferSize < offset.toNat then none else some ((offset.toNat + size) % 2 ^ 64)
  | .u256 size =>
      if size = 0 then some 0
      else if maxBufferSize < size.toNat then none
      else regionEnd offset (.u64 size.toNat)

theorem regionEnd_le {offset : UInt256} {size : MemorySize} {newSize : Nat}
    (hsize : ∀ n, size = .u64 n → n ≤ maxBufferSize) (h : regionEnd offset size = some newSize) :
    newSize ≤ 2 ^ 33 := by
  have h64 : ∀ n newSize, n ≤ maxBufferSize → regionEnd offset (.u64 n) = some newSize →
      newSize ≤ 2 ^ 33 := by
    intro n newSize hn h
    unfold regionEnd at h
    split at h
    · cases h
    · injection h with h
      unfold maxBufferSize at *
      omega
  cases size with
  | u64 n => exact h64 n newSize (hsize n rfl) h
  | u256 n =>
      unfold regionEnd at h
      split at h
      · injection h with h
        omega
      · split at h
        · cases h
        · exact h64 _ _ (by omega) h

/-- A region that ends within the memory has been checked. -/
theorem regionEnd_u64 {offset : UInt256} {size newSize : Nat} (hsize : size ≤ maxBufferSize)
    (h : regionEnd offset (.u64 size) = some newSize) :
    offset.toNat ≤ maxBufferSize ∧ newSize = offset.toNat + size := by
  unfold regionEnd at h
  split at h
  · cases h
  · injection h with h
    unfold maxBufferSize at *
    omega

theorem regionEnd_u256 {offset size : UInt256} {newSize : Nat}
    (h : regionEnd offset (.u256 size) = some newSize) (hs : size.toNat ≠ 0) :
    offset.toNat ≤ maxBufferSize ∧ size.toNat ≤ maxBufferSize ∧
      newSize = offset.toNat + size.toNat := by
  have h0 : size ≠ 0 := by
    rintro rfl
    exact hs rfl
  unfold regionEnd at h
  rw [if_neg h0] at h
  split at h
  · cases h
  · rename_i hle
    obtain ⟨h1, h2⟩ := regionEnd_u64 (Nat.le_of_not_lt hle) h
    exact ⟨h1, Nat.le_of_not_lt hle, h2⟩

variable {σ : Type}

theorem checkMemory64_eq (s : ExecutionState σ) (alloc : Allocator) (offset : UInt256)
    (size : Nat) :
    s.checkMemory64 alloc offset size =
      match regionEnd offset (.u64 size) with
      | none => .ok false s
      | some newSize =>
          if s.memory.size < newSize then s.growMemory alloc newSize else .ok true s := by
  unfold ExecutionState.checkMemory64 regionEnd
  simp only [words_too_large_iff]
  by_cases h : maxBufferSize < offset.toNat
  · simp only [if_pos h]
  · have hsize : offset.toSize = offset.toNat := by
      unfold maxBufferSize at h
      exact UInt256.toSize_of_lt (by omega)
    simp only [if_neg h, hsize]

theorem checkMemory_eq (s : ExecutionState σ) (alloc : Allocator) (offset : UInt256)
    (size : MemorySize) :
    s.checkMemory alloc offset size =
      match regionEnd offset size with
      | none => .ok false s
      | some newSize =>
          if s.memory.size < newSize then s.growMemory alloc newSize else .ok true s := by
  cases size with
  | u64 size => exact checkMemory64_eq s alloc offset size
  | u256 size =>
      unfold ExecutionState.checkMemory ExecutionState.checkMemory256 regionEnd
      simp only [words_too_large_iff]
      by_cases h0 : size = 0
      · simp [h0]
      · by_cases h : maxBufferSize < size.toNat
        · simp only [if_neg h0, if_pos h]
        · have hsize : size.toSize = size.toNat := by
            unfold maxBufferSize at h
            exact UInt256.toSize_of_lt (by omega)
          simp only [if_neg h0, if_neg h, hsize, checkMemory64_eq]

/-! ## Growth -/

/-- The cost of growing a memory. -/
def growthCost (size newSize : Nat) : Int := memoryCost (numWords newSize) - memoryCost (size / 32)

theorem numWords_eq {newSize : Nat} (h : newSize ≤ 2 ^ 33) :
    numWords newSize = ((newSize + 31) / 32 : Nat) := by
  unfold numWords wordSize
  rw [Nat.mod_eq_of_lt (by omega)]

theorem memoryCost_le {words words' : Int} (h0 : 0 ≤ words) (h : words ≤ words') :
    memoryCost words ≤ memoryCost words' := by
  have hsq : words * words ≤ words' * words' := by nlinarith
  unfold memoryCost
  omega

theorem memoryCost_bounds {words : Int} (h0 : 0 ≤ words) (h : words ≤ 2 ^ 28) :
    0 ≤ words * words ∧ words * words ≤ 2 ^ 56 ∧ 0 ≤ memoryCost words ∧
      memoryCost words < 2 ^ 60 := by
  have hsq : 0 ≤ words * words := by nlinarith
  have hsq' : words * words ≤ 2 ^ 56 := by nlinarith
  unfold memoryCost
  omega

theorem growthCost_bounds {size newSize : Nat} (h : size < newSize) (hle : newSize ≤ 2 ^ 33) :
    0 ≤ growthCost size newSize ∧ growthCost size newSize < 2 ^ 62 := by
  have hnew := numWords_eq hle
  have hmono : memoryCost (size / 32) ≤ memoryCost (numWords newSize) :=
    memoryCost_le (by omega) (by omega)
  have h1 : memoryCost (size / 32) < 2 ^ 60 := (memoryCost_bounds (by omega) (by omega)).2.2.2
  have h2 : memoryCost (numWords newSize) < 2 ^ 60 :=
    (memoryCost_bounds (by omega) (by omega)).2.2.2
  have h3 : 0 ≤ memoryCost (size / 32) := (memoryCost_bounds (by omega) (by omega)).2.2.1
  unfold growthCost
  omega

theorem noteInt64_of_inInt64 {s : ExecutionState σ} {x : Int} (h : InInt64 x) :
    s.noteInt64 x = s := by
  unfold ExecutionState.noteInt64
  rw [decide_eq_true h, Bool.not_true, Bool.or_false]

/-- Growing the memory, for a memory that the allocator gives. -/
theorem growMemory_of_grow {s : ExecutionState σ} {alloc : Allocator} {newSize : Nat} {m : Memory}
    (hlt : s.memory.size < newSize) (hle : newSize ≤ 2 ^ 33)
    (hm : s.memory.grow? alloc (32 * ((newSize + 31) / 32)) = some m) :
    s.growMemory alloc newSize =
      let s' := s.setGas (s.gasLeft - growthCost s.memory.size newSize)
      if s'.gasLeft < 0 then .ok false s' else .ok true { s' with memory := m } := by
  have hnew := numWords_eq hle
  have hsize : (numWords newSize * wordSize).toNat = 32 * ((newSize + 31) / 32) := by
    unfold wordSize
    omega
  obtain ⟨h1, h2, h3, h4⟩ := memoryCost_bounds (show 0 ≤ numWords newSize by omega) (by omega)
  obtain ⟨h5, h6, h7, h8⟩ := memoryCost_bounds (show 0 ≤ (s.memory.size : Int) / wordSize by
    unfold wordSize; omega) (by unfold wordSize; omega)
  unfold ExecutionState.growMemory
  dsimp only
  -- None of the intermediate results overflows.
  rw [noteInt64_of_inInt64 ⟨by omega, by omega⟩, noteInt64_of_inInt64 ⟨by omega, by omega⟩,
    noteInt64_of_inInt64 ⟨by omega, by omega⟩, noteInt64_of_inInt64 ⟨by omega, by omega⟩,
    noteInt64_of_inInt64 ⟨by omega, by omega⟩, hsize]
  have hcost : memoryCost (numWords newSize) - memoryCost (s.memory.size / wordSize) =
      growthCost s.memory.size newSize := rfl
  have hmemory : (s.setGas (s.gasLeft - growthCost s.memory.size newSize)).memory = s.memory := rfl
  rw [hcost, hmemory, hm]

/-- The memory grows to whole words if the gas covers the cost. -/
theorem growMemory_eq (s : ExecutionState σ) (alloc : Allocator) {newSize : Nat}
    (hlt : s.memory.size < newSize) (hle : newSize ≤ 2 ^ 33) :
    ∃ m : Memory, m.size = 32 * ((newSize + 31) / 32) ∧
      m.bytes = s.memory.bytes ++ List.replicate (m.size - s.memory.size) 0 ∧
      s.growMemory alloc newSize =
        let s' := s.setGas (s.gasLeft - growthCost s.memory.size newSize)
        if s'.gasLeft < 0 then .ok false s' else .ok true { s' with memory := m } := by
  obtain ⟨m, hm, hmsize, hmbytes⟩ := Memory.grow?_of_lt alloc
    (show 32 * ((newSize + 31) / 32) % 32 = 0 by omega)
    (show s.memory.size < 32 * ((newSize + 31) / 32) by omega)
  exact ⟨m, hmsize, by rw [hmsize]; exact hmbytes, growMemory_of_grow hlt hle hm⟩

end Ivmone
