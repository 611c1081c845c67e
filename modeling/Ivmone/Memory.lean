import Ivmone.Word
import Mathlib.Data.List.Basic

/-!
# The EVM memory

`class Memory` owns one allocated block and a virtual size within it. Bytes of the block beyond the
virtual size are whatever an earlier use or `realloc` left there. An access beyond the virtual size
gives `none`, and so does a `grow` that breaks one of its two assertions. The contents of the
memory is the list `bytes`, on which each member is described.
-/

set_option autoImplicit false

namespace Ivmone

/-- `std::realloc`: it preserves the old contents and leaves the new bytes arbitrary. -/
structure Allocator where
  realloc : List Byte → Nat → List Byte
  length_realloc : ∀ data capacity, (realloc data capacity).length = capacity
  take_realloc : ∀ data capacity, data.length ≤ capacity →
    (realloc data capacity).take data.length = data

/-- `std::memcpy` and `std::memset` into a block: its bytes from `offset` on are replaced. -/
def overwrite (data : List Byte) (offset : Nat) (bytes : List Byte) : List Byte :=
  data.take offset ++ bytes ++ data.drop (offset + bytes.length)

theorem length_overwrite {data : List Byte} {offset : Nat} {bytes : List Byte}
    (h : offset + bytes.length ≤ data.length) : (overwrite data offset bytes).length =
      data.length := by
  simp only [overwrite, List.length_append, List.length_take, List.length_drop]
  omega

theorem take_overwrite {data : List Byte} {offset : Nat} {bytes : List Byte} {n : Nat}
    (h : offset + bytes.length ≤ n) (hn : n ≤ data.length) :
    (overwrite data offset bytes).take n = overwrite (data.take n) offset bytes := by
  have hlen : (data.take offset ++ bytes).length = offset + bytes.length := by
    simp only [List.length_append, List.length_take]
    omega
  unfold overwrite
  rw [List.take_append, hlen, List.take_of_length_le (by omega), List.take_take,
    Nat.min_eq_left (by omega), List.drop_take]

/-- `class Memory`. The length of `data` is `m_capacity`. -/
structure Memory where
  data : List Byte
  size : Nat
  size_le : size ≤ data.length

namespace Memory

/-- The size of allocation "page". -/
def pageSize : Nat := 4 * 1024

def capacity (m : Memory) : Nat := m.data.length

/-- The bytes of the memory. -/
def bytes (m : Memory) : List Byte := m.data.take m.size

/-- Creates the memory with its initial capacity allocation. -/
def new (alloc : Allocator) : Memory where
  data := alloc.realloc [] pageSize
  size := 0
  size_le := Nat.zero_le _

/-- The capacity after a reallocation: doubled or, if that is not enough, the required size rounded
up to a multiple of the page size. -/
def grownCapacity (capacity newSize : Nat) : Nat :=
  if capacity * 2 < newSize then (newSize + (pageSize - 1)) / pageSize * pageSize else capacity * 2

/-- The block a `grow` to `newSize` continues with. -/
def grownData (alloc : Allocator) (m : Memory) (newSize : Nat) : List Byte :=
  if m.capacity < newSize then alloc.realloc m.data (grownCapacity m.capacity newSize) else m.data

theorem le_grownCapacity (capacity newSize : Nat) : newSize ≤ grownCapacity capacity newSize := by
  unfold grownCapacity pageSize
  split <;> omega

theorem le_length_grownData (alloc : Allocator) (m : Memory) (newSize : Nat) :
    newSize ≤ (grownData alloc m newSize).length := by
  unfold grownData
  split
  · rw [alloc.length_realloc]
    exact le_grownCapacity m.capacity newSize
  · rename_i h
    exact Nat.le_of_not_lt h

/-- Grows the memory to the given size. The extension is filled with zeros. -/
def grow? (alloc : Allocator) (m : Memory) (newSize : Nat) : Option Memory :=
  -- The two assertions of `grow`.
  if h : newSize % 32 = 0 ∧ m.size < newSize then
    some {
      data := overwrite (grownData alloc m newSize) m.size (List.replicate (newSize - m.size) 0)
      size := newSize
      size_le := by
        have hle := le_length_grownData alloc m newSize
        rw [length_overwrite (by rw [List.length_replicate]; omega)]
        exact hle }
  else none

/-- Virtually clears the memory by setting its size to 0. The capacity stays unchanged. -/
def clear (m : Memory) : Memory := { m with size := 0, size_le := Nat.zero_le _ }

/-- Reads `length` bytes from `offset` on. -/
def load? (m : Memory) (offset length : Nat) : Option (List Byte) :=
  if offset + length ≤ m.size then some ((m.data.drop offset).take length) else none

/-- Writes bytes from `offset` on. -/
def store? (m : Memory) (offset : Nat) (bytes : List Byte) : Option Memory :=
  if h : offset + bytes.length ≤ m.size then
    some { m with
      data := overwrite m.data offset bytes
      size_le := by
        rw [length_overwrite (Nat.le_trans h m.size_le)]
        exact m.size_le }
  else none

@[simp] theorem length_bytes (m : Memory) : m.bytes.length = m.size := by
  simp [bytes, m.size_le]

@[simp] theorem bytes_new (alloc : Allocator) : (new alloc).bytes = [] := by
  simp [bytes, new]

@[simp] theorem bytes_clear (m : Memory) : m.clear.bytes = [] := by
  simp [bytes, clear]

theorem load?_of_le {m : Memory} {offset length : Nat} (h : offset + length ≤ m.size) :
    m.load? offset length = some ((m.bytes.drop offset).take length) := by
  rw [load?, if_pos h, bytes, List.drop_take, List.take_take, Nat.min_eq_left (by omega)]

theorem load?_of_not_le {m : Memory} {offset length : Nat} (h : ¬ offset + length ≤ m.size) :
    m.load? offset length = none := if_neg h

theorem store?_of_le {m : Memory} {offset : Nat} {bs : List Byte}
    (h : offset + bs.length ≤ m.size) :
    ∃ m', m.store? offset bs = some m' ∧ m'.bytes = overwrite m.bytes offset bs ∧
      m'.size = m.size := by
  refine ⟨_, dif_pos h, ?_, rfl⟩
  exact take_overwrite h m.size_le

theorem store?_of_not_le {m : Memory} {offset : Nat} {bs : List Byte}
    (h : ¬ offset + bs.length ≤ m.size) : m.store? offset bs = none := dif_neg h

theorem size_of_store? {m m' : Memory} {offset : Nat} {bs : List Byte}
    (h : m.store? offset bs = some m') : m'.size = m.size := by
  by_cases hle : offset + bs.length ≤ m.size
  · obtain ⟨m1, hm1, -, hsize⟩ := store?_of_le hle
    rw [hm1] at h
    injection h with h
    exact h ▸ hsize
  · rw [store?_of_not_le hle] at h
    cases h

/-- The first bytes of the block survive a reallocation. -/
theorem take_grownData (alloc : Allocator) (m : Memory) (newSize : Nat) :
    (grownData alloc m newSize).take m.size = m.bytes := by
  unfold grownData bytes
  split
  · rename_i h
    have hcap : m.data.length ≤ grownCapacity m.capacity newSize := by
      have h1 := le_grownCapacity m.capacity newSize
      have h2 : m.data.length < newSize := h
      omega
    have htake := alloc.take_realloc m.data _ hcap
    have hmin : min m.size m.data.length = m.size := Nat.min_eq_left m.size_le
    conv_rhs => rw [← htake, List.take_take, hmin]
  · rfl

theorem grow?_of_lt (alloc : Allocator) {m : Memory} {newSize : Nat} (h32 : newSize % 32 = 0)
    (h : m.size < newSize) :
    ∃ m', m.grow? alloc newSize = some m' ∧ m'.size = newSize ∧
      m'.bytes = m.bytes ++ List.replicate (newSize - m.size) 0 := by
  refine ⟨_, by rw [grow?, dif_pos ⟨h32, h⟩], rfl, ?_⟩
  have hlen : m.size + (List.replicate (newSize - m.size) (0 : Byte)).length = newSize := by
    rw [List.length_replicate]
    omega
  show (overwrite _ _ _).take newSize = _
  rw [take_overwrite (Nat.le_of_eq hlen) (le_length_grownData alloc m newSize), overwrite, hlen,
    List.take_take, Nat.min_eq_left (Nat.le_of_lt h), take_grownData]
  simp

end Memory

end Ivmone
