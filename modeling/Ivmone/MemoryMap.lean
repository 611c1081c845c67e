import Ivmone.CopyWindows
import Mathlib.Data.List.GetD

/-!
# The memory as a map of bytes

What the memory is for: every byte below the size is the last one written there since the latest
`clear`, or 0. The allocated block is larger, and has other bytes beyond the size.

Here `Memory::grow` is considered with the 64-bit arithmetic of its capacity. The capacity of a
memory that the instructions can pay for never comes near 2^64; there this is the `grow?` of the
interpreters.
-/

set_option autoImplicit false

namespace Ivmone

open Lib Lib.Program Instructions

namespace Memory

/-! ## Growing -/

/-- The capacity after a reallocation, as a `size_t`. -/
def grownCapacity64 (capacity newSize : Nat) : Nat :=
  if capacity * 2 % 2 ^ 64 < newSize then
    (newSize + (pageSize - 1)) % 2 ^ 64 / pageSize * pageSize
  else capacity * 2 % 2 ^ 64

/-- A capacity that does not hold the new size has wrapped around to 0. -/
theorem le_grownCapacity64 (capacity : Nat) {newSize : Nat} (hsize : newSize < 2 ^ 64)
    (hne : grownCapacity64 capacity newSize ≠ 0) : newSize ≤ grownCapacity64 capacity newSize := by
  unfold grownCapacity64 pageSize at *
  split at hne
  · -- Rounding up wraps around only in the last page of the address space.
    rename_i hlt
    rw [if_pos hlt]
    omega
  · rename_i hge
    rw [if_neg hge]
    exact Nat.not_lt.1 hge

/-- `allocate_capacity`. A `realloc` to a capacity of 0 frees the block and returns no other; the
process ends then. -/
def allocateCapacity (alloc : Allocator) (data : List Byte) (capacity : Nat) :
    Option (List Byte) :=
  if capacity = 0 then none else some (alloc.realloc data capacity)

/-- The block `grow` continues with. -/
def grownData64? (alloc : Allocator) (m : Memory) (newSize : Nat) : Option (List Byte) :=
  if m.capacity < newSize then
    allocateCapacity alloc m.data (grownCapacity64 m.capacity newSize)
  else some m.data

theorem length_grownData64? {alloc : Allocator} {m : Memory} {newSize : Nat} {data : List Byte}
    (hsize : newSize < 2 ^ 64) (h : grownData64? alloc m newSize = some data) :
    newSize ≤ data.length := by
  unfold grownData64? allocateCapacity at h
  split at h
  · split at h
    · cases h
    · rename_i hne
      injection h with h
      rw [← h, alloc.length_realloc]
      exact le_grownCapacity64 _ hsize hne
  · rename_i hle
    injection h with h
    rw [← h]
    exact Nat.not_lt.1 hle

/-- `Memory::grow`, for an argument of type `size_t`. -/
def grow64? (alloc : Allocator) (m : Memory) (newSize : Nat) : Option Memory :=
  if h : newSize % 32 = 0 ∧ m.size < newSize ∧ newSize < 2 ^ 64 then
    match hdata : grownData64? alloc m newSize with
    | none => none
    | some data =>
        some {
          data := overwrite data m.size (List.replicate (newSize - m.size) 0)
          size := newSize
          size_le := by
            have hle := length_grownData64? h.2.2 hdata
            rw [length_overwrite (by rw [List.length_replicate]; omega)]
            exact hle }
  else none

/-- The capacity does not wrap around at the sizes that can be paid for. -/
theorem grownCapacity64_eq {capacity newSize : Nat} (hcapacity : capacity < 2 ^ 63)
    (hsize : newSize ≤ 2 ^ 63) : grownCapacity64 capacity newSize =
      grownCapacity capacity newSize := by
  unfold grownCapacity64 grownCapacity pageSize
  rw [Nat.mod_eq_of_lt (by omega), Nat.mod_eq_of_lt (by omega)]

/-- There the interpreters grow their memory as the source does. -/
theorem grow64?_eq (alloc : Allocator) {m : Memory} {newSize : Nat}
    (hcapacity : m.capacity < 2 ^ 63)
    (hsize : newSize ≤ 2 ^ 63) : m.grow64? alloc newSize = m.grow? alloc newSize := by
  have hdata : 0 < newSize → grownData64? alloc m newSize = some (grownData alloc m newSize) := by
    intro hpos
    have hge := le_grownCapacity m.capacity newSize
    unfold grownData64? grownData allocateCapacity
    by_cases hlt : m.capacity < newSize
    · rw [if_pos hlt, if_pos hlt, grownCapacity64_eq hcapacity hsize, if_neg (by omega)]
    · rw [if_neg hlt, if_neg hlt]
  unfold grow64? grow?
  by_cases h : newSize % 32 = 0 ∧ m.size < newSize
  · rw [dif_pos ⟨h.1, h.2, by omega⟩, dif_pos h]
    split
    · rename_i hnone
      rw [hdata (by omega)] at hnone
      cases hnone
    · rename_i data hsome
      rw [hdata (by omega)] at hsome
      injection hsome with hsome
      simp only [hsome]
  · rw [dif_neg h, dif_neg fun h' => h ⟨h'.1, h'.2.1⟩]

/-- What a reallocation makes of the block. -/
structure Reallocated (m : Memory) (newSize : Nat) (data : List Byte) : Prop where
  length_le : newSize ≤ data.length
  pages : m.capacity % pageSize = 0 → data.length % pageSize = 0
  bytes : ∀ i < m.size, data[i]? = m.data[i]?

theorem grownData64?_ok {alloc : Allocator} {m : Memory} {newSize : Nat} {data : List Byte}
    (hsize : newSize < 2 ^ 64) (h : grownData64? alloc m newSize = some data) :
    Reallocated m newSize data := by
  refine ⟨length_grownData64? hsize h, ?_, ?_⟩ <;> unfold grownData64? at h
  · intro hpages
    split at h
    · -- Doubled or rounded up, the capacity is a number of pages.
      unfold allocateCapacity at h
      split at h
      · cases h
      · injection h with h
        rw [← h, alloc.length_realloc]
        unfold grownCapacity64 pageSize at *
        split <;> omega
    · injection h with h
      rw [← h]
      exact hpages
  · intro i hi
    split at h
    · rename_i hlt
      unfold allocateCapacity at h
      split at h
      · cases h
      · rename_i hne
        injection h with h
        -- The block has not become shorter, so that all of it has been preserved.
        have hle : m.data.length ≤ grownCapacity64 m.capacity newSize := by
          have hge := le_grownCapacity64 m.capacity hsize hne
          have hcapacity : m.data.length < newSize := hlt
          omega
        have htake := alloc.take_realloc m.data _ hle
        have hin : i < m.data.length := Nat.lt_of_lt_of_le hi m.size_le
        rw [← h, ← List.getElem?_take_of_lt hin, htake]
    · injection h with h
      rw [h]

/-- What a growth makes of the memory. -/
structure GrownTo (m : Memory) (newSize : Nat) (m' : Memory) : Prop where
  size : m'.size = newSize
  pages : m.capacity % pageSize = 0 → m'.capacity % pageSize = 0
  kept : ∀ i < m.size, m'.data[i]? = m.data[i]?
  zeros : ∀ i, m.size ≤ i → i < newSize → m'.data[i]? = some 0

theorem grow64?_ok {alloc : Allocator} {m m' : Memory} {newSize : Nat}
    (h : m.grow64? alloc newSize = some m') : m.GrownTo newSize m' := by
  unfold grow64? at h
  split at h
  · rename_i hassert
    split at h
    · cases h
    · rename_i data hdata
      obtain ⟨hle, hpages, hbytes⟩ := grownData64?_ok hassert.2.2 hdata
      injection h with h
      have hfits : m.size + (List.replicate (newSize - m.size) (0 : Byte)).length ≤
          data.length := by
        rw [List.length_replicate]
        omega
      -- the new bytes are cleared whether or not the buffer was reallocated
      have hget : ∀ i, m'.data[i]? = if m.size ≤ i ∧ i < newSize then some 0 else data[i]? := by
        intro i
        rw [← h]
        show (overwrite data m.size _)[i]? = _
        rw [getElem?_overwrite hfits, List.length_replicate, Nat.add_sub_cancel' hassert.2.1.le]
        split
        · rw [List.getElem?_replicate, if_pos (by omega)]
        · rfl
      refine ⟨by rw [← h], fun hcapacity => ?_, fun i hi => ?_, fun i hge hlt => ?_⟩
      · rw [← h]
        show (overwrite data m.size _).length % _ = 0
        rw [length_overwrite hfits]
        exact hpages hcapacity
      · rw [hget i, if_neg (by omega), hbytes i hi]
      · rw [hget i, if_pos ⟨hge, hlt⟩]
  · cases h

/-- A growth that meets the assertions is done, unless it is into the last page of the address
space. -/
theorem grow64?_total (alloc : Allocator) {m : Memory} {newSize : Nat} (h32 : newSize % 32 = 0)
    (hlt : m.size < newSize) (hle : newSize ≤ 2 ^ 64 - pageSize) :
    ∃ m', m.grow64? alloc newSize = some m' := by
  have hdata : grownData64? alloc m newSize ≠ none := by
    unfold grownData64? allocateCapacity
    split
    · have hne : grownCapacity64 m.capacity newSize ≠ 0 := by
        unfold grownCapacity64 pageSize at *
        split <;> omega
      rw [if_neg hne]
      exact nofun
    · exact nofun
  unfold grow64?
  rw [dif_pos ⟨h32, hlt, by unfold pageSize at hle; omega⟩]
  split
  · rename_i hnone
    exact absurd hnone hdata
  · exact ⟨_, rfl⟩

end Memory

/-! ## Sequences of operations -/

/-- An operation on a memory. A growth comes with the `realloc` that it may call. -/
inductive MemoryOp
  | grow (alloc : Allocator) (newSize : Nat)
  | write (index : Nat) (byte : Byte)
  | clear

/-- A growth has to meet the assertions of `grow`, and a write has to be below the size. -/
def MemoryOp.run? : MemoryOp → Memory → Option Memory
  | .grow alloc newSize, m => m.grow64? alloc newSize
  | .write index byte, m => m.store? index [byte]
  | .clear, m => some m.clear

namespace Memory

/-- A new memory after a sequence of operations, of which the latest one is the first of the
list. -/
def replay? (alloc : Allocator) : List MemoryOp → Option Memory
  | [] => some (Memory.new alloc)
  | op :: ops => (replay? alloc ops).bind op.run?

/-- The last value written to a byte since the latest `clear`, or 0. -/
def lastWritten : List MemoryOp → Nat → Byte
  | [], _ => 0
  | .grow _ _ :: ops, i => lastWritten ops i
  | .write index byte :: ops, i => if i = index then byte else lastWritten ops i
  | .clear :: _, _ => 0

/-- The memory represents the bytes written by the operations. -/
structure Represents (m : Memory) (ops : List MemoryOp) : Prop where
  size_le : m.size ≤ m.capacity
  capacity_pos : 0 < m.capacity
  pages : m.capacity % pageSize = 0
  bytes : ∀ i < m.size, m.data[i]? = some (lastWritten ops i)

/-- No byte beyond the size has been written since the latest `clear`: a growth may fill it with a
zero. -/
structure Tracked (m : Memory) (ops : List MemoryOp) : Prop extends m.Represents ops where
  beyond : ∀ i, m.size ≤ i → lastWritten ops i = 0

theorem tracked_new (alloc : Allocator) : (Memory.new alloc).Tracked [] where
  size_le := Nat.zero_le _
  capacity_pos := by
    rw [capacity, new, alloc.length_realloc]
    decide
  pages := by
    rw [capacity, new, alloc.length_realloc]
    decide
  bytes := nofun
  beyond _ _ := rfl

variable {m m' : Memory} {ops : List MemoryOp}

theorem Tracked.grow {alloc : Allocator} {newSize : Nat} (h : m.Tracked ops)
    (hrun : m.grow64? alloc newSize = some m') : m'.Tracked (.grow alloc newSize :: ops) := by
  obtain ⟨hsize, hpages, hkept, hzeros⟩ := grow64?_ok hrun
  have hlt : m.size < newSize := by
    unfold grow64? at hrun
    split at hrun
    · rename_i hassert
      exact hassert.2.1
    · cases hrun
  refine ⟨⟨m'.size_le, ?_, hpages h.pages, ?_⟩, ?_⟩
  · have hle := m'.size_le
    unfold capacity
    omega
  · intro i hi
    -- Below the old size the byte is the old one, and above it nothing has been written.
    by_cases hold : i < m.size
    · rw [hkept i hold, h.bytes i hold, lastWritten]
    · rw [hzeros i (Nat.not_lt.1 hold) (hsize ▸ hi), lastWritten, h.beyond i (Nat.not_lt.1 hold)]
  · intro i hi
    rw [lastWritten]
    exact h.beyond i (by omega)

theorem Tracked.write {index : Nat} {byte : Byte} (h : m.Tracked ops)
    (hrun : m.store? index [byte] = some m') : m'.Tracked (.write index byte :: ops) := by
  unfold store? at hrun
  split at hrun
  · rename_i hindex
    injection hrun with hrun
    have hfits : index + [byte].length ≤ m.data.length := Nat.le_trans hindex m.size_le
    have hdata : m'.data = overwrite m.data index [byte] := by rw [← hrun]
    have hsize : m'.size = m.size := by rw [← hrun]
    have hcapacity : m'.capacity = m.capacity := by
      unfold capacity
      rw [hdata, length_overwrite hfits]
    refine ⟨⟨m'.size_le, hcapacity ▸ h.capacity_pos, hcapacity ▸ h.pages, ?_⟩, ?_⟩
    · intro i hi
      rw [hdata, getElem?_overwrite hfits, lastWritten]
      -- the byte itself is the last write to its index; every other index keeps its own
      by_cases heq : i = index
      · subst heq
        simp
      · rw [if_neg (by simp only [List.length_singleton]; omega), if_neg heq,
          h.bytes i (hsize ▸ hi)]
    · intro i hi
      rw [List.length_singleton] at hindex
      rw [lastWritten, if_neg (by omega)]
      exact h.beyond i (hsize ▸ hi)
  · cases hrun

/-- `clear` keeps the block, with its bytes. -/
theorem Tracked.clear (h : m.Tracked ops) : m.clear.Tracked (.clear :: ops) where
  size_le := Nat.zero_le _
  capacity_pos := h.capacity_pos
  pages := h.pages
  bytes := nofun
  beyond _ _ := rfl

theorem Tracked.run {op : MemoryOp} (h : m.Tracked ops) (hrun : op.run? m = some m') :
    m'.Tracked (op :: ops) := by
  cases op with
  | grow alloc newSize => exact h.grow hrun
  | write index byte => exact h.write hrun
  | clear =>
      injection hrun with hrun
      exact hrun ▸ h.clear

/-- By induction on the sequence. -/
theorem tracked_of_replay {alloc : Allocator} (h : replay? alloc ops = some m) : m.Tracked ops := by
  induction ops generalizing m with
  | nil =>
      injection h with h
      exact h ▸ tracked_new alloc
  | cons op ops ih =>
      obtain ⟨before, hbefore, hrun⟩ := Option.bind_eq_some_iff.1 h
      exact (ih hbefore).run hrun

end Memory

/-! ## MLOAD, MSTORE and MSTORE8 -/

/-- An instruction that accesses the memory, with its operands. -/
inductive Access
  | mload (offset : UInt256)
  | mstore (offset value : UInt256)
  | mstore8 (offset value : UInt256)

namespace Access

def instruction : Access → Context → Exec Unit
  | mload _ => Instructions.mload
  | mstore _ _ => Instructions.mstore
  | mstore8 _ _ => Instructions.mstore8

def operands : Access → List UInt256
  | mload offset => [offset]
  | mstore offset value => [offset, value]
  | mstore8 offset value => [offset, value]

def offset : Access → UInt256
  | mload offset => offset
  | mstore offset _ => offset
  | mstore8 offset _ => offset

/-- The bytes the instruction stores: a word with its highest byte first, or the lowest byte of
it. -/
def bytes : Access → List Byte
  | mload _ => []
  | mstore _ value => beStore value
  | mstore8 _ value => [value.setWidth 8]

end Access

/-- The most recently stored byte at a place, or 0 if there is none. The latest access is the first
of the list. -/
def storedByte : List Access → Nat → Byte
  | [], _ => 0
  | a :: accesses, p =>
      if a.offset.toNat ≤ p ∧ p < a.offset.toNat + a.bytes.length then
        a.bytes.getD (p - a.offset.toNat) 0
      else storedByte accesses p

variable {σ : Type} {env : Env σ} {ctx : Context} {s t : ExecutionState σ}

/-- The instruction succeeds with its operands on the stack. -/
def Access.Runs (a : Access) (env : Env σ) (ctx : Context) (s t : ExecutionState σ) : Prop :=
  (∃ rest, s.stack.items = a.operands ++ rest) ∧ (a.instruction ctx).run env s = .ok () t

/-- The memory after a sequence of accesses to an empty one, the latest first. Between two of them
anything may happen that leaves the memory alone. -/
inductive Accesses (env : Env σ) (ctx : Context) : List Access → Memory → Prop
  | nil (m : Memory) (hempty : m.size = 0) : Accesses env ctx [] m
  | cons (a : Access) (accesses : List Access) (s t : ExecutionState σ)
      (hbefore : Accesses env ctx accesses s.memory) (hrun : a.Runs env ctx s t) :
      Accesses env ctx (a :: accesses) t.memory

theorem checkMemory64_ok {offset : UInt256} {size : Nat} (hsize : size ≤ maxBufferSize)
    (h : run (handle env) (Exec.checkMemory64 offset size) s = .ok () t) :
    offset.toSize = offset.toNat ∧ offset.toNat + size ≤ t.memory.size ∧ t.stack = s.stack ∧
      s.memory.Grown t.memory := by
  have hcheck := handle_checkMemory env s offset (.u64 size) (by rintro n ⟨⟩; exact hsize)
  rw [Exec.checkMemory64, Exec.perform, run_perform] at h
  rw [h] at hcheck
  have hgrown := hcheck.grown_of_ok
  have htoSize : offset.toNat ≤ maxBufferSize → offset.toSize = offset.toNat := fun hle =>
    UInt256.toSize_of_lt (Nat.lt_of_le_of_lt hle (by decide))
  cases hcheck with
  | covered newSize hend hle =>
      obtain ⟨hoffset, rfl⟩ := regionEnd_u64 hsize hend
      exact ⟨htoSize hoffset, hle, rfl, hgrown⟩
  | grown newSize m hend hlt hgas hm hbytes =>
      obtain ⟨hoffset, rfl⟩ := regionEnd_u64 hsize hend
      refine ⟨htoSize hoffset, ?_, rfl, hgrown⟩
      show _ ≤ m.size
      omega

theorem load_ok {offset length : Nat} {bytes : List Byte}
    (h : run (handle env) (Exec.load offset length) s = .ok bytes t) :
    t = s ∧ bytes = window s.memory.bytes offset length := by
  rw [Exec.load, Exec.perform, run_perform] at h
  simp only [handle] at h
  by_cases hle : offset + length ≤ s.memory.size
  · rw [Memory.load?_of_le hle] at h
    injection h with hbytes ht
    refine ⟨ht.symm, ?_⟩
    rw [window_of_le (by rw [Memory.length_bytes]; exact hle), hbytes]
  · rw [Memory.load?_of_not_le hle] at h
    cases h

/-- MLOAD reads the word from the memory, extended by zeros. -/
theorem mload_ok (h : (Instructions.mload ctx).run env s = .ok () t) :
    ∃ offset rest, s.stack.items = offset :: rest ∧
      t.stack.items = beLoad (window t.memory.bytes offset.toNat 32) :: rest ∧
      Copied s.memory t.memory offset.toNat [] := by
  unfold Instructions.mload at h
  obtain ⟨offset, s1, htop, h⟩ := run_bind_eq_ok h
  obtain ⟨_, s2, hcheck, h⟩ := run_bind_eq_ok h
  obtain ⟨bytes, s3, hload, h⟩ := run_bind_eq_ok h
  obtain ⟨rfl, rest, hitems⟩ := top_ok htop
  obtain ⟨hoffset, -, hstack, hgrown⟩ := checkMemory64_ok (by decide) hcheck
  obtain ⟨rfl, rfl⟩ := load_ok hload
  obtain ⟨hset, hsame⟩ := setTop_ok (hstack ▸ hitems) h
  refine ⟨offset, rest, hitems, ?_, ?_⟩
  · rw [hset, hsame.memory, hoffset]
  · rw [hsame.memory]
    exact copied_of_grown hgrown _

/-- What MSTORE and MSTORE8 do, with the bytes that they take from the value. -/
theorem storeBytes_ok {f : UInt256 → List Byte} {size : Nat} (hsize : size ≤ maxBufferSize)
    (h : run (handle env) (do
      let index ← Exec.pop
      let value ← Exec.pop
      Exec.checkMemory64 index size
      Exec.store index.toSize (f value)) s = .ok () t) :
    ∃ index value, s.stack.items = index :: value :: t.stack.items ∧
      Copied s.memory t.memory index.toNat (f value) := by
  obtain ⟨index, s1, h1, h⟩ := run_bind_eq_ok h
  obtain ⟨value, s2, h2, h⟩ := run_bind_eq_ok h
  obtain ⟨_, s3, hcheck, h⟩ := run_bind_eq_ok h
  obtain ⟨hitems1, hsame1⟩ := pop_ok h1
  obtain ⟨hitems2, hsame2⟩ := pop_ok h2
  obtain ⟨hindex, -, hstack, hgrown⟩ := checkMemory64_ok hsize hcheck
  have hcopied := copied_of_grown hgrown index.toNat
  rw [hindex, ← Nat.add_zero index.toNat] at h
  obtain ⟨hstack', hstored⟩ := store_ok hcopied h
  rw [(hsame1.trans hsame2).memory, List.nil_append] at hstored
  exact ⟨index, value, by rw [hitems1, hitems2, ← hstack, ← hstack'], hstored⟩

/-- The two operands on top of the stack. -/
theorem operands_inj {x y x' y' : UInt256} {xs xs' : List UInt256}
    (h : x :: y :: xs = x' :: y' :: xs') : x = x' ∧ y = y' := by
  obtain ⟨hx, h⟩ := List.cons.inj h
  exact ⟨hx, (List.cons.inj h).1⟩

theorem Access.copied {a : Access} (h : a.Runs env ctx s t) :
    Copied s.memory t.memory a.offset.toNat a.bytes := by
  obtain ⟨⟨rest, hoperands⟩, hrun⟩ := h
  cases a with
  | mload offset =>
      have hload : (Instructions.mload ctx).run env s = .ok () t := hrun
      obtain ⟨offset', rest', hitems, -, hcopied⟩ := mload_ok hload
      rw [hitems] at hoperands
      obtain ⟨rfl, -⟩ := List.cons.inj hoperands
      exact hcopied
  | mstore offset value =>
      obtain ⟨offset', value', hitems, hcopied⟩ := storeBytes_ok (by decide) hrun
      obtain ⟨rfl, rfl⟩ := operands_inj (hitems.symm.trans hoperands)
      exact hcopied
  | mstore8 offset value =>
      obtain ⟨offset', value', hitems, hcopied⟩ :=
        storeBytes_ok (f := fun value => [value.setWidth 8]) (by decide) hrun
      obtain ⟨rfl, rfl⟩ := operands_inj (hitems.symm.trans hoperands)
      exact hcopied

/-- The bytes of the memory are the stored ones, and beyond it nothing has been stored. -/
theorem Accesses.getD_bytes {accesses : List Access} {m : Memory} (h : Accesses env ctx accesses m)
    (p : Nat) : m.bytes.getD p 0 = storedByte accesses p := by
  induction h with
  | nil m hempty =>
      have hnil : m.bytes = [] := List.eq_nil_of_length_eq_zero (m.length_bytes.trans hempty)
      rw [hnil]
      rfl
  | cons a accesses s t hbefore hrun ih =>
      have hcopied := Access.copied hrun
      rw [storedByte]
      by_cases hp : p < t.memory.size
      · rw [List.getD_eq_getElem?_getD, hcopied.bytes p hp, ih]
        rfl
      · -- The access has extended the memory to hold all of its region.
        have hout : ¬ (a.offset.toNat ≤ p ∧ p < a.offset.toNat + a.bytes.length) := by
          intro hin
          have hregion := hcopied.region (List.ne_nil_of_length_pos (by omega))
          omega
        have hsize := hcopied.size_le
        rw [if_neg hout, ← ih, List.getD_eq_default _ _ (by rw [Memory.length_bytes]; omega),
          List.getD_eq_default _ _ (by rw [Memory.length_bytes]; omega)]

/-- MLOAD after a sequence of accesses. -/
theorem Accesses.mload_items {accesses : List Access} {offset : UInt256} {rest : List UInt256}
    (h : Accesses env ctx accesses s.memory) (hitems : s.stack.items = offset :: rest)
    (hrun : (Instructions.mload ctx).run env s = .ok () t) :
    t.stack.items =
      beLoad ((List.range 32).map fun k => storedByte accesses (offset.toNat + k)) :: rest := by
  obtain ⟨offset', rest', hitems', hloaded, -⟩ := mload_ok hrun
  rw [hitems] at hitems'
  obtain ⟨rfl, rfl⟩ := List.cons.inj hitems'
  -- The load is an access too, which stores nothing.
  have hafter : Accesses env ctx (.mload offset :: accesses) t.memory :=
    .cons _ _ s t h ⟨⟨rest, hitems⟩, hrun⟩
  have hbytes : window t.memory.bytes offset.toNat 32 =
      (List.range 32).map fun k => storedByte accesses (offset.toNat + k) := by
    refine List.map_congr_left fun k _ => ?_
    rw [hafter.getD_bytes, storedByte, if_neg (by simp [Access.bytes])]
  rw [hloaded, hbytes]

/-- The memory refines a map of bytes that is zero at first. MLOAD returns the word of the most
recently stored bytes. -/
theorem memory_refines_byteMap (env : Env σ) (ctx : Context) :
    (∀ alloc ops m, Memory.replay? alloc ops = some m → m.Represents ops) ∧
    (∀ alloc newSize, ∀ m : Memory, newSize % 32 = 0 → m.size < newSize →
      newSize ≤ 2 ^ 64 - Memory.pageSize → ∃ m', m.grow64? alloc newSize = some m') ∧
    (∀ alloc newSize, ∀ m m' : Memory, m.grow64? alloc newSize = some m' →
      m'.size = newSize ∧ ∀ i < m.size, m'.data[i]? = m.data[i]?) ∧
    (∀ accesses s t offset rest, Accesses env ctx accesses s.memory →
      s.stack.items = offset :: rest → (Instructions.mload ctx).run env s = .ok () t →
      t.stack.items =
        beLoad ((List.range 32).map fun k => storedByte accesses (offset.toNat + k)) :: rest) := by
  refine ⟨?_, ?_, ?_, ?_⟩
  · intro alloc ops m h
    exact (Memory.tracked_of_replay h).toRepresents
  · intro alloc newSize m h32 hlt hle
    exact Memory.grow64?_total alloc h32 hlt hle
  · intro alloc newSize m m' h
    obtain ⟨hsize, -, hkept, -⟩ := Memory.grow64?_ok h
    exact ⟨hsize, hkept⟩
  · intro accesses s t offset rest h hitems hrun
    exact h.mload_items hitems hrun

/-- A stack with the operands of an MSTORE of 7 at 0 and of an MLOAD at 31. -/
def storeAndLoad : ExecutionState Unit :=
  { truncatedPush.newState with
    stack := ⟨31 :: 7 :: 0 :: List.replicate 1021 0, 3,
      by simp only [List.length_cons, List.length_replicate], oneByte.stack.height_le⟩ }

set_option maxRecDepth 8000 in
theorem memory_refines_byteMap_storeAndLoad :
    ∃ t u, (Instructions.mstore truncatedPush.ctx).run truncatedPush.env storeAndLoad = .ok () t ∧
      (Instructions.mload truncatedPush.ctx).run truncatedPush.env t = .ok () u ∧
      u.stack.items =
        [beLoad ((List.range 32).map fun k => storedByte [.mstore 0 7] (31 + k))] := by
  have hstore : ∃ t, (Instructions.mstore truncatedPush.ctx).run truncatedPush.env storeAndLoad =
      .ok () t ∧ t.stack.items = [31] ∧
        ∃ u, (Instructions.mload truncatedPush.ctx).run truncatedPush.env t = .ok () u :=
    ⟨_, rfl, rfl, _, rfl⟩
  obtain ⟨t, hrun, hitems, u, hload⟩ := hstore
  refine ⟨t, u, hrun, hload, ?_⟩
  have hbefore : Accesses truncatedPush.env truncatedPush.ctx [.mstore 0 7] t.memory :=
    .cons _ _ storeAndLoad t (.nil _ rfl) ⟨⟨[31], rfl⟩, hrun⟩
  exact (memory_refines_byteMap truncatedPush.env truncatedPush.ctx).2.2.2 _ t u 31 [] hbefore
    hitems hload

end Ivmone
