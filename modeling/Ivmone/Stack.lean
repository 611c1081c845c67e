import Ivmone.Word
import Mathlib.Data.List.Basic

/-!
# The EVM stack

`Stack` has storage for 1024 words and a pointer to the top item; its members check nothing. Here
every access that would leave the storage, or touch a slot above the top item, gives `none`.
Slots above the top item keep the values they had, as in the source. The contents of the stack is
the list `items`, top first, and each member is described on that list.
-/

set_option autoImplicit false

namespace Ivmone

/-- `struct Stack`. The height is `top_item + 1 - storage`. -/
structure Stack where
  storage : List UInt256
  height : Nat
  length_storage : storage.length = 1024
  height_le : height ≤ 1024

namespace Stack

/-- The maximum number of stack items. -/
def limit : Nat := 1024

/-- The current number of items on the stack. -/
def size (s : Stack) : Nat := s.height

/-- The items on the stack, top first. -/
def items (s : Stack) : List UInt256 := (s.storage.take s.height).reverse

/-- `operator[]`: the item on the given position from the stack top. -/
def get? (s : Stack) (index : Nat) : Option UInt256 :=
  if index < s.height then s.storage[s.height - 1 - index]? else none

/-- Assignment through `operator[]`. -/
def set? (s : Stack) (index : Nat) (item : UInt256) : Option Stack :=
  if index < s.height then
    some { s with
      storage := s.storage.set (s.height - 1 - index) item
      length_storage := by rw [List.length_set]; exact s.length_storage }
  else none

/-- `push`: the slot after the top item becomes the top item. -/
def push? (s : Stack) (item : UInt256) : Option Stack :=
  if h : s.height < limit then
    some {
      storage := s.storage.set s.height item
      height := s.height + 1
      length_storage := by rw [List.length_set]; exact s.length_storage
      height_le := h }
  else none

/-- `pop`: the slot of the top item keeps its value. -/
def pop? (s : Stack) : Option (UInt256 × Stack) :=
  if 0 < s.height then
    some (s.storage.getD (s.height - 1) 0,
      { s with height := s.height - 1, height_le := by have := s.height_le; omega })
  else none

/-- Sets the `top_item` pointer to below the stack bottom. -/
def clear (s : Stack) : Stack := { s with height := 0, height_le := Nat.zero_le limit }

theorem length_zeros : (List.replicate 1024 (0 : UInt256)).length = 1024 := List.length_replicate

@[simp] theorem length_items (s : Stack) : s.items.length = s.height := by
  have h1 := s.length_storage
  have h2 := s.height_le
  simp only [items, List.length_reverse, List.length_take]
  omega

theorem height_lt_length {s : Stack} (h : s.height < limit) : s.height < s.storage.length := by
  rw [s.length_storage]
  exact h

@[simp] theorem items_clear (s : Stack) : s.clear.items = [] := by
  simp [items, clear]

theorem get?_eq (s : Stack) (index : Nat) : s.get? index = s.items[index]? := by
  unfold get?
  split
  · rename_i h
    have h2 := s.length_storage
    have h3 := s.height_le
    have hlen : (s.storage.take s.height).length = s.height := by simp [h2, h3]
    unfold items
    rw [List.getElem?_reverse (by omega), hlen, List.getElem?_take_of_lt (by omega)]
  · rename_i h
    rw [List.getElem?_eq_none (by simpa using h)]

theorem push?_of_lt {s : Stack} (h : s.height < limit) (item : UInt256) :
    ∃ s', s.push? item = some s' ∧ s'.items = item :: s.items := by
  refine ⟨_, by rw [push?, dif_pos h], ?_⟩
  have hlt := height_lt_length h
  simp only [items]
  rw [List.take_add_one, List.take_set, List.getElem?_set_self hlt]
  rw [List.set_eq_of_length_le (by simp)]
  simp

theorem push?_of_not_lt {s : Stack} (h : ¬ s.height < limit) (item : UInt256) :
    s.push? item = none := dif_neg h

theorem pop?_of_pos {s : Stack} (h : 0 < s.height) :
    ∃ item s', s.pop? = some (item, s') ∧ s.items = item :: s'.items := by
  refine ⟨_, _, by rw [pop?, if_pos h], ?_⟩
  have h2 := s.length_storage
  have h3 := s.height_le
  obtain ⟨n, hn⟩ : ∃ n, s.height = n + 1 := ⟨s.height - 1, by omega⟩
  simp only [items, hn, Nat.add_sub_cancel]
  rw [List.take_add_one, List.getElem?_eq_getElem (by omega)]
  simp [List.getD_eq_getElem?_getD, List.getElem?_eq_getElem (show n < s.storage.length by omega)]

theorem pop?_of_not_pos {s : Stack} (h : ¬ 0 < s.height) : s.pop? = none := if_neg h

theorem set?_of_lt {s : Stack} {index : Nat} (h : index < s.height) (item : UInt256) :
    ∃ s', s.set? index item = some s' ∧ s'.items = s.items.set index item := by
  refine ⟨_, by rw [set?, if_pos h], ?_⟩
  have h2 := s.length_storage
  have h3 := s.height_le
  simp only [items]
  rw [List.take_set]
  apply List.ext_getElem?
  intro i
  have hlen : (s.storage.take s.height).length = s.height := by simp [h2, h3]
  by_cases hi : i < s.height
  · rw [List.getElem?_reverse (by simpa [h2] using ⟨hi, by omega⟩)]
    simp only [List.getElem?_set, List.length_set, List.length_reverse, hlen]
    rw [List.getElem?_reverse (by rw [hlen]; exact hi), hlen]
    by_cases hii : index = i
    · subst hii
      rw [if_pos rfl, if_pos rfl, if_pos (by omega), if_pos hi]
    · rw [if_neg (by omega), if_neg hii]
  · rw [List.getElem?_eq_none (by simp; omega), List.getElem?_eq_none (by simp; omega)]

theorem set?_of_not_lt {s : Stack} {index : Nat} (h : ¬ index < s.height) (item : UInt256) :
    s.set? index item = none := if_neg h

end Stack

end Ivmone
