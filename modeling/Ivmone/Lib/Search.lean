import Mathlib.Order.Lattice
import Mathlib.Data.List.Pairwise

/-!
# Searching sorted columns

A table of two columns, the first of which is strictly sorted. A search narrows a window down to
where the key can still be (`Confined`); each comparison with a key in the window cuts it on one
side. `Finds` says what a lookup has to return; there is only one such value.
-/

set_option autoImplicit false

namespace Ivmone.Lib

universe u v

variable {α : Type u} {β : Type v} [LinearOrder α] {keys : List α} {values : List β} {x : α}

/-- The key is nowhere outside of the window from `lo` to `hi`. -/
def Confined (keys : List α) (x : α) (lo hi : Nat) : Prop :=
  ∀ i : Nat, keys[i]? = some x → lo ≤ i ∧ i < hi

/-- The value for the key, or the one that says that the key is missing. -/
def Finds (keys : List α) (values : List β) (missing : β) (x : α) (r : β) : Prop :=
  (∃ i : Nat, keys[i]? = some x ∧ values[i]? = some r) ∨ (x ∉ keys ∧ r = missing)

theorem getElem?_lt (hsorted : keys.Pairwise (· < ·)) {i j : Nat} {a b : α} (hij : i < j)
    (ha : keys[i]? = some a) (hb : keys[j]? = some b) : a < b := by
  obtain ⟨hi, rfl⟩ := List.getElem?_eq_some_iff.1 ha
  obtain ⟨hj, rfl⟩ := List.getElem?_eq_some_iff.1 hb
  exact List.pairwise_iff_getElem.1 hsorted i j hi hj hij

/-- A key is at one index only. -/
theorem index_unique (hsorted : keys.Pairwise (· < ·)) {i j : Nat} (hi : keys[i]? = some x)
    (hj : keys[j]? = some x) : i = j := by
  rcases Nat.lt_trichotomy i j with h | h | h
  · exact absurd (getElem?_lt hsorted h hi hj) (lt_irrefl x)
  · exact h
  · exact absurd (getElem?_lt hsorted h hj hi) (lt_irrefl x)

theorem Finds.unique (hsorted : keys.Pairwise (· < ·)) {missing r r' : β}
    (h : Finds keys values missing x r) (h' : Finds keys values missing x r') : r = r' := by
  rcases h with ⟨i, hi, hr⟩ | ⟨hnot, rfl⟩
  · rcases h' with ⟨j, hj, hr'⟩ | ⟨hnot, -⟩
    · rw [index_unique hsorted hi hj, hr'] at hr
      exact (Option.some.inj hr).symm
    · exact absurd (List.mem_of_getElem? hi) hnot
  · rcases h' with ⟨j, hj, -⟩ | ⟨-, rfl⟩
    · exact absurd (List.mem_of_getElem? hj) hnot
    · rfl

/-! ## Windows -/

namespace Confined

variable {lo hi m : Nat} {k : α}

omit [LinearOrder α] in
theorem all (keys : List α) (x : α) : Confined keys x 0 keys.length := by
  intro i hi
  obtain ⟨hlt, -⟩ := List.getElem?_eq_some_iff.1 hi
  exact ⟨Nat.zero_le i, hlt⟩

/-- A smaller key is below the window. -/
theorem above (h : Confined keys x lo hi) (hsorted : keys.Pairwise (· < ·))
    (hm : keys[m]? = some k) (hk : k < x) : Confined keys x (m + 1) hi := by
  intro i hi
  refine ⟨?_, (h i hi).2⟩
  by_contra hle
  rcases Nat.lt_or_eq_of_le (Nat.lt_succ_iff.1 (Nat.lt_of_not_le hle)) with hlt | rfl
  · exact absurd (getElem?_lt hsorted hlt hi hm) (lt_asymm hk)
  · rw [hm] at hi
    exact absurd (Option.some.inj hi) (ne_of_lt hk)

/-- A larger key is above the window. -/
theorem below (h : Confined keys x lo hi) (hsorted : keys.Pairwise (· < ·))
    (hm : keys[m]? = some k) (hk : x < k) : Confined keys x lo m := by
  intro i hi
  refine ⟨(h i hi).1, ?_⟩
  by_contra hle
  rcases Nat.lt_or_eq_of_le (Nat.le_of_not_lt hle) with hlt | rfl
  · exact absurd (getElem?_lt hsorted hlt hm hi) (lt_asymm hk)
  · rw [hm] at hi
    exact absurd (Option.some.inj hi) (ne_of_gt hk)

omit [LinearOrder α] in
/-- In an empty window there is no key. -/
theorem not_mem (h : Confined keys x lo hi) (hle : hi ≤ lo) : x ∉ keys := by
  intro hx
  obtain ⟨i, hi⟩ := List.mem_iff_getElem?.1 hx
  have hin := h i hi
  omega

end Confined

/-! ## The first key that is not less -/

/-- `std::lower_bound`: the index of the first key that is not less. -/
def firstNotLess (keys : List α) (x : α) : Nat := keys.findIdx fun y => !decide (y < x)

theorem getElem?_firstNotLess (hsorted : keys.Pairwise (· < ·)) (hx : x ∈ keys) :
    keys[firstNotLess keys x]? = some x := by
  obtain ⟨i, hi⟩ := List.mem_iff_getElem?.1 hx
  obtain ⟨hlt, hget⟩ := List.getElem?_eq_some_iff.1 hi
  have hindex : firstNotLess keys x = i := by
    refine (List.findIdx_eq hlt).2 ⟨?_, fun j hj => ?_⟩
    · simp [hget]
    · have hless : keys[j] < x :=
        getElem?_lt hsorted hj (List.getElem?_eq_getElem (Nat.lt_trans hj hlt)) hi
      simp [hless]
  rw [hindex, hi]

end Ivmone.Lib
