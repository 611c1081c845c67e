import Mathlib.Computability.StateTransition
import Mathlib.Order.WellFounded

/-!
# Runs of a step function

Rules for the runs of a step function `α → Option α`: an invariant that every step keeps holds of
all reachable configurations, a run ends if every step goes down in a well-founded relation, and a
run can be recorded.
-/

set_option autoImplicit false

namespace Ivmone.Lib

open StateTransition

universe u v

variable {α : Type u} {f : α → Option α}

/-- An invariant holds of everything that is reached. -/
theorem invariant_of_reaches {P : α → Prop} (hstep : ∀ a b, P a → f a = some b → P b) {a b : α}
    (h : Reaches f a b) (ha : P a) : P b := by
  induction h with
  | refl => exact ha
  | tail _ hb ih => exact hstep _ _ ih hb

/-- The run from `a` ends in `b`. -/
def Ends (f : α → Option α) (a b : α) : Prop := Reaches f a b ∧ f b = none

theorem Ends.head {a b c : α} (h : f a = some b) (hb : Ends f b c) : Ends f a c :=
  ⟨Relation.ReflTransGen.head h hb.1, hb.2⟩

theorem Ends.refl {a : α} (h : f a = none) : Ends f a a := ⟨Relation.ReflTransGen.refl, h⟩

theorem ends_iff_mem_eval {a b : α} : Ends f a b ↔ b ∈ eval f a := mem_eval.symm

/-- A run ends if every step keeps an invariant and, unless it is the last one, goes down. -/
theorem exists_ends {β : Type v} {r : β → β → Prop} (hr : WellFounded r) {P : α → Prop} {m : α → β}
    (hstep : ∀ a b, P a → f a = some b → P b ∧ (f b = none ∨ r (m b) (m a))) {a : α} (ha : P a) :
    ∃ b, Ends f a b ∧ P b := by
  induction hm : m a using hr.induction generalizing a with
  | _ x ih =>
      subst hm
      cases hfa : f a with
      | none => exact ⟨a, .refl hfa, ha⟩
      | some b =>
          obtain ⟨hb, hfinal | hlt⟩ := hstep a b ha hfa
          · exact ⟨b, .head hfa (.refl hfinal), hb⟩
          · obtain ⟨c, hends, hc⟩ := ih (m b) hlt hb rfl
            exact ⟨c, .head hfa hends, hc⟩

/-! ## A number of steps -/

/-- The configuration after a number of steps. A run that has ended stays where it is. -/
def after (f : α → Option α) (a : α) : Nat → α
  | 0 => a
  | n + 1 => (f (after f a n)).getD (after f a n)

theorem after_succ_of_some {a b : α} {n : Nat} (h : f (after f a n) = some b) :
    after f a (n + 1) = b := by
  rw [after, h, Option.getD_some]

theorem after_succ_of_none {a : α} {n : Nat} (h : f (after f a n) = none) :
    after f a (n + 1) = after f a n := by
  rw [after, h, Option.getD_none]

theorem reaches_after (a : α) (n : Nat) : Reaches f a (after f a n) := by
  induction n with
  | zero => exact .refl
  | succ n ih =>
      cases h : f (after f a n) with
      | none => exact after_succ_of_none h ▸ ih
      | some b => exact after_succ_of_some h ▸ ih.tail h

theorem exists_after_of_reaches {a b : α} (h : Reaches f a b) : ∃ n, after f a n = b := by
  induction h with
  | refl => exact ⟨0, rfl⟩
  | @tail b c _ hbc ih =>
      obtain ⟨n, rfl⟩ := ih
      exact ⟨n + 1, after_succ_of_some hbc⟩

/-- A run that has ended stays where it is. -/
theorem after_of_none {a : α} {m n : Nat} (h : f (after f a m) = none) (hle : m ≤ n) :
    after f a n = after f a m := by
  induction n, hle using Nat.le_induction with
  | base => rfl
  | succ n hle ih =>
      rw [← ih] at h ⊢
      exact after_succ_of_none h

/-- A run has ended after one step more than the fuel it starts with, if every step keeps an invariant
and, unless it is the last one, takes fuel. -/
theorem step_after_eq_none {P : Nat → α → Prop}
    (hstep : ∀ n a b, P n a → f a = some b → f b = none ∨ ∃ n' < n, P n' b) {a : α} {n : Nat}
    (ha : P n a) : f (after f a (n + 1)) = none := by
  have hsome : ∀ k, f (after f a k) ≠ none → ∃ m, P m (after f a k) ∧ k + m ≤ n := by
    intro k
    induction k with
    | zero => exact fun _ => ⟨n, ha, (Nat.zero_add n).le⟩
    | succ k ih =>
        intro hk
        cases hprev : f (after f a k) with
        | none =>
            rw [after_succ_of_none hprev, hprev] at hk
            exact absurd rfl hk
        | some b =>
            obtain ⟨m, hm, hle⟩ := ih (by rw [hprev]; exact Option.some_ne_none b)
            rw [after_succ_of_some hprev] at hk ⊢
            rcases hstep m _ b hm hprev with hend | ⟨m', hlt, hm'⟩
            · exact absurd hend hk
            · exact ⟨m', hm', by omega⟩
  by_contra hrun
  obtain ⟨m, -, hle⟩ := hsome (n + 1) hrun
  omega

/-- A run that ends after `m` steps reaches nothing but what it goes through in them. -/
theorem forall_reaches_of_after {a : α} {m : Nat} {P : α → Prop} (hend : f (after f a m) = none)
    (h : ∀ n ≤ m, P (after f a n)) {b : α} (hb : Reaches f a b) : P b := by
  obtain ⟨n, rfl⟩ := exists_after_of_reaches hb
  rcases Nat.le_total n m with hle | hle
  · exact h n hle
  · rw [after_of_none hend hle]
    exact h m le_rfl

/-! ## Recording along a run -/

section Recorded

variable {β : Type v}

/-- The steps of `f`, with a record that `note` brings up to date at each of them. -/
def recorded (f : α → Option α) (note : α → β → β) : α × β → Option (α × β) := fun x =>
  (f x.1).map fun a => (a, note x.1 x.2)

variable {note : α → β → β}

theorem recorded_eq_some {a b : α} {r r' : β} :
    recorded f note (a, r) = some (b, r') ↔ f a = some b ∧ note a r = r' := by
  simp [recorded]

/-- A recorded run is a run. -/
theorem reaches_of_recorded {x y : α × β} (h : Reaches (recorded f note) x y) :
    Reaches f x.1 y.1 := by
  induction h with
  | refl => exact .refl
  | @tail y z _ hyz ih => exact ih.tail (recorded_eq_some.1 hyz).1

/-- Every run can be recorded. -/
theorem exists_recorded {a b : α} (h : Reaches f a b) (r : β) :
    ∃ r', Reaches (recorded f note) (a, r) (b, r') := by
  induction h with
  | refl => exact ⟨r, .refl⟩
  | @tail b c _ hbc ih =>
      obtain ⟨r', hr'⟩ := ih
      exact ⟨note b r', hr'.tail (recorded_eq_some.2 ⟨hbc, rfl⟩)⟩

end Recorded

end Ivmone.Lib
