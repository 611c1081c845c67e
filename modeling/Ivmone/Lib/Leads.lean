import Ivmone.Lib.Runs

/-!
# Total correctness of runs

`Leads f P Q` says that every run of the step function `f` that starts in `P` comes to a
configuration in `Q`. The rules are those of a Hoare logic for total correctness: one step, sequence
and consequence.
-/

set_option autoImplicit false

namespace Ivmone.Lib

open StateTransition

universe u

variable {α : Type u} {f : α → Option α} {P P' Q Q' R : α → Prop}

/-- A run from anywhere in `P` comes to a configuration in `Q`. -/
def Leads (f : α → Option α) (P Q : α → Prop) : Prop := ∀ a, P a → ∃ b, Reaches f a b ∧ Q b

theorem Leads.of_imp (h : ∀ a, P a → Q a) : Leads f P Q := by
  intro a ha
  exact ⟨a, .refl, h a ha⟩

theorem Leads.of_step (h : ∀ a, P a → ∃ b, f a = some b ∧ Q b) : Leads f P Q := by
  intro a ha
  obtain ⟨b, hstep, hb⟩ := h a ha
  exact ⟨b, .single hstep, hb⟩

theorem Leads.trans (h : Leads f P Q) (h' : Leads f Q R) : Leads f P R := by
  intro a ha
  obtain ⟨b, hab, hb⟩ := h a ha
  obtain ⟨c, hbc, hc⟩ := h' b hb
  exact ⟨c, hab.trans hbc, hc⟩

theorem Leads.consequence (h : Leads f P Q) (hP : ∀ a, P' a → P a) (hQ : ∀ a, Q a → Q' a) :
    Leads f P' Q' :=
  (Leads.of_imp hP).trans (h.trans (.of_imp hQ))

/-- A run that comes to where no step is left has ended there. -/
theorem Leads.ends (h : Leads f P Q) (hQ : ∀ b, Q b → f b = none) {a : α} (ha : P a) :
    ∃ b, Ends f a b ∧ Q b := by
  obtain ⟨b, hab, hb⟩ := h a ha
  exact ⟨b, ⟨hab, hQ b hb⟩, hb⟩

end Ivmone.Lib
