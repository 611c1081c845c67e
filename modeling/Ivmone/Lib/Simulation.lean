import Ivmone.Lib.Runs

/-!
# Ranked simulations of runs

Two step functions, and a relation between their configurations. In related configurations one of
them makes a step, or both do, and the configurations stay related; or the rest of the two runs is
settled. The second function may not go on alone forever: its rank goes down when it does.
`exists_ends_of_simulation` says that the second run ends if the first one does, in configurations
that are related by `E`.
-/

set_option autoImplicit false

namespace Ivmone.Lib

open StateTransition

universe u v

variable {α : Type u} {β : Type v}

/-- What happens next in two related configurations. -/
inductive Simulates (f : α → Option α) (g : β → Option β) (rank : β → Nat) (R E : α → β → Prop)
    (a : α) (b : β) : Prop
  /-- The first run makes a step alone. -/
  | left {a' : α} (hf : f a = some a') (hR : R a' b) : Simulates f g rank R E a b
  /-- The second run makes a step alone. -/
  | right {b' : β} (hg : g b = some b') (hR : R a b') (hrank : rank b' < rank b) :
      Simulates f g rank R E a b
  /-- Both runs make a step. -/
  | both {a' : α} {b' : β} (hf : f a = some a') (hg : g b = some b') (hR : R a' b') :
      Simulates f g rank R E a b
  /-- Wherever the first run ends, the second one ends accordingly. -/
  | settled (h : ∀ c, Ends f a c → ∃ c', Ends g b c' ∧ E c c') : Simulates f g rank R E a b

variable {f : α → Option α} {g : β → Option β} {rank : β → Nat} {R E : α → β → Prop}

/-- A run that ends makes no step at its end, and goes on with its next configuration before. -/
theorem Ends.tail {a a' c : α} (h : Ends f a c) (ha : f a = some a') : Ends f a' c := by
  obtain ⟨hreaches, hc⟩ := h
  rcases Relation.ReflTransGen.cases_head hreaches with rfl | ⟨x, hx, hrest⟩
  · rw [ha] at hc
    cases hc
  · have hx' : f a = some x := hx
    rw [ha] at hx'
    injection hx' with hx'
    subst hx'
    exact ⟨hrest, hc⟩

/-- The second run ends if the first one does. -/
theorem exists_ends_of_simulation (hsim : ∀ a b, R a b → Simulates f g rank R E a b) {a c : α}
    {b : β} (h : Ends f a c) (hR : R a b) : ∃ c', Ends g b c' ∧ E c c' := by
  obtain ⟨hreaches, hc⟩ := h
  -- The outer induction is on the first run, the inner one on the rank of the second run.
  induction hreaches using Relation.ReflTransGen.head_induction_on generalizing b with
  | refl =>
      induction hb : rank b using Nat.strong_induction_on generalizing b with
      | _ n ih =>
          subst hb
          cases hsim c b hR with
          | left hf hR' =>
              rw [hc] at hf
              cases hf
          | right hg hR' hrank =>
              obtain ⟨c', hends, hE⟩ := ih _ hrank hR' rfl
              exact ⟨c', .head hg hends, hE⟩
          | both hf hg hR' =>
              rw [hc] at hf
              cases hf
          | settled hsettled => exact hsettled c (.refl hc)
  | @head x y hstep hrest ih =>
      have hxy : f x = some y := hstep
      induction hb : rank b using Nat.strong_induction_on generalizing b with
      | _ n ihb =>
          subst hb
          cases hsim x b hR with
          | left hf hR' =>
              rw [hxy] at hf
              injection hf with hf
              subst hf
              exact ih hR'
          | right hg hR' hrank =>
              obtain ⟨c', hends, hE⟩ := ihb _ hrank hR' rfl
              exact ⟨c', .head hg hends, hE⟩
          | both hf hg hR' =>
              rw [hxy] at hf
              injection hf with hf
              subst hf
              obtain ⟨c', hends, hE⟩ := ih hR'
              exact ⟨c', .head hg hends, hE⟩
          | settled hsettled => exact hsettled c (.head hxy ⟨hrest, hc⟩)

/-! ## Runs in step -/

/-- Two runs that make their steps together end together, in related configurations. -/
theorem ends_of_both (hboth : ∀ a b, R a b →
      (f a = none ∧ g b = none) ∨ ∃ a' b', f a = some a' ∧ g b = some b' ∧ R a' b')
    {a c : α} {b : β} (h : Ends f a c) (hR : R a b) : ∃ c', Ends g b c' ∧ R c c' := by
  obtain ⟨hreaches, hc⟩ := h
  induction hreaches using Relation.ReflTransGen.head_induction_on generalizing b with
  | refl =>
      rcases hboth c b hR with ⟨-, hb⟩ | ⟨c', -, hc', -⟩
      · exact ⟨b, .refl hb, hR⟩
      · rw [hc] at hc'
        cases hc'
  | @head x y hstep hrest ih =>
      have hxy : f x = some y := hstep
      rcases hboth x b hR with ⟨hx, -⟩ | ⟨x', b', hx', hb', hR'⟩
      · rw [hxy] at hx
        cases hx
      · rw [hxy] at hx'
        injection hx' with hx'
        subst hx'
        obtain ⟨c', hends, hE⟩ := ih hR'
        exact ⟨c', .head hb' hends, hE⟩

/-- A run that follows another one, which ends in `c`. The two make their steps together, until they
both end or the second one gives up; then the first one goes on alone. -/
theorem exists_ends_of_follower {D : α → Prop} {Z : β → Prop} {c : α}
    (hboth : ∀ a b a', R a b → f a = some a' → Ends f a' c →
      ∃ b', g b = some b' ∧ (R a' b' ∨ D a' ∧ Z b'))
    (hended : ∀ a b, R a b → f a = none → g b = none)
    (halone : ∀ a a', D a → f a = some a' → Ends f a' c → D a')
    (hgiven : ∀ b, Z b → g b = none) {a : α} {b : β} (h : Ends f a c) (hR : R a b) :
    ∃ c', Ends g b c' ∧ (R c c' ∨ D c ∧ Z c') := by
  obtain ⟨hreaches, hc⟩ := h
  have hstays : ∀ {x}, Reaches f x c → D x → D c := by
    intro x hx
    induction hx using Relation.ReflTransGen.head_induction_on with
    | refl => exact id
    | head hstep hrest ih => exact fun hD => ih (halone _ _ hD hstep ⟨hrest, hc⟩)
  induction hreaches using Relation.ReflTransGen.head_induction_on generalizing b with
  | refl => exact ⟨b, .refl (hended c b hR hc), .inl hR⟩
  | @head x y hstep hrest ih =>
      obtain ⟨b', hb', hR' | ⟨hD, hZ⟩⟩ := hboth x b y hR hstep ⟨hrest, hc⟩
      · obtain ⟨c', hends, hE⟩ := ih hR'
        exact ⟨c', .head hb' hends, hE⟩
      · exact ⟨b', .head hb' (.refl (hgiven b' hZ)), .inr ⟨hstays hrest hD, hZ⟩⟩

/-- Two runs that make their steps together give the same observation, or none. -/
theorem map_eval_eq_of_both {γ : Type*} {obs : α → γ} {obs' : β → γ}
    (hboth : ∀ a b, R a b →
      (f a = none ∧ g b = none) ∨ ∃ a' b', f a = some a' ∧ g b = some b' ∧ R a' b')
    (hobs : ∀ a b, R a b → obs a = obs' b) {a : α} {b : β} (hR : R a b) :
    (eval f a).map obs = (eval g b).map obs' := by
  apply Part.ext
  intro x
  rw [Part.mem_map_iff, Part.mem_map_iff]
  constructor
  · rintro ⟨c, hc, rfl⟩
    obtain ⟨c', hc', hcc⟩ := ends_of_both hboth (ends_iff_mem_eval.2 hc) hR
    exact ⟨c', ends_iff_mem_eval.1 hc', (hobs c c' hcc).symm⟩
  · rintro ⟨c', hc', rfl⟩
    have hboth' : ∀ b a, R a b →
        (g b = none ∧ f a = none) ∨ ∃ b' a', g b = some b' ∧ f a = some a' ∧ R a' b' := by
      intro b a hab
      rcases hboth a b hab with ⟨ha, hb⟩ | ⟨a', b', ha, hb, hR'⟩
      · exact .inl ⟨hb, ha⟩
      · exact .inr ⟨b', a', hb, ha, hR'⟩
    obtain ⟨c, hc, hcc⟩ := ends_of_both (R := fun b a => R a b) hboth'
      (ends_iff_mem_eval.2 hc') hR
    exact ⟨c, ends_iff_mem_eval.1 hc, hobs c c' hcc⟩

end Ivmone.Lib
