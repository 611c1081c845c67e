import Ivmone.Lib.Program

/-!
# The operations a program issues

`p.Uses P` says that every operation `p` can issue, whatever the answers are, meets `P`. Three rules
use it: what all these operations keep, a run of the program keeps (`run_of_uses`); handlers that
agree on these operations run the program alike (`run_congr_of_uses`); and two runs under handlers
that relate all operations stay related (`run_related`). The costs of the operations of a run add up
(`run_tally`).
-/

set_option autoImplicit false

namespace Ivmone.Lib

universe u v w

/-! ## Inversion of runs -/

namespace Outcome

variable {S E F α β : Type*}

theorem bind_eq_ok {r : Outcome S E F α} {f : α → S → Outcome S E F β} {b : β} {s : S}
    (h : r.bind f = .ok b s) : ∃ a s', r = .ok a s' ∧ f a s' = .ok b s := by
  cases r with
  | ok a s' => exact ⟨a, s', rfl, h⟩
  | exit e s' => cases h
  | fault x => cases h

theorem bind_eq_exit {r : Outcome S E F α} {f : α → S → Outcome S E F β} {e : E} {s : S}
    (h : r.bind f = .exit e s) : r = .exit e s ∨ ∃ a s', r = .ok a s' ∧ f a s' = .exit e s := by
  cases r with
  | ok a s' => exact .inr ⟨a, s', rfl, h⟩
  | exit e s' =>
      cases h
      exact .inl rfl
  | fault x => cases h

end Outcome

namespace Program

variable {Op : Type u} {Res : Op → Type v} {α β : Type v}

/-- The two parts of the run of a sequence that ends with a value. -/
theorem run_bind_eq_ok {S E F : Type w} {h : Handler Op Res S E F} {p : Program Op Res α}
    {f : α → Program Op Res β} {b : β} {s t : S} (hrun : run h (p >>= f) s = .ok b t) :
    ∃ a s', run h p s = .ok a s' ∧ run h (f a) s' = .ok b t := by
  rw [run_bind] at hrun
  exact Outcome.bind_eq_ok hrun

theorem ite_bind (c : Prop) [Decidable c] (p q : Program Op Res α) (f : α → Program Op Res β) :
    (if c then p else q) >>= f = if c then p >>= f else q >>= f := by
  by_cases hc : c
  · rw [if_pos hc, if_pos hc]
  · rw [if_neg hc, if_neg hc]

/-- Operations that meet `P` are allowed, and may give any answer. -/
def Footprint (P : Op → Prop) : Transformer Op Res Unit := fun o _ Q => P o ∧ ∀ r, Q r ()

/-- Every operation the program can issue meets `P`. -/
def Uses (P : Op → Prop) (p : Program Op Res α) : Prop := p.Sat (Footprint P) (fun _ _ => True) ()

theorem footprint_monotone (P : Op → Prop) :
    Monotone (Footprint P : Transformer Op Res Unit) := by
  rintro o ⟨⟩ Q Q' hQ ⟨ho, h⟩
  exact ⟨ho, fun r => hQ r () (h r)⟩

@[simp] theorem sat_map {A : Type w} {T : Transformer Op Res A} (p : Program Op Res α) (f : α → β)
    (Q : β → A → Prop) (a : A) : (f <$> p).Sat T Q a ↔ p.Sat T (fun r a' => Q (f r) a') a := by
  rw [map_eq_pure_bind, sat_bind]
  rfl

theorem Uses.sat {P : Op → Prop} {p : Program Op Res α} {Q : α → Unit → Prop} (hp : p.Uses P)
    (hQ : ∀ r, Q r ()) : p.Sat (Footprint P) Q () :=
  Sat.mono (footprint_monotone P) hp fun r _ _ => hQ r

theorem Uses.mono {P P' : Op → Prop} {p : Program Op Res α} (hp : p.Uses P)
    (hP : ∀ o, P o → P' o) : p.Uses P' :=
  Sat.weaken (footprint_monotone P') (fun o _ _ h => ⟨hP o h.1, h.2⟩) hp

theorem Uses.bind {P : Op → Prop} {p : Program Op Res α} {f : α → Program Op Res β} (hp : p.Uses P)
    (hf : ∀ a, (f a).Uses P) : (p >>= f).Uses P := by
  rw [Uses, sat_bind]
  exact hp.sat hf

section Runs

variable {P : Op → Prop} {S E F : Type w} {h h' : Handler Op Res S E F}

/-- What every operation a program uses keeps, the program keeps; its value is one that the program
can end with. -/
theorem run_of_footprint {R : S → Prop} {X : E → S → Prop} {G : F → Prop}
    (hstep : ∀ o s, P o → R s → (h o s).Meets (fun _ s' => R s') X G) {p : Program Op Res α}
    {Q : α → Prop} (hp : p.Sat (Footprint P) (fun r _ => Q r) ()) {s : S} (hs : R s) :
    (run h p s).Meets (fun r s' => R s' ∧ Q r) X G := by
  induction p generalizing s with
  | done a => exact ⟨hs, hp⟩
  | call o next ih =>
      apply Outcome.Meets.bind (hstep o s hp.1 hs)
      intro r s' hs'
      exact ih r (hp.2 r) hs'

theorem run_of_uses {R : S → Prop} {X : E → S → Prop} {G : F → Prop}
    (hstep : ∀ o s, P o → R s → (h o s).Meets (fun _ s' => R s') X G) {p : Program Op Res α}
    (hp : p.Uses P) {s : S} (hs : R s) : (run h p s).Meets (fun _ s' => R s') X G :=
  (run_of_footprint hstep hp hs).mono (fun _ _ h => h.1) (fun _ _ => id) fun _ => id

/-- Handlers that agree on the operations a program uses run it alike. -/
theorem run_congr_of_uses (hagree : ∀ o s, P o → h o s = h' o s) {p : Program Op Res α}
    (hp : p.Uses P) (s : S) : run h p s = run h' p s := by
  induction p generalizing s with
  | done a => rfl
  | call o next ih =>
      show (h o s).bind _ = (h' o s).bind _
      rw [hagree o s hp.1]
      cases h' o s with
      | ok r s' => exact ih r (hp.2 r) s'
      | exit e s' => rfl
      | fault x => rfl

end Runs

/-! ## Costs -/

section Tally

variable {S E F : Type w} (h : Handler Op Res S E F) (cost : Op → S → Int)

/-- The sum of the costs of the operations in a run, each in the state it is issued in. -/
def tally : Program Op Res α → S → Int
  | done _, _ => 0
  | call o next, s =>
      cost o s +
        match h o s with
        | .ok r s' => tally (next r) s'
        | .exit _ _ => 0
        | .fault _ => 0

variable {h cost}

/-- If every operation takes its cost from a meter, a run takes the sum. That may depend on a
condition which, once broken, stays so: it is asked of the final state. -/
theorem run_tally {meter : S → Int} {R : S → Prop}
    (hstep : ∀ o s r s', h o s = .ok r s' → R s' → R s ∧ meter s' = meter s - cost o s)
    {p : Program Op Res α} {s t : S} {a : α} (hrun : run h p s = .ok a t) (ht : R t) :
    R s ∧ meter t = meter s - tally h cost p s := by
  induction p generalizing s with
  | done b =>
      injection hrun with _ hst
      subst hst
      exact ⟨ht, (Int.sub_zero _).symm⟩
  | call o next ih =>
      obtain ⟨r, s', ho, hnext⟩ := Outcome.bind_eq_ok hrun
      obtain ⟨hs', hmeter'⟩ := ih r hnext
      obtain ⟨hs, hmeter⟩ := hstep o s r s' ho hs'
      refine ⟨hs, ?_⟩
      have htally : tally h cost (call o next) s = cost o s + tally h cost (next r) s' := by
        rw [tally, ho]
      rw [hmeter', hmeter, htally]
      omega

end Tally

/-! ## Two runs under related handlers -/

section Related

variable {S S' E F : Type w}

/-- The same value, exit value or fault, with related states. -/
inductive Alike (R : S → S' → Prop) : Outcome S E F α → Outcome S' E F α → Prop
  | ok {a : α} {s : S} {t : S'} (hst : R s t) : Alike R (.ok a s) (.ok a t)
  | exit {e : E} {s : S} {t : S'} (hst : R s t) : Alike R (.exit e s) (.exit e t)
  | fault (f : F) : Alike R (.fault f) (.fault f)

theorem Alike.bind {R : S → S' → Prop} {r : Outcome S E F α} {r' : Outcome S' E F α}
    {f : α → S → Outcome S E F β} {f' : α → S' → Outcome S' E F β} (hr : Alike R r r')
    (hf : ∀ a s t, R s t → Alike R (f a s) (f' a t)) : Alike R (r.bind f) (r'.bind f') := by
  cases hr with
  | ok hst => exact hf _ _ _ hst
  | exit hst => exact .exit hst
  | fault x => exact .fault x

/-- Handlers that relate every operation relate every program. -/
theorem run_related {h : Handler Op Res S E F} {h' : Handler Op Res S' E F} {R : S → S' → Prop}
    (hstep : ∀ o s t, R s t → Alike R (h o s) (h' o t)) (p : Program Op Res α) {s : S} {t : S'}
    (hst : R s t) : Alike R (run h p s) (run h' p t) := by
  induction p generalizing s t with
  | done a => exact .ok hst
  | call o next ih =>
      apply Alike.bind (hstep o s t hst)
      intro a s' t' hst'
      exact ih a hst'

end Related

end Program

end Ivmone.Lib
