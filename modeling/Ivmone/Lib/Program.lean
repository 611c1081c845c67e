import Mathlib.Logic.Basic
import Mathlib.Tactic.TypeStar

/-!
# Programs over an interface of operations

A `Program Op Res α` issues operations `o : Op`, each answered by a value of `Res o`, and ends
with a value of `α`. A `Handler` gives the operations a meaning on states: an operation answers
and changes the state, leaves the program with an exit value, or is a fault.

Three rules carry the proofs about programs.

- `run_bind` splits the run of a sequence.
- `run_meets` and `run_meets_or` turn a derivation of the program logic `Sat` into a fact about the
  run, for every handler that meets the predicate transformers of the logic.
- `run_lockstep` relates two runs of one program under two handlers: the runs stay related
  operation by operation, unless the second one bails out of the program early.
-/

set_option autoImplicit false

namespace Ivmone.Lib

universe u v w

/-- A program over the operations `Op`, with answers in `Res`, ending in a value of `α`. -/
inductive Program (Op : Type u) (Res : Op → Type v) (α : Type v) : Type (max u v) where
  | done (a : α)
  | call (o : Op) (next : Res o → Program Op Res α)

/-- The result of running a program: a value, an exit value, or a fault. A fault has no state. -/
inductive Outcome (S E F α : Type*) where
  | ok (a : α) (s : S)
  | exit (e : E) (s : S)
  | fault (f : F)

/-- The meaning of every operation on states of `S`, with exit values `E` and faults `F`. -/
abbrev Handler (Op : Type u) (Res : Op → Type v) (S E F : Type w) :=
  (o : Op) → S → Outcome S E F (Res o)

namespace Outcome

variable {S E F α β : Type*}

/-- Continue an outcome that has a value. -/
def bind : Outcome S E F α → (α → S → Outcome S E F β) → Outcome S E F β
  | ok a s, f => f a s
  | exit e s, _ => exit e s
  | fault x, _ => fault x

/-- The value and state of the outcome meet `Q`, its exit value and state meet `X`, and its fault
meets `G`. -/
def Meets (Q : α → S → Prop) (X : E → S → Prop) (G : F → Prop) : Outcome S E F α → Prop
  | ok a s => Q a s
  | exit e s => X e s
  | fault f => G f

@[simp] theorem meets_ok (Q : α → S → Prop) (X : E → S → Prop) (G : F → Prop) (a : α) (s : S) :
    (ok a s : Outcome S E F α).Meets Q X G ↔ Q a s := Iff.rfl

@[simp] theorem meets_exit (Q : α → S → Prop) (X : E → S → Prop) (G : F → Prop) (e : E) (s : S) :
    (exit e s : Outcome S E F α).Meets Q X G ↔ X e s := Iff.rfl

@[simp] theorem meets_fault (Q : α → S → Prop) (X : E → S → Prop) (G : F → Prop) (f : F) :
    (fault f : Outcome S E F α).Meets Q X G ↔ G f := Iff.rfl

theorem Meets.mono {Q Q' : α → S → Prop} {X X' : E → S → Prop} {G G' : F → Prop}
    {r : Outcome S E F α} (h : r.Meets Q X G) (hQ : ∀ a s, Q a s → Q' a s)
    (hX : ∀ e s, X e s → X' e s) (hG : ∀ f, G f → G' f) : r.Meets Q' X' G' := by
  cases r with
  | ok a s => exact hQ a s h
  | exit e s => exact hX e s h
  | fault f => exact hG f h

/-- The rule for continuing an outcome: the continuation is only asked about values that the
first part can return. -/
theorem Meets.bind {P : α → S → Prop} {Q : β → S → Prop} {X : E → S → Prop} {G : F → Prop}
    {r : Outcome S E F α} {f : α → S → Outcome S E F β} (h : r.Meets P X G)
    (hf : ∀ a s, P a s → (f a s).Meets Q X G) : (r.bind f).Meets Q X G := by
  cases r with
  | ok a s => exact hf a s h
  | exit e s => exact h
  | fault x => exact h

end Outcome

namespace Program

variable {Op : Type u} {Res : Op → Type v} {α β γ : Type v}

/-- Sequencing. -/
def bind : Program Op Res α → (α → Program Op Res β) → Program Op Res β
  | done a, f => f a
  | call o next, f => call o fun r => (next r).bind f

instance : Monad (Program Op Res) where
  pure := done
  bind := bind

/-- The program that issues one operation and returns its answer. -/
def perform (o : Op) : Program Op Res (Res o) := call o done

theorem bind_done (p : Program Op Res α) : p.bind done = p := by
  induction p with
  | done a => rfl
  | call o next ih =>
      show call o (fun r => (next r).bind done) = call o next
      exact congrArg (call o) (funext ih)

theorem bind_bind (p : Program Op Res α) (f : α → Program Op Res β) (g : β → Program Op Res γ) :
    (p.bind f).bind g = p.bind fun a => (f a).bind g := by
  induction p with
  | done a => rfl
  | call o next ih =>
      show call o (fun r => ((next r).bind f).bind g) = call o fun r => (next r).bind _
      exact congrArg (call o) (funext ih)

instance : LawfulMonad (Program Op Res) :=
  LawfulMonad.mk' (Program Op Res) bind_done (fun _ _ => rfl) bind_bind

/-! ## Running a program -/

section Run

variable {S E F : Type w}

/-- Run a program from a state, under a handler. -/
def run (h : Handler Op Res S E F) : Program Op Res α → S → Outcome S E F α
  | done a, s => .ok a s
  | call o next, s => (h o s).bind fun r s' => run h (next r) s'

variable (h : Handler Op Res S E F)

@[simp] theorem run_perform (o : Op) (s : S) :
    run h (perform o : Program Op Res (Res o)) s = h o s := by
  show (h o s).bind (fun r s' => .ok r s') = h o s
  cases h o s <;> rfl

theorem run_bind (p : Program Op Res α) (f : α → Program Op Res β) (s : S) :
    run h (p >>= f) s = (run h p s).bind fun a s' => run h (f a) s' := by
  induction p generalizing s with
  | done a => rfl
  | call o next ih =>
      show (h o s).bind (fun r s' => run h (next r >>= f) s') =
        ((h o s).bind fun r s' => run h (next r) s').bind fun a s' => run h (f a) s'
      cases h o s with
      | ok r s' => exact ih r s'
      | exit e s' => rfl
      | fault x => rfl

end Run

/-! ## The program logic -/

section Sat

variable {A : Type w}

/-- The meaning of every operation in the program logic, as a predicate transformer over abstract
states of `A`: `T o a Q` says that `o` is allowed in `a` and that every answer and next abstract
state it may give meets `Q`. -/
abbrev Transformer (Op : Type u) (Res : Op → Type v) (A : Type w) :=
  (o : Op) → A → (Res o → A → Prop) → Prop

/-- `p.Sat T Q a`: from the abstract state `a`, every operation of `p` is allowed by `T`, and the
values and abstract states `p` ends with meet `Q`. -/
def Sat (T : Transformer Op Res A) : Program Op Res α → (α → A → Prop) → A → Prop
  | done r, Q, a => Q r a
  | call o next, Q, a => T o a fun r a' => (next r).Sat T Q a'

variable {T : Transformer Op Res A}

@[simp] theorem sat_pure (r : α) (Q : α → A → Prop) (a : A) :
    (pure r : Program Op Res α).Sat T Q a ↔ Q r a := Iff.rfl

@[simp] theorem sat_perform (o : Op) (Q : Res o → A → Prop) (a : A) :
    (perform o : Program Op Res (Res o)).Sat T Q a ↔ T o a Q := Iff.rfl

@[simp] theorem sat_bind (p : Program Op Res α) (f : α → Program Op Res β) (Q : β → A → Prop)
    (a : A) : (p >>= f).Sat T Q a ↔ p.Sat T (fun r a' => (f r).Sat T Q a') a := by
  induction p generalizing a with
  | done r => rfl
  | call o next ih =>
      show T o a (fun r a' => (next r >>= f).Sat T Q a') ↔ T o a _
      exact iff_of_eq (congrArg (T o a) (funext fun r => funext fun a' => propext (ih r a')))

@[simp] theorem sat_ite (c : Prop) [Decidable c] (p q : Program Op Res α) (Q : α → A → Prop)
    (a : A) : (if c then p else q).Sat T Q a ↔ (c → p.Sat T Q a) ∧ (¬ c → q.Sat T Q a) := by
  by_cases hc : c
  · simp [hc]
  · simp [hc]

/-- A transformer is monotone in its postcondition. -/
def Monotone (T : Transformer Op Res A) : Prop :=
  ∀ (o : Op) (a : A) (Q Q' : Res o → A → Prop), (∀ r a', Q r a' → Q' r a') → T o a Q → T o a Q'

theorem Sat.mono (hT : Monotone T) {p : Program Op Res α} {Q Q' : α → A → Prop} {a : A}
    (hp : p.Sat T Q a) (hQ : ∀ r a', Q r a' → Q' r a') : p.Sat T Q' a := by
  induction p generalizing a with
  | done r => exact hQ r a hp
  | call o next ih => exact hT o a _ _ (fun r a' hr => ih r hr) hp

/-- Strengthening the transformer: what a program meets under `T` it meets under a weaker `T'`. -/
theorem Sat.weaken {T' : Transformer Op Res A} (hT' : Monotone T')
    (hw : ∀ o a Q, T o a Q → T' o a Q) {p : Program Op Res α} {Q : α → A → Prop} {a : A}
    (hp : p.Sat T Q a) : p.Sat T' Q a := by
  induction p generalizing a with
  | done r => exact hp
  | call o next ih => exact hT' o a _ _ (fun r a' hr => ih r hr) (hw o a _ hp)

variable {S E F : Type w} {h : Handler Op Res S E F}

/-- States in which the logic has given up stay so. -/
theorem run_meets_given_up {D : S → Prop} {X : E → S → Prop} {G : F → Prop}
    (hD : ∀ o s, D s → (h o s).Meets (fun _ s' => D s') X G) (p : Program Op Res α) {s : S}
    (hs : D s) : (run h p s).Meets (fun _ s' => D s') X G := by
  induction p generalizing s with
  | done r => exact hs
  | call o next ih =>
      refine Outcome.Meets.bind (hD o s hs) ?_
      intro r s' hs'
      exact ih r hs'

/-- Soundness of the program logic: if every operation allowed in an abstract state meets its
transformer on the concrete states `R` relates to it, then so does every program. In the states `D`
the logic has given up: there it says nothing any more. -/
theorem run_meets_or {R : A → S → Prop} {D : S → Prop} {X : E → S → Prop} {G : F → Prop}
    (hD : ∀ o s, D s → (h o s).Meets (fun _ s' => D s') X G)
    (hT : ∀ o a s (Q : Res o → A → Prop), R a s → T o a Q →
      (h o s).Meets (fun r s' => D s' ∨ ∃ a', R a' s' ∧ Q r a') X G)
    {p : Program Op Res α} {Q : α → A → Prop} {a : A} {s : S} (hR : R a s) (hp : p.Sat T Q a) :
    (run h p s).Meets (fun r s' => D s' ∨ ∃ a', R a' s' ∧ Q r a') X G := by
  induction p generalizing a s with
  | done r => exact .inr ⟨a, hR, hp⟩
  | call o next ih =>
      refine Outcome.Meets.bind (hT o a s _ hR hp) ?_
      rintro r s' (hs' | ⟨a', hR', hr⟩)
      · exact (run_meets_given_up hD (next r) hs').mono (fun _ _ => .inl)
          (fun _ _ => id) fun _ => id
      · exact ih r hR' hr

/-- Soundness of the program logic for a relation it never gives up. -/
theorem run_meets {R : A → S → Prop} {X : E → S → Prop} {G : F → Prop}
    (hT : ∀ o a s (Q : Res o → A → Prop), R a s → T o a Q →
      (h o s).Meets (fun r s' => ∃ a', R a' s' ∧ Q r a') X G)
    {p : Program Op Res α} {Q : α → A → Prop} {a : A} {s : S} (hR : R a s) (hp : p.Sat T Q a) :
    (run h p s).Meets (fun r s' => ∃ a', R a' s' ∧ Q r a') X G := by
  have hor := run_meets_or (fun _ _ => False.elim)
    (fun o a s Q hR hT' => (hT o a s Q hR hT').mono (fun _ _ => .inr) (fun _ _ => id) fun _ => id)
    hR hp
  exact hor.mono (fun _ _ h => h.resolve_left id) (fun _ _ => id) fun _ => id

end Sat

/-! ## Two runs of one program -/

section Lockstep

variable {S E F : Type w} {S' : Type w}

/-- Two outcomes of one program. Either both have the same value, the same exit value or the same
fault, related by `R` and `X`; or the second run has bailed out of the program, with an exit value
and state that meet `Z`, and the first one has a value and state that meet `B`, an exit value and
state that meet `BX`, or a fault. -/
inductive Lockstep (R : α → S → S' → Prop) (X : E → S → S' → Prop) (B : α → S → Prop)
    (BX : E → S → Prop) (Z : E → S' → Prop) : Outcome S E F α → Outcome S' E F α → Prop
  | ok {a : α} {s : S} {t : S'} (hst : R a s t) : Lockstep R X B BX Z (.ok a s) (.ok a t)
  | exit {e : E} {s : S} {t : S'} (hst : X e s t) : Lockstep R X B BX Z (.exit e s) (.exit e t)
  | fault (f : F) : Lockstep R X B BX Z (.fault f) (.fault f)
  | bail {r : Outcome S E F α} {e : E} {t : S'} (hr : r.Meets B BX fun _ => True) (ht : Z e t) :
      Lockstep R X B BX Z r (.exit e t)

/-- Two runs of one program are in lockstep if the operations it is allowed to issue are, and if
the states `D` of a run whose partner has bailed out are kept by those operations. -/
theorem run_lockstep {A : Type w} {T : Transformer Op Res A} {h : Handler Op Res S E F}
    {h' : Handler Op Res S' E F} {R : A → S → S' → Prop} {X : E → S → S' → Prop}
    {D : A → S → Prop} {BX : E → S → Prop} {Z : E → S' → Prop}
    (hstep : ∀ o a s t (Q : Res o → A → Prop), R a s t → T o a Q →
      Lockstep (fun r s' t' => ∃ a', R a' s' t' ∧ Q r a') X (fun r s' => ∃ a', D a' s' ∧ Q r a') BX
        Z (h o s) (h' o t))
    (hB : ∀ o a s (Q : Res o → A → Prop), D a s → T o a Q →
      (h o s).Meets (fun r s' => ∃ a', D a' s' ∧ Q r a') BX fun _ => True)
    {p : Program Op Res α} {Q : α → A → Prop} {a : A} {s : S} {t : S'} (hR : R a s t)
    (hp : p.Sat T Q a) :
    Lockstep (fun r s' t' => ∃ a', R a' s' t' ∧ Q r a') X (fun r s' => ∃ a', D a' s' ∧ Q r a') BX Z
      (run h p s) (run h' p t) := by
  induction p generalizing a s t with
  | done r => exact .ok ⟨a, hR, hp⟩
  | call o next ih =>
      have hop := hstep o a s t _ hR hp
      show Lockstep _ _ _ _ _ ((h o s).bind fun r s' => run h (next r) s')
        ((h' o t).bind fun r t' => run h' (next r) t')
      generalize h o s = x at hop ⊢
      generalize h' o t = y at hop ⊢
      cases hop with
      | ok hst =>
          obtain ⟨a', hR', hr⟩ := hst
          exact ih _ hR' hr
      | exit hst => exact .exit hst
      | fault f => exact .fault f
      | bail hr ht =>
          refine .bail (hr.bind ?_) ht
          rintro r s' ⟨a', hB', hr'⟩
          exact run_meets hB hB' hr'

end Lockstep

/-! ## A run that follows another one -/

section Trails

variable {S E F : Type w} {S' : Type w} {β : Type*}

/-- Two outcomes of one program, of which the second is only known while the first run goes well.
Either both have the same value or the same exit value, related by `R` and `X`; or the first run has
failed, with a fault or an exit value that meets `L`; or the second run has bailed out, with an exit
value and state that meet `Z`, and the first one meets `B` or `BX`. -/
inductive Trails (R : α → S → S' → Prop) (X : E → S → S' → Prop) (B : α → S → Prop)
    (BX : E → S → Prop) (L : E → Prop) (Z : E → S' → Prop) :
    Outcome S E F α → Outcome S' E F α → Prop
  | ok {a : α} {s : S} {t : S'} (hst : R a s t) : Trails R X B BX L Z (.ok a s) (.ok a t)
  | exit {e : E} {s : S} {t : S'} (hst : X e s t) : Trails R X B BX L Z (.exit e s) (.exit e t)
  | fault (f : F) (r : Outcome S' E F α) : Trails R X B BX L Z (.fault f) r
  | failed {e : E} (s : S) (r : Outcome S' E F α) (he : L e) : Trails R X B BX L Z (.exit e s) r
  | bail {r : Outcome S E F α} {e : E} {t : S'} (hr : r.Meets B BX fun _ => True) (ht : Z e t) :
      Trails R X B BX L Z r (.exit e t)

section Rules

variable {X : E → S → S' → Prop} {BX : E → S → Prop} {L : E → Prop} {Z : E → S' → Prop}

/-- The rule for continuing both outcomes. -/
theorem Trails.bind {R : α → S → S' → Prop} {R' : β → S → S' → Prop} {B : α → S → Prop}
    {B' : β → S → Prop} {r : Outcome S E F α} {r' : Outcome S' E F α}
    {f : α → S → Outcome S E F β} {f' : α → S' → Outcome S' E F β}
    (hr : Trails R X B BX L Z r r')
    (hf : ∀ a s t, R a s t → Trails R' X B' BX L Z (f a s) (f' a t))
    (hB : ∀ a s, B a s → (f a s).Meets B' BX fun _ => True) :
    Trails R' X B' BX L Z (r.bind f) (r'.bind f') := by
  cases hr with
  | ok hst => exact hf _ _ _ hst
  | exit hst => exact .exit hst
  | fault f r => exact .fault f _
  | failed s r he => exact .failed s _ he
  | bail hr ht => exact .bail (hr.bind hB) ht

theorem Trails.mono {R R' : α → S → S' → Prop} {B B' : α → S → Prop} {r : Outcome S E F α}
    {r' : Outcome S' E F α} (h : Trails R X B BX L Z r r') (hR : ∀ a s t, R a s t → R' a s t)
    (hB : ∀ a s, B a s → B' a s) : Trails R' X B' BX L Z r r' := by
  cases h with
  | ok hst => exact .ok (hR _ _ _ hst)
  | exit hst => exact .exit hst
  | fault f => exact .fault f _
  | failed s _ he => exact .failed s _ he
  | bail hr ht => exact .bail (hr.mono hB (fun _ _ => id) fun _ => id) ht

/-- The second run of a program follows the first one if the operations it is allowed to issue do,
and if the states `D` of a run whose follower has bailed out are kept by those operations. -/
theorem run_trails {A : Type w} {T : Transformer Op Res A} {h : Handler Op Res S E F}
    {h' : Handler Op Res S' E F} {R : A → S → S' → Prop} {D : A → S → Prop}
    (hstep : ∀ o a s t (Q : Res o → A → Prop), R a s t → T o a Q →
      Trails (fun r s' t' => ∃ a', R a' s' t' ∧ Q r a') X (fun r s' => ∃ a', D a' s' ∧ Q r a') BX L
        Z (h o s) (h' o t))
    (hB : ∀ o a s (Q : Res o → A → Prop), D a s → T o a Q →
      (h o s).Meets (fun r s' => ∃ a', D a' s' ∧ Q r a') BX fun _ => True)
    {p : Program Op Res α} {Q : α → A → Prop} {a : A} {s : S} {t : S'} (hR : R a s t)
    (hp : p.Sat T Q a) :
    Trails (fun r s' t' => ∃ a', R a' s' t' ∧ Q r a') X (fun r s' => ∃ a', D a' s' ∧ Q r a') BX L Z
      (run h p s) (run h' p t) := by
  induction p generalizing a s t with
  | done r => exact .ok ⟨a, hR, hp⟩
  | call o next ih =>
      refine (hstep o a s t _ hR hp).bind ?_ ?_
      · rintro r s' t' ⟨a', hR', hr⟩
        exact ih r hR' hr
      · rintro r s' ⟨a', hD, hr⟩
        exact run_meets hB hD hr

end Rules

end Trails

end Program

end Ivmone.Lib
