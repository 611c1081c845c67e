import Ivmone.Lib.Footprint
import Ivmone.Lib.Runs

/-!
# Replaying a run

A program asks an oracle, whose state is a part of its own, and what it is told is written down in a
log. Under another oracle, which gives the answers of the log, the program does the same.

`Replay` relates the two sides: the other state has an oracle state in the place of the first one, a
log leads from one oracle state to another, and a log is what has been written down between two
states. If the operations of a program can be replayed, so can the program (`run_replays`); if the
steps of a run can be, so can the run (`after_replays`).
-/

set_option autoImplicit false

namespace Ivmone.Lib

universe u v w

/-- States `S`, and states `S'` with an oracle state of `W` in place of their own. -/
structure Replay (S S' W L : Type*) where
  place : S → W → S'
  /-- The oracle gives the answers of the log, from one of its states to another. -/
  path : List L → W → W → Prop
  /-- The log has been written down between the two states. -/
  grows : S → List L → S → Prop
  path_nil : ∀ {w w'}, path [] w w' → w' = w
  path_append : ∀ {x y w w''}, path (x ++ y) w w'' → ∃ w', path x w w' ∧ path y w' w''
  grows_nil : ∀ s, grows s [] s
  grows_append : ∀ {s t u x y}, grows s x t → grows t y u → grows s (x ++ y) u

variable {S S' W L : Type w} {E F : Type w}

/-- Changes the state of an outcome. -/
def Outcome.mapState {α : Type*} (f : S → S') : Outcome S E F α → Outcome S' E F α
  | .ok a s => .ok a (f s)
  | .exit e s => .exit e (f s)
  | .fault x => .fault x

namespace Replay

/-! ## Programs -/

section Programs

variable {Op : Type u} {Res : Op → Type v} {α β : Type v}

/-- What has an outcome in `s` can be replayed with the log. -/
def Outcomes (R : Replay S S' W L) (log : List L) (s : S) (r : Outcome S E F α)
    (f' : S' → Outcome S' E F α) : Prop :=
  r.Meets (fun _ t => R.grows s log t) (fun _ t => R.grows s log t) (fun _ => True) ∧
    ∀ w w', R.path log w w' → f' (R.place s w) = r.mapState fun t => R.place t w'

theorem Outcomes.bind {R : Replay S S' W L} {log : List L} {s : S} {r : Outcome S E F α}
    {f' : S' → Outcome S' E F α} (h : R.Outcomes log s r f') {g : α → S → Outcome S E F β}
    {g' : α → S' → Outcome S' E F β} (hg : ∀ a t, ∃ log', R.Outcomes log' t (g a t) (g' a)) :
    ∃ log', R.Outcomes log' s (r.bind g) fun s' => (f' s').bind g' := by
  obtain ⟨hgrows, hreplay⟩ := h
  cases r with
  | ok a t =>
      obtain ⟨log', hgrows', hreplay'⟩ := hg a t
      refine ⟨log ++ log', hgrows'.mono ?_ ?_ fun _ => id, ?_⟩
      · exact fun _ _ => R.grows_append hgrows
      · exact fun _ _ => R.grows_append hgrows
      · intro w w'' hpath
        obtain ⟨w', hpath1, hpath2⟩ := R.path_append hpath
        show (f' (R.place s w)).bind g' = _
        rw [hreplay w w' hpath1]
        exact hreplay' w' w'' hpath2
  | exit e t =>
      refine ⟨log, hgrows, fun w w' hpath => ?_⟩
      show (f' (R.place s w)).bind g' = _
      rw [hreplay w w' hpath]
      rfl
  | fault x =>
      refine ⟨log, trivial, fun w w' hpath => ?_⟩
      show (f' (R.place s w)).bind g' = _
      rw [hreplay w w' hpath]
      rfl

/-- A program can be replayed if its operations can be. -/
theorem run_replays (R : Replay S S' W L) {h : Handler Op Res S E F} {h' : Handler Op Res S' E F}
    (hop : ∀ o s, ∃ log, R.Outcomes log s (h o s) (h' o)) (p : Program Op Res α) (s : S) :
    ∃ log, R.Outcomes log s (p.run h s) (p.run h') := by
  induction p generalizing s with
  | done a =>
      refine ⟨[], R.grows_nil s, fun w w' hpath => ?_⟩
      rw [R.path_nil hpath]
      rfl
  | call o next ih =>
      obtain ⟨log, hlog⟩ := hop o s
      exact hlog.bind ih

end Programs

/-! ## Runs -/

variable {f : S → Option S} {f' : S' → Option S'}

/-- A run can be replayed if its steps can be. -/
theorem after_replays (R : Replay S S' W L) (hend : ∀ a w, f a = none → f' (R.place a w) = none)
    (hstep : ∀ a b, f a = some b → ∃ log, R.grows a log b ∧
      ∀ w w', R.path log w w' → f' (R.place a w) = some (R.place b w')) (a : S) (n : Nat) :
    ∃ log, R.grows a log (after f a n) ∧
      ∀ w w', R.path log w w' → after f' (R.place a w) n = R.place (after f a n) w' := by
  induction n with
  | zero =>
      refine ⟨[], R.grows_nil a, fun w w' hpath => ?_⟩
      rw [R.path_nil hpath]
      rfl
  | succ n ih =>
      obtain ⟨log, hgrows, hreplay⟩ := ih
      cases hnext : f (after f a n) with
      | none =>
          rw [after_succ_of_none hnext]
          refine ⟨log, hgrows, fun w w' hpath => ?_⟩
          rw [← hreplay w w' hpath]
          apply after_succ_of_none
          rw [hreplay w w' hpath]
          exact hend _ w' hnext
      | some b =>
          rw [after_succ_of_some hnext]
          obtain ⟨log', hgrows', hreplay'⟩ := hstep _ b hnext
          refine ⟨log ++ log', R.grows_append hgrows hgrows', fun w w'' hpath => ?_⟩
          obtain ⟨w', hpath1, hpath2⟩ := R.path_append hpath
          apply after_succ_of_some
          rw [hreplay w w' hpath1]
          exact hreplay' w' w'' hpath2

end Replay

end Ivmone.Lib
