import Mathlib.Data.List.Forall2
import Mathlib.Tactic.TypeStar

/-!
# Nested spans and streams of their events

A span is opened with a value of `O`, things of `N` are noted in it, and it is closed with a value
of `C`; other spans may be opened and closed in between. `Spans` is the tree of what happens,
`Spans.events` the stream of events that is seen of it.

A machine that reads such a stream event by event, with some stack of its own, and writes something
of `W` at each of them, `Renders` a function of the tree if it meets a law for each kind of event.
`feed_span` is the result: over the events of a whole span the machine comes back to the state it
started in, and what it has written is the rendering of the span.
-/

set_option autoImplicit false

namespace Ivmone.Lib

universe u v w

section Trees

/-- An event of a stream. -/
inductive SpanEvent (O N C : Type*) where
  | opened (o : O)
  | noted (n : N)
  | closed (c : C)

/-- What happens in a span, in order: notes, and further spans with what happens in them. -/
inductive Spans (O N C : Type*) where
  | nil
  | note (n : N) (rest : Spans O N C)
  | span (o : O) (inner : Spans O N C) (c : C) (rest : Spans O N C)

variable {O N C W : Type*}

namespace Spans

/-- The stream of events. -/
def events : Spans O N C → List (SpanEvent O N C)
  | nil => []
  | note n rest => .noted n :: rest.events
  | span o inner c rest => .opened o :: (inner.events ++ .closed c :: rest.events)

/-- The notes, without those of inner spans. -/
def notes : Spans O N C → List N
  | nil => []
  | note n rest => n :: rest.notes
  | span _ _ _ rest => rest.notes

/-- One after the other. -/
def append : Spans O N C → Spans O N C → Spans O N C
  | nil, t => t
  | note n rest, t => note n (rest.append t)
  | span o inner c rest, t => span o inner c (rest.append t)

/-- The notes meet `here`, and those of inner spans are fit for the span they are in. -/
def Fit (fit : O → N → Prop) (here : N → Prop) : Spans O N C → Prop
  | nil => True
  | note n rest => here n ∧ rest.Fit fit here
  | span o inner _ rest => inner.Fit fit (fit o) ∧ rest.Fit fit here

/-- Whole spans only, with fit notes. -/
def Complete (fit : O → N → Prop) (t : Spans O N C) : Prop := t.Fit fit fun _ => False

variable {fit : O → N → Prop} {here : N → Prop}

theorem events_append (s t : Spans O N C) : (s.append t).events = s.events ++ t.events := by
  induction s with
  | nil => rfl
  | note n rest ih => exact congrArg (_ :: ·) ih
  | span o inner c rest _ ih =>
      show _ :: (inner.events ++ _ :: (rest.append t).events) = _
      rw [ih]
      simp [events]

theorem notes_append (s t : Spans O N C) : (s.append t).notes = s.notes ++ t.notes := by
  induction s with
  | nil => rfl
  | note n rest ih => exact congrArg (n :: ·) ih
  | span o inner c rest _ ih => exact ih

theorem Fit.append {s t : Spans O N C} (hs : s.Fit fit here) (ht : t.Fit fit here) :
    (s.append t).Fit fit here := by
  induction s with
  | nil => exact ht
  | note n rest ih => exact ⟨hs.1, ih hs.2⟩
  | span o inner c rest _ ih => exact ⟨hs.1, ih hs.2⟩

theorem Complete.notes {t : Spans O N C} (h : t.Complete fit) : t.notes = [] := by
  induction t with
  | nil => rfl
  | note n rest _ => exact h.1.elim
  | span o inner c rest _ ih => exact ih h.2

end Spans

/-- What is written at an event: when a span is opened, at a note in a span, and when a span with
the given notes is closed. -/
structure Rendering (O N C W : Type*) where
  opened : O → W
  noted : O → N → W
  closed : O → List N → C → W

/-- What is written about a tree, one piece for each event, if `here` is written for its notes. -/
def Spans.render (r : Rendering O N C W) (here : N → W) : Spans O N C → List W
  | nil => []
  | note n rest => here n :: rest.render r here
  | span o inner c rest =>
      r.opened o :: (inner.render r (r.noted o) ++ r.closed o inner.notes c :: rest.render r here)

/-- Several renderings side by side. -/
def Rendering.all {K : Type*} (r : K → Rendering O N C W) (ks : List K) :
    Rendering O N C (List W) where
  opened o := ks.map fun k => (r k).opened o
  noted o n := ks.map fun k => (r k).noted o n
  closed o ns c := ks.map fun k => (r k).closed o ns c

end Trees

section Machines

variable {O : Type u} {N : Type v} {C W : Type w} {S E K : Type*}

/-- Feeds a stream of events to a machine. -/
def feed (step : S → E → Option (S × W)) : S → List E → Option (S × List W)
  | s, [] => some (s, [])
  | s, e :: es =>
      (step s e).bind fun x => (feed step x.1 es).map fun y => (y.1, x.2 :: y.2)

section Feed

variable {step : S → E → Option (S × W)} {s t : S} {e : E} {es es' : List E} {x : W} {ws : List W}

theorem feed_cons (h : step s e = some (t, x)) :
    feed step s (e :: es) = (feed step t es).map fun y => (y.1, x :: y.2) := by
  rw [feed, h, Option.bind_some]

theorem feed_append (h : feed step s es = some (t, ws)) :
    feed step s (es ++ es') = (feed step t es').map fun y => (y.1, ws ++ y.2) := by
  induction es generalizing s ws with
  | nil =>
      injection h with h
      injection h with hs hws
      subst hs
      subst hws
      show feed step s es' = _
      cases feed step s es' <;> rfl
  | cons e es ih =>
      rw [feed, Option.bind_eq_some_iff] at h
      obtain ⟨x, hx, h⟩ := h
      rw [Option.map_eq_some_iff] at h
      obtain ⟨y, hy, h⟩ := h
      injection h with ht hws
      subst ht
      subst hws
      rw [List.cons_append, feed_cons hx, ih hy, Option.map_map]
      rfl

end Feed

/-- The laws of a machine that writes the rendering `r`. In a state that is `Proper` for it, a span
can be opened; `inside s o ns` is the state in a span `o` opened in `s`, after its notes `ns`. -/
structure Renders (step : S → SpanEvent O N C → Option (S × W)) (r : Rendering O N C W)
    (fit : O → N → Prop) (Proper : S → O → Prop) (inside : S → O → List N → S) : Prop where
  opened : ∀ s o, Proper s o → step s (.opened o) = some (inside s o [], r.opened o)
  nested : ∀ s o ns o', Proper s o → Proper (inside s o ns) o'
  noted : ∀ s o ns n, Proper s o → fit o n →
    step (inside s o ns) (.noted n) = some (inside s o (ns ++ [n]), r.noted o n)
  closed : ∀ s o ns c, Proper s o → step (inside s o ns) (.closed c) = some (s, r.closed o ns c)

namespace Renders

variable {step : S → SpanEvent O N C → Option (S × W)} {r : Rendering O N C W}
  {fit : O → N → Prop} {Proper : S → O → Prop} {inside : S → O → List N → S} {s : S} {o : O}

/-- The events in a span. -/
theorem feed_inside (h : Renders step r fit Proper inside) (t : Spans O N C) (hs : Proper s o)
    (ns : List N) (ht : t.Fit fit (fit o)) :
    feed step (inside s o ns) t.events =
      some (inside s o (ns ++ t.notes), t.render r (r.noted o)) := by
  induction t generalizing s o ns with
  | nil =>
      show some (inside s o ns, []) = some (inside s o (ns ++ []), [])
      rw [List.append_nil]
  | note n rest ih =>
      show feed step _ (.noted n :: rest.events) = _
      rw [feed_cons (h.noted s o ns n hs ht.1), ih hs _ ht.2, List.append_assoc]
      rfl
  | span o' inner c rest ihInner ihRest =>
      -- The inner span is opened on top of the state in this one, and closing it leads back there.
      have hnested := h.nested s o ns o' hs
      have hinner := ihInner hnested [] ht.1
      show feed step _ (.opened o' :: (inner.events ++ .closed c :: rest.events)) = _
      rw [feed_cons (h.opened _ o' hnested), feed_append hinner,
        feed_cons (h.closed _ o' _ c hnested), ihRest hs ns ht.2]
      rfl

/-- The events of a whole span. -/
theorem feed_span (h : Renders step r fit Proper inside) (hs : Proper s o) {inner : Spans O N C}
    (hinner : inner.Fit fit (fit o)) (c : C) (here : N → W) :
    feed step s (Spans.span o inner c .nil).events =
      some (s, (Spans.span o inner c .nil).render r here) := by
  show feed step s (.opened o :: (inner.events ++ [.closed c])) = _
  rw [feed_cons (h.opened s o hs), feed_append (h.feed_inside inner hs [] hinner),
    feed_cons (h.closed s o _ c hs)]
  rfl

end Renders

/-- Several machines that are given every event one after the other. -/
def stepAll (step : S → E → Option (S × W)) : List S → E → Option (List S × List W)
  | [], _ => some ([], [])
  | s :: ss, e =>
      (step s e).bind fun x => (stepAll step ss e).map fun y => (x.1 :: y.1, x.2 :: y.2)

theorem stepAll_cons {step : S → E → Option (S × W)} {s t : S} {ss ts : List S} {e : E} {x : W}
    {xs : List W} (h : step s e = some (t, x)) (hs : stepAll step ss e = some (ts, xs)) :
    stepAll step (s :: ss) e = some (t :: ts, x :: xs) := by
  rw [stepAll, h, Option.bind_some, hs]
  rfl

/-- Machines that render write their renderings side by side. -/
theorem Renders.all {step : S → SpanEvent O N C → Option (S × W)} {r : K → Rendering O N C W}
    {fit : O → N → Prop} {Proper : K → S → O → Prop} {inside : S → O → List N → S}
    (h : ∀ k, Renders step (r k) fit (Proper k) inside) (ks : List K) :
    Renders (stepAll step) (Rendering.all r ks) fit
      (fun ss o => List.Forall₂ (fun k s => Proper k s o) ks ss)
      (fun ss o ns => ss.map fun s => inside s o ns) where
  opened ss o hss := by
    induction hss with
    | nil => rfl
    | cons hs _ ih => exact stepAll_cons ((h _).opened _ o hs) ih
  nested ss o ns o' hss := by
    induction hss with
    | nil => exact .nil
    | cons hs _ ih => exact .cons ((h _).nested _ o ns o' hs) ih
  noted ss o ns n hss hn := by
    induction hss with
    | nil => rfl
    | cons hs _ ih => exact stepAll_cons ((h _).noted _ o ns n hs hn) ih
  closed ss o ns c hss := by
    induction hss with
    | nil => rfl
    | cons hs _ ih => exact stepAll_cons ((h _).closed _ o ns c hs) ih

end Machines

end Ivmone.Lib
