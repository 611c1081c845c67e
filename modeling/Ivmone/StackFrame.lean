import Ivmone.State

/-!
# Items below the reach of an implementation

A state with more items at the bottom of its stack runs an implementation in the same way, as long
as the implementation stays within the items of the smaller stack.
-/

set_option autoImplicit false

namespace Ivmone

open Lib

variable {σ : Type}

/-- `s` is `t` with the items `deep` below its stack. -/
structure Over (deep : List UInt256) (s t : ExecutionState σ) : Prop where
  items : s.stack.items = t.stack.items ++ deep
  rest : s = { t with stack := s.stack }

/-- The outcomes of an implementation in two such states are the same, with the items `deep` in
their place. -/
inductive Framed {α : Type} (deep : List UInt256) : Result σ α → Result σ α → Prop
  | ok {x : α} {s t : ExecutionState σ} (h : Over deep s t) : Framed deep (.ok x s) (.ok x t)
  | exit {status : StatusCode} {s t : ExecutionState σ} (h : Over deep s t) :
      Framed deep (.exit status s) (.exit status t)
  | fault (f : Fault) : Framed deep (.fault f) (.fault f)

/-- A fault of a stack access. -/
def Outside {α : Type} (r : Result σ α) : Prop := r = .fault .stack

section Frame

variable {deep : List UInt256} {s t : ExecutionState σ}

theorem Over.setStack (h : Over deep s t) {stack stack' : Stack}
    (hitems : stack.items = stack'.items ++ deep) :
    Over deep { s with stack := stack } { t with stack := stack' } := by
  refine ⟨hitems, ?_⟩
  rw [h.rest]

/-- The outcome with another stack in its state. -/
def withStack {α : Type} (stack : Stack) : Result σ α → Result σ α
  | .ok x s => .ok x { s with stack := stack }
  | .exit status s => .exit status { s with stack := stack }
  | .fault f => .fault f

/-- The outcome has left the stack as it was. -/
def KeepsStack {α : Type} (stack : Stack) : Result σ α → Prop :=
  Outcome.Meets (fun _ s => s.stack = stack) (fun _ s => s.stack = stack) fun _ => True

theorem framed_withStack {α : Type} {r : Result σ α} {stack stack' : Stack}
    (hitems : stack.items = stack'.items ++ deep) (hr : KeepsStack stack' r) :
    Framed deep (withStack stack r) r := by
  cases r with
  | ok x s =>
      refine .ok ⟨?_, rfl⟩
      rw [show s.stack = stack' from hr]
      exact hitems
  | exit status s =>
      refine .exit ⟨?_, rfl⟩
      rw [show s.stack = stack' from hr]
      exact hitems
  | fault f => exact .fault f

theorem growMemory_withStack (alloc : Allocator) (t : ExecutionState σ) (stack : Stack)
    (newSize : Nat) :
    ({ t with stack := stack } : ExecutionState σ).growMemory alloc newSize =
        withStack stack (t.growMemory alloc newSize) ∧
      KeepsStack t.stack (t.growMemory alloc newSize) := by
  unfold ExecutionState.growMemory ExecutionState.setGas ExecutionState.noteInt64
  dsimp only
  split
  · exact ⟨rfl, rfl⟩
  · split
    · exact ⟨rfl, rfl⟩
    · exact ⟨rfl, trivial⟩

theorem checkMemory_withStack (alloc : Allocator) (t : ExecutionState σ) (stack : Stack)
    (offset : UInt256) (size : MemorySize) :
    ({ t with stack := stack } : ExecutionState σ).checkMemory alloc offset size =
        withStack stack (t.checkMemory alloc offset size) ∧
      KeepsStack t.stack (t.checkMemory alloc offset size) := by
  have h64 : ∀ size,
      ({ t with stack := stack } : ExecutionState σ).checkMemory64 alloc offset size =
          withStack stack (t.checkMemory64 alloc offset size) ∧
        KeepsStack t.stack (t.checkMemory64 alloc offset size) := by
    intro size
    unfold ExecutionState.checkMemory64
    split
    · exact ⟨rfl, rfl⟩
    · dsimp only
      split
      · exact growMemory_withStack alloc t stack _
      · exact ⟨rfl, rfl⟩
  cases size with
  | u64 size => exact h64 size
  | u256 size =>
      unfold ExecutionState.checkMemory ExecutionState.checkMemory256
      dsimp only
      split
      · exact ⟨rfl, rfl⟩
      · split
        · exact ⟨rfl, rfl⟩
        · exact h64 _

/-- The operations that are not about the stack. -/
theorem handle_withStack (env : Env σ) (o : Op) (t : ExecutionState σ) (stack : Stack)
    (hpop : o ≠ .pop) (hpush : ∀ item, o ≠ .push item) (hpeek : ∀ index, o ≠ .peek index)
    (hpoke : ∀ index item, o ≠ .poke index item) :
    handle env o { t with stack := stack } = withStack stack (handle env o t) ∧
      KeepsStack t.stack (handle env o t) := by
  cases o with
  | pop => exact absurd rfl hpop
  | push item => exact absurd rfl (hpush item)
  | peek index => exact absurd rfl (hpeek index)
  | poke index item => exact absurd rfl (hpoke index item)
  | charge cost =>
      unfold handle ExecutionState.setGas ExecutionState.noteInt64
      dsimp only
      split
      · exact ⟨rfl, rfl⟩
      · exact ⟨rfl, rfl⟩
  | checkMemory offset size =>
      obtain ⟨heq, hkeeps⟩ := checkMemory_withStack env.alloc t stack offset size
      simp only [handle, heq]
      generalize t.checkMemory env.alloc offset size = r at hkeeps
      cases r with
      | ok passed s =>
          have hstack : s.stack = t.stack := hkeeps
          cases passed with
          | true => exact ⟨rfl, hstack⟩
          | false => exact ⟨rfl, hstack⟩
      | exit status s => exact ⟨rfl, hkeeps⟩
      | fault f => exact ⟨rfl, trivial⟩
  | load offset length =>
      unfold handle
      dsimp only
      split
      · exact ⟨rfl, rfl⟩
      · exact ⟨rfl, trivial⟩
  | store offset bytes =>
      unfold handle
      dsimp only
      split
      · exact ⟨rfl, rfl⟩
      · exact ⟨rfl, trivial⟩
  | fault f => exact ⟨rfl, trivial⟩
  | _ => exact ⟨rfl, rfl⟩

/-- An operation on two such states: it reaches below the items of the smaller stack, it leaves the
storage of the larger one, or its outcomes are the same. -/
theorem handle_framed (env : Env σ) (o : Op) (h : Over deep s t) :
    Framed deep (handle env o s) (handle env o t) ∨ Outside (handle env o t) ∨
      Outside (handle env o s) := by
  have hheight : s.stack.height = t.stack.height + deep.length := by
    rw [← Stack.length_items s.stack, h.items, List.length_append, Stack.length_items]
  -- only four operations look at the stack at all
  have hother : o ≠ .pop → (∀ item, o ≠ .push item) → (∀ index, o ≠ .peek index) →
      (∀ index item, o ≠ .poke index item) → Framed deep (handle env o s) (handle env o t) := by
    intro hpop hpush hpeek hpoke
    obtain ⟨heq, hkeeps⟩ := handle_withStack env o t s.stack hpop hpush hpeek hpoke
    rw [← h.rest] at heq
    rw [heq]
    exact framed_withStack h.items hkeeps
  cases o with
  | pop =>
      -- with nothing of its own left the shorter stack stops; the longer one would go on
      by_cases hpos : 0 < t.stack.height
      · obtain ⟨x, stack, hpop, hitems⟩ := Stack.pop?_of_pos (show 0 < s.stack.height by omega)
        obtain ⟨y, stack', hpop', hitems'⟩ := Stack.pop?_of_pos hpos
        have heq := h.items
        rw [hitems, hitems', List.cons_append] at heq
        injection heq with hxy hrest
        subst hxy
        simp only [handle, hpop, hpop']
        exact .inl (.ok (h.setStack hrest))
      · simp only [handle, Stack.pop?_of_not_pos hpos]
        exact .inr (.inl rfl)
  | push item =>
      -- here it is the longer stack that stops first
      by_cases hlt : s.stack.height < Stack.limit
      · obtain ⟨stack, hpush, hitems⟩ := Stack.push?_of_lt hlt item
        obtain ⟨stack', hpush', hitems'⟩ :=
          Stack.push?_of_lt (show t.stack.height < Stack.limit by omega) item
        simp only [handle, hpush, hpush']
        refine .inl (.ok (h.setStack ?_))
        rw [hitems, hitems', h.items, List.cons_append]
      · simp only [handle, Stack.push?_of_not_lt hlt]
        exact .inr (.inr rfl)
  | peek index =>
      by_cases hlt : index < t.stack.height
      · have hget : s.stack.get? index = t.stack.get? index := by
          rw [Stack.get?_eq, Stack.get?_eq, h.items,
            List.getElem?_append_left (by rw [Stack.length_items]; exact hlt)]
        obtain ⟨item, hitem⟩ : ∃ item, t.stack.get? index = some item :=
          ⟨_, by rw [Stack.get?_eq, List.getElem?_eq_getElem (by simpa using hlt)]⟩
        simp only [handle, hget, hitem]
        exact .inl (.ok h)
      · have hget : t.stack.get? index = none := if_neg hlt
        simp only [handle, hget]
        exact .inr (.inl rfl)
  | poke index item =>
      by_cases hlt : index < t.stack.height
      · obtain ⟨stack, hset, hitems⟩ := Stack.set?_of_lt (show index < s.stack.height by omega) item
        obtain ⟨stack', hset', hitems'⟩ := Stack.set?_of_lt hlt item
        simp only [handle, hset, hset']
        refine .inl (.ok (h.setStack ?_))
        rw [hitems, hitems', h.items, List.set_append_left _ _
          (by rw [Stack.length_items]; exact hlt)]
      · simp only [handle, Stack.set?_of_not_lt hlt]
        exact .inr (.inl rfl)
  | _ => exact .inl (hother (by simp) (by simp) (by simp) (by simp))

/-- Any implementation in two such states. -/
theorem run_framed (env : Env σ) {α : Type} (p : Exec α) (h : Over deep s t)
    (ht : ¬ Outside (p.run env t)) (hs : ¬ Outside (p.run env s)) :
    Framed deep (p.run env s) (p.run env t) := by
  induction p generalizing s t with
  | done x => exact .ok h
  | call o next ih =>
      have hop := handle_framed env o h
      have hrun : ∀ s : ExecutionState σ, Exec.run env (.call o next) s =
          (handle env o s).bind fun r s' => Exec.run env (next r) s' := fun s => rfl
      simp only [hrun] at ht hs ⊢
      rcases hop with hop | hout | hout
      · generalize handle env o s = x at hop hs ⊢
        generalize handle env o t = y at hop ht ⊢
        cases hop with
        | ok h' => exact ih _ h' ht hs
        | exit h' => exact .exit h'
        | fault f => exact .fault f
      · rw [show handle env o t = .fault .stack from hout] at ht
        exact absurd rfl ht
      · rw [show handle env o s = .fault .stack from hout] at hs
        exact absurd rfl hs

end Frame

end Ivmone
