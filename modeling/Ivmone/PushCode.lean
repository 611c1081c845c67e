import Ivmone.Fragments

/-!
# Push instructions of the builder

The overloads of `push` in `test/utils/bytecode.hpp` take bytes, a number, a word or an opcode with
its data. Each makes one PUSH instruction of the value it stands for (`IsPush`), the numbers and
words with as few bytes as possible.
-/

set_option autoImplicit false

namespace Ivmone

open Lib Baseline

/-- The code is one PUSH instruction, and its data has the given value. -/
def IsPush (code : Bytecode) (value : Nat) : Prop :=
  ∃ (n : Fin 32) (data : List Byte), code = (Opcode.push n).toByte :: data ∧
    data.length = n.val + 1 ∧ beValue 0 data = value

namespace IsPush

variable {code : Bytecode} {value : Nat}

theorem length (h : IsPush code value) : 2 ≤ code.length ∧ code.length ≤ 33 := by
  obtain ⟨n, data, rfl, hlength, -⟩ := h
  rw [List.length_cons, hlength]
  omega

end IsPush

/-! ## Bytes -/

namespace Bytecode

end Bytecode

end Ivmone
