import Ivmone.Baseline

/-!
# The decoding of the code

Code is read from left to right; a PUSH instruction skips its data. `Arrives code i d` says that the
decoding from offset `i` arrives at offset `d`, and `decodeFrom` is the list of instructions that it
meets. Both analyses are described in these terms.
-/

set_option autoImplicit false

namespace Ivmone

/-! ## Bytes and opcodes -/

/-- The number of data bytes that follow an opcode. -/
def pushSize (b : Byte) : Nat :=
  match Opcode.ofByte b with
  | some (.push n) => n.val + 1
  | _ => 0

@[simp] theorem ofByte_toByte (op : Opcode) : Opcode.ofByte op.toByte = some op := by
  cases op with
  | push n => revert n; decide +kernel
  | dup n => revert n; decide +kernel
  | swap n => revert n; decide +kernel
  | log n => revert n; decide +kernel
  | _ => rfl

theorem toByte_of_ofByte {b : Byte} {op : Opcode} (h : Opcode.ofByte b = some op) :
    b = op.toByte := by
  have hall : ∀ n : Fin 256, ∀ op, Opcode.ofByte (BitVec.ofFin n) = some op →
      BitVec.ofFin n = op.toByte := by decide +kernel
  exact hall b.toFin op h

/-- As `OP_PUSH32` is the largest `int8_t`, a signed comparison finds the PUSH opcodes. -/
theorem push_le_toInt_iff (b : Byte) :
    ((Opcode.push 0).toNat : Int) ≤ b.toInt ↔ pushSize b ≠ 0 := by
  have hall : ∀ n : Fin 256,
      (((Opcode.push 0).toNat : Int) ≤ (BitVec.ofFin n : Byte).toInt ↔
        pushSize (BitVec.ofFin n) ≠ 0) := by decide +kernel
  exact hall b.toFin

theorem sub_eq_pushSize {b : Byte} (h : pushSize b ≠ 0) :
    b.toNat - ((Opcode.push 0).toNat - 1) = pushSize b := by
  have hall : ∀ n : Fin 256, pushSize (BitVec.ofFin n) ≠ 0 →
      (BitVec.ofFin n : Byte).toNat - ((Opcode.push 0).toNat - 1) = pushSize (BitVec.ofFin n) := by
    decide +kernel
  exact hall b.toFin h

theorem pushSize_eq {b : Byte} {n : Fin 32} (hop : Opcode.ofByte b = some (.push n)) :
    pushSize b = n.val + 1 := by
  unfold pushSize
  rw [hop]

theorem pushSize_of_ne_push {b : Byte} {op : Opcode} (h : Opcode.ofByte b = some op)
    (hop : ∀ n, op ≠ .push n) : pushSize b = 0 := by
  unfold pushSize
  rw [h]
  split
  · rename_i n heq
    injection heq with heq
    exact absurd heq (hop n)
  · rfl

/-! ## Offsets -/

/-- The decoding from offset `i` arrives at offset `d`. -/
inductive Arrives (code : List Byte) (i : Nat) : Nat → Prop
  | refl : Arrives code i i
  | next {d : Nat} {b : Byte} (h : Arrives code i d) (hb : code[d]? = some b) :
      Arrives code i (d + 1 + pushSize b)

/-- `d` is the start of an instruction of the code. -/
def IsStart (code : List Byte) (d : Nat) : Prop := Arrives code 0 d ∧ d < code.length

namespace Arrives

variable {code : List Byte} {i d : Nat}

theorem le (h : Arrives code i d) : i ≤ d := by
  induction h with
  | refl => exact le_rfl
  | next h hb ih => omega

theorem head {b : Byte} (hb : code[i]? = some b) (h : Arrives code (i + 1 + pushSize b) d) :
    Arrives code i d := by
  induction h with
  | refl => exact .next .refl hb
  | next h hb' ih => exact .next ih hb'

theorem eq_or_head (h : Arrives code i d) :
    d = i ∨ ∃ b, code[i]? = some b ∧ Arrives code (i + 1 + pushSize b) d := by
  induction h with
  | refl => exact .inl rfl
  | next h hb ih =>
      rcases ih with rfl | ⟨b, hb', h'⟩
      · exact .inr ⟨_, hb, .refl⟩
      · exact .inr ⟨b, hb', .next h' hb⟩

end Arrives

/-! ## Instructions -/

/-- An instruction of the code, with the push data that is present. -/
structure Decoded where
  offset : Nat
  opcode : Byte
  data : List Byte

/-- The instruction at an offset. -/
def instructionAt (code : List Byte) (offset : Nat) (opcode : Byte) : Decoded where
  offset := offset
  opcode := opcode
  data := (code.drop (offset + 1)).take (pushSize opcode)

/-- The instructions of the code from an offset on. -/
def decodeFrom (code : List Byte) (offset : Nat) : List Decoded :=
  if h : offset < code.length then
    instructionAt code offset code[offset] :: decodeFrom code (offset + 1 + pushSize code[offset])
  else []
termination_by code.length - offset

/-- The instructions of the code. -/
def decode (code : List Byte) : List Decoded := decodeFrom code 0

section Decode

variable {code : List Byte} {i d : Nat} {b : Byte}

theorem decodeFrom_of_some (hb : code[i]? = some b) :
    decodeFrom code i = instructionAt code i b :: decodeFrom code (i + 1 + pushSize b) := by
  obtain ⟨hlt, rfl⟩ := List.getElem?_eq_some_iff.1 hb
  rw [decodeFrom, dif_pos hlt]

theorem decodeFrom_of_le (h : code.length ≤ i) : decodeFrom code i = [] := by
  rw [decodeFrom, dif_neg (Nat.not_lt.2 h)]

/-- The first instruction from an offset on is the one at that offset. -/
theorem decodeFrom_eq_cons {x : Decoded} {xs : List Decoded} (h : decodeFrom code i = x :: xs) :
    ∃ b, code[i]? = some b ∧ x = instructionAt code i b ∧
      xs = decodeFrom code (i + 1 + pushSize b) := by
  by_cases hlt : i < code.length
  · have hb : code[i]? = some code[i] := List.getElem?_eq_getElem hlt
    rw [decodeFrom_of_some hb] at h
    injection h with h1 h2
    exact ⟨_, hb, h1.symm, h2.symm⟩
  · rw [decodeFrom_of_le (Nat.le_of_not_lt hlt)] at h
    cases h

theorem le_of_decodeFrom_eq_nil (h : decodeFrom code i = []) : code.length ≤ i := by
  by_contra hlt
  rw [decodeFrom_of_some (List.getElem?_eq_getElem (Nat.lt_of_not_le hlt))] at h
  cases h

/-- The instructions of the code are those at the offsets the decoding arrives at. -/
theorem mem_decodeFrom_iff {x : Decoded} :
    x ∈ decodeFrom code i ↔
      Arrives code i x.offset ∧ ∃ b, code[x.offset]? = some b ∧ x =
        instructionAt code x.offset b := by
  constructor
  · intro h
    fun_induction decodeFrom code i with
    | case1 i hlt ih =>
        have hb : code[i]? = some code[i] := List.getElem?_eq_getElem hlt
        rcases List.mem_cons.1 h with rfl | h
        · exact ⟨.refl, _, hb, rfl⟩
        · obtain ⟨h1, h2⟩ := ih h
          exact ⟨h1.head hb, h2⟩
    | case2 i hlt => cases h
  · rintro ⟨h, b, hb, hx⟩
    fun_induction decodeFrom code i with
    | case1 i hlt ih =>
        rcases h.eq_or_head with heq | ⟨b', hb', h'⟩
        · rw [heq, List.getElem?_eq_getElem hlt] at hb
          injection hb with hb
          have hhead : x = instructionAt code i code[i] := hx.trans (by rw [heq, hb])
          exact List.mem_cons.2 (.inl hhead)
        · rw [List.getElem?_eq_getElem hlt] at hb'
          injection hb' with hb'
          subst hb'
          exact List.mem_cons_of_mem _ (ih h')
    | case2 i hlt =>
        have hle := h.le
        obtain ⟨hlt', -⟩ := List.getElem?_eq_some_iff.1 hb
        omega

end Decode

/-! ## Code without PUSH instructions -/

/-- The instructions that bytes from an offset on are, one each. -/
def plainFrom : Nat → List Byte → List Decoded
  | _, [] => []
  | offset, b :: bytes => ⟨offset, b, []⟩ :: plainFrom (offset + 1) bytes

theorem plainFrom_append (offset : Nat) (xs ys : List Byte) :
    plainFrom offset (xs ++ ys) = plainFrom offset xs ++ plainFrom (offset + xs.length) ys := by
  induction xs generalizing offset with
  | nil => rfl
  | cons x xs ih =>
      rw [List.cons_append, plainFrom, plainFrom, ih, List.length_cons, List.cons_append,
        Nat.add_assoc, Nat.add_comm 1 xs.length]

theorem length_plainFrom (offset : Nat) (xs : List Byte) :
    (plainFrom offset xs).length = xs.length := by
  induction xs generalizing offset with
  | nil => rfl
  | cons x xs ih => rw [plainFrom, List.length_cons, ih, List.length_cons]

theorem opcode_mem_of_mem_plainFrom {offset : Nat} {xs : List Byte} {d : Decoded}
    (h : d ∈ plainFrom offset xs) : d.opcode ∈ xs := by
  induction xs generalizing offset with
  | nil => cases h
  | cons x xs ih =>
      rcases List.mem_cons.1 h with rfl | h
      · exact List.mem_cons_self
      · exact List.mem_cons_of_mem _ (ih h)

theorem decodeFrom_eq_plainFrom {code : List Byte} (h : ∀ b ∈ code, pushSize b = 0) (start : Nat) :
    decodeFrom code start = plainFrom start (code.drop start) := by
  induction hn : code.length - start using Nat.strong_induction_on generalizing start with
  | _ n ih =>
      subst hn
      by_cases hlt : start < code.length
      · have hb : code[start]? = some code[start] := List.getElem?_eq_getElem hlt
        have hsize : pushSize code[start] = 0 := h _ (List.getElem_mem hlt)
        rw [decodeFrom_of_some hb, hsize, Nat.add_zero,
          ih (code.length - (start + 1)) (by omega) (start + 1) rfl, List.drop_eq_getElem_cons hlt,
          plainFrom, instructionAt, hsize, List.take_zero]
      · rw [decodeFrom_of_le (Nat.le_of_not_lt hlt), List.drop_eq_nil_of_le (Nat.le_of_not_lt hlt),
          plainFrom]

end Ivmone
