import Ivmone.CopyWindows

/-!
# The hand-written word operations

SIGNEXTEND, BYTE and SAR are written with masks, 64-bit words of the operand and truncated counts.
Here are their definitions on integers. The implementations compute these for all operands: where a
truncated count is wrong, a separate test has put a neutral mask in its place.
-/

set_option autoImplicit false

namespace Ivmone

open Lib Lib.Program Instructions

/-! ## Integer definitions -/

/-- The two's-complement extension of the lowest `8 * (ext + 1)` bits of `x`. -/
def signExtended (ext x : UInt256) : UInt256 :=
  if ext.toNat < 31 then BitVec.ofInt 256 ((x.toNat : Int).bmod (2 ^ (8 * (ext.toNat + 1)))) else x

/-- The byte of `x` at position `n`, counted from the highest byte. -/
def byteAt (n x : UInt256) : UInt256 :=
  if n.toNat < 32 then BitVec.ofNat 256 (x.toNat / 256 ^ (31 - n.toNat) % 256) else 0

/-- The signed value of `x` divided by `2 ^ y` and rounded down. -/
def dividedDown (y x : UInt256) : UInt256 := BitVec.ofInt 256 (x.toInt.fdiv (2 ^ y.toNat))

/-! ## SIGNEXTEND -/

theorem getLsbD_twoPow_sub_one {n : Nat} (hn : n < 256) (k : Nat) :
    (BitVec.twoPow 256 n - 1).getLsbD k = decide (k < n) := by
  have hpow : 2 ^ n < 2 ^ 256 := Nat.pow_lt_pow_right (by norm_num) hn
  have hpos : 0 < 2 ^ n := Nat.two_pow_pos n
  have htoNat : (BitVec.twoPow 256 n - 1).toNat = 2 ^ n - 1 := by
    rw [BitVec.toNat_sub, BitVec.toNat_twoPow, Nat.mod_eq_of_lt hpow]
    simp
    omega
  rw [← BitVec.testBit_toNat, htoNat, Nat.testBit_two_pow_sub_one]

/-- The two masks select the bits below the sign bit, and repeat the sign bit above. -/
theorem masked_eq_signExtend (x : UInt256) {bit : Nat} (hbit : bit < 256) :
    (if (x &&& BitVec.twoPow 256 bit) ≠ 0 then x ||| ~~~(BitVec.twoPow 256 bit - 1)
      else x &&& (BitVec.twoPow 256 bit - 1)) = (x.setWidth (bit + 1)).signExtend 256 := by
  have hne : BitVec.twoPow 256 bit ≠ 0 := by
    intro h
    have hget := congrArg (fun v => v.getLsbD bit) h
    simp [hbit] at hget
  have hmsb : (x.setWidth (bit + 1)).msb = x.getLsbD bit := by
    rw [BitVec.msb_setWidth]
    simp
  apply BitVec.eq_of_getLsbD_eq
  intro k hk
  rw [BitVec.getLsbD_signExtend, hmsb, BitVec.getLsbD_setWidth, BitVec.and_twoPow]
  rw [decide_eq_true hk, Bool.true_and]
  cases hx : x.getLsbD bit with
  | true =>
      rw [if_pos rfl, if_pos hne, BitVec.getLsbD_or, BitVec.getLsbD_not,
        getLsbD_twoPow_sub_one hbit]
      by_cases hle : k < bit + 1
      · rw [if_pos hle, decide_eq_true hle, Bool.true_and]
        -- At the sign bit itself both sides are set.
        rcases Nat.lt_succ_iff_lt_or_eq.1 hle with hlt | rfl
        · simp [hlt]
        · simp [hx]
      · rw [if_neg hle]
        have hge : ¬ k < bit := by omega
        simp [hk, hge]
  | false =>
      rw [if_neg Bool.false_ne_true, if_neg (fun h => h rfl), BitVec.getLsbD_and,
        getLsbD_twoPow_sub_one hbit]
      by_cases hle : k < bit + 1
      · rw [if_pos hle, decide_eq_true hle, Bool.true_and]
        rcases Nat.lt_succ_iff_lt_or_eq.1 hle with hlt | rfl
        · simp [hlt]
        · simp [hx]
      · rw [if_neg hle]
        have hge : ¬ k < bit := by omega
        simp [hge]

theorem ofInt_bmod_eq_signExtend (x : UInt256) (width : Nat) :
    BitVec.ofInt 256 ((x.toNat : Int).bmod (2 ^ width)) = (x.setWidth width).signExtend 256 := by
  rw [BitVec.signExtend, BitVec.toInt_setWidth]

/-! ## BYTE -/

/-- The byte of a 64-bit word of `x` is a byte of `x`. -/
theorem byte_of_word (x : UInt256) (index : Nat) :
    (((x.word (index / 8)) >>> (index % 8 * 8)) &&& (0xff : BitVec 64)).setWidth 256 =
      BitVec.ofNat 256 (x.toNat / 256 ^ index % 256) := by
  have hpow : (256 : Nat) ^ index = 2 ^ (8 * index) := by
    rw [Nat.pow_mul]
  have hff : (0xff : BitVec 64) = BitVec.ofNat 64 (2 ^ 8 - 1) := rfl
  have hmod : ∀ n k : Nat, (n % 256).testBit k = (decide (k < 8) && n.testBit k) := fun n k =>
    Nat.testBit_mod_two_pow n 8 k
  apply BitVec.eq_of_getLsbD_eq
  intro k hk
  rw [BitVec.getLsbD_setWidth, BitVec.getLsbD_and, BitVec.getLsbD_ushiftRight, UInt256.word,
    BitVec.getLsbD_setWidth, BitVec.getLsbD_ushiftRight, BitVec.getLsbD_ofNat, hff,
    BitVec.getLsbD_ofNat, Nat.testBit_two_pow_sub_one, hpow, hmod, Nat.testBit_div_two_pow,
    BitVec.testBit_toNat]
  by_cases h8 : k < 8
  · -- The byte does not reach beyond the 64-bit word.
    have hlt : index % 8 * 8 + k < 64 := by omega
    have hbit : 64 * (index / 8) + (index % 8 * 8 + k) = k + 8 * index := by omega
    simp [h8, hk, hlt, hbit]
    omega
  · simp [h8]

/-! ## SAR -/

theorem word_neg_iff (x : UInt256) : (x.word 3).toInt < 0 ↔ x.msb = true := by
  have h := BitVec.msb_eq_toInt (x := x.word 3)
  rw [← decide_eq_true_iff (p := (x.word 3).toInt < 0), ← h]
  simp [UInt256.word, BitVec.msb_eq_getLsbD_last]

theorem getLsbD_ones {k : Nat} (hk : k < 256) : (~~~(0 : UInt256)).getLsbD k = true := by
  rw [BitVec.getLsbD_not, decide_eq_true hk]
  simp

/-- A shift of the mask of ones by the rest of the width puts the sign above the shifted bits. -/
theorem sign_mask_eq_sshiftRight (x : UInt256) {count : Nat} (hcount : count < 256) :
    (x >>> count ||| (if x.msb = true then ~~~(0 : UInt256) else 0).shl
      (BitVec.ofNat 256 (256 - count))) = x.sshiftRight count := by
  have hshift : (BitVec.ofNat 256 (256 - count)).toNat = 256 - count := by
    rw [BitVec.toNat_ofNat]
    exact Nat.mod_eq_of_lt (by omega)
  apply BitVec.eq_of_getLsbD_eq
  intro k hk
  rw [BitVec.getLsbD_sshiftRight, BitVec.getLsbD_or, BitVec.getLsbD_ushiftRight,
    UInt256.shl, hshift]
  rw [decide_eq_false (Nat.not_le.2 hk), Bool.not_false, Bool.true_and]
  by_cases hin : count + k < 256
  · rw [if_pos hin]
    have hbelow : k < 256 - count := by omega
    -- Below the mask only the shifted bits count.
    split
    · rw [BitVec.getLsbD_shiftLeft]
      simp [hbelow]
    · simp
  · rw [if_neg hin]
    have hout : x.getLsbD (count + k) = false := BitVec.getLsbD_of_ge x _ (Nat.not_lt.1 hin)
    have hpos : 256 - count < 256 := by omega
    have habove : ¬ k < 256 - count := by omega
    rw [hout, Bool.false_or, if_pos hpos, BitVec.getLsbD_shiftLeft]
    cases hmsb : x.msb with
    | true =>
        rw [if_pos rfl, decide_eq_true hk, decide_eq_false habove, getLsbD_ones (by omega)]
        rfl
    | false => simp

/-- A shift of a signed word by its whole width leaves its sign. -/
theorem sshiftRight_of_le (x : UInt256) {count : Nat} (hcount : 256 ≤ count) :
    x.sshiftRight count = if x.msb = true then ~~~0 else 0 := by
  apply BitVec.eq_of_getLsbD_eq
  intro k hk
  rw [BitVec.getLsbD_sshiftRight, decide_eq_false (Nat.not_le.2 hk), Bool.not_false, Bool.true_and,
    if_neg (by omega)]
  cases x.msb with
  | true => exact (getLsbD_ones hk).symm
  | false => simp

theorem dividedDown_eq (y x : UInt256) : dividedDown y x = x.sshiftRight y.toNat := by
  unfold dividedDown
  rw [Int.fdiv_eq_ediv_of_nonneg _ (by positivity), BitVec.sshiftRight, Int.shiftRight_eq_div_pow]
  push_cast
  rfl

/-! ## The instructions -/

/-- The function of SIGNEXTEND. -/
theorem signextend_function (ext x : UInt256) :
    (if ext < 31 then
      if (x &&& (1 : UInt256) <<< (ext.toNat * 8 + 7)) ≠ 0 then
        x ||| ~~~((1 : UInt256) <<< (ext.toNat * 8 + 7) - 1)
      else x &&& ((1 : UInt256) <<< (ext.toNat * 8 + 7) - 1)
    else x) = signExtended ext x := by
  unfold signExtended
  by_cases hext : ext.toNat < 31
  · have hlt : ext < 31 := hext
    have hwidth : ext.toNat * 8 + 7 + 1 = 8 * (ext.toNat + 1) := by omega
    rw [if_pos hlt, if_pos hext, ofInt_bmod_eq_signExtend, ← hwidth]
    exact masked_eq_signExtend x (by omega)
  · have hge : ¬ ext < 31 := hext
    rw [if_neg hge, if_neg hext]

theorem toNat_word_zero (x : UInt256) : (x.word 0).toNat = x.toNat % 2 ^ 64 := by
  simp [UInt256.word]

/-- The function of BYTE. -/
theorem byte_function (n x : UInt256) :
    ((x.word ((31 - (n.word 0).toNat % 32) / 8) >>> ((31 - (n.word 0).toNat % 32) % 8 * 8)) &&&
      (if n < 32 then 0xff else 0 : BitVec 64)).setWidth 256 = byteAt n x := by
  unfold byteAt
  by_cases hn : n.toNat < 32
  · have hlt : n < 32 := hn
    have hindex : 31 - (n.word 0).toNat % 32 = 31 - n.toNat := by
      rw [toNat_word_zero]
      omega
    rw [if_pos hlt, if_pos hn, hindex]
    exact byte_of_word x _
  · -- The index is that of some byte, but nothing is left of it.
    have hge : ¬ n < 32 := hn
    rw [if_neg hge, if_neg hn]
    simp

/-- The function of SAR. -/
theorem sar_function (y x : UInt256) :
    (x.shr y ||| (if (x.word 3).toInt < 0 then ~~~0 else 0 : UInt256).shl
      (if y < 256 then UInt256.ofSize (256 - (y.word 0).toNat) else 0)) = dividedDown y x := by
  rw [dividedDown_eq]
  simp only [word_neg_iff]
  by_cases hy : y.toNat < 256
  · have hlt : y < 256 := hy
    have hword : (y.word 0).toNat = y.toNat := by
      rw [toNat_word_zero]
      omega
    have hsize : UInt256.ofSize (256 - y.toNat) = BitVec.ofNat 256 (256 - y.toNat) := by
      unfold UInt256.ofSize
      rw [Nat.mod_eq_of_lt (by omega)]
    rw [if_pos hlt, hword, hsize, UInt256.shr, if_pos hy]
    exact sign_mask_eq_sshiftRight x hy
  · -- The count is not truncated here: the whole word is the mask.
    have hge : ¬ y < 256 := hy
    rw [if_neg hge, UInt256.shr, if_neg hy, sshiftRight_of_le x (Nat.not_lt.1 hy)]
    simp [UInt256.shl]

variable {σ : Type}

/-- The run of an instruction that replaces the two top items. -/
theorem run_popIntoTop (env : Env σ) (f : UInt256 → UInt256 → UInt256) {s : ExecutionState σ}
    {x y : UInt256} {rest : List UInt256} (hitems : s.stack.items = x :: y :: rest) :
    ∃ stack, (popIntoTop f).run env s = .ok () { s with stack := stack } ∧
      stack.items = f x y :: rest := by
  have hpos : 0 < s.stack.height := by
    rw [← Stack.length_items, hitems]
    exact Nat.succ_pos _
  obtain ⟨item, stack, hpop, hcons⟩ := Stack.pop?_of_pos hpos
  rw [hitems] at hcons
  injection hcons with hx hstack
  subst hx
  have hget : stack.get? 0 = some y := by
    rw [Stack.get?_eq, ← hstack]
    rfl
  have hheight : 0 < stack.height := by
    rw [← Stack.length_items, ← hstack]
    exact Nat.succ_pos _
  obtain ⟨stack', hset, hitems'⟩ := Stack.set?_of_lt hheight (f x y)
  refine ⟨stack', ?_, ?_⟩
  · show (handle env .pop s).bind _ = _
    simp only [handle, hpop]
    show (handle env (.peek 0) { s with stack := stack }).bind _ = _
    simp only [handle, hget]
    show (handle env (.poke 0 (f x y)) { s with stack := stack }).bind _ = _
    simp only [handle, hset]
    rfl
  · rw [hitems', ← hstack]
    rfl

/-- SIGNEXTEND, BYTE and SAR compute their integer definitions for all operands. A signed shift by
the width or more gives 0 or all ones. -/
theorem word_operations_exact (env : Env σ) (ctx : Context) (s : ExecutionState σ)
    (a x : UInt256) (rest : List UInt256) (hitems : s.stack.items = a :: x :: rest) :
    (∃ stack, (signextend ctx).run env s = .ok () { s with stack := stack } ∧
      stack.items = signExtended a x :: rest) ∧
    (∃ stack, (byte ctx).run env s = .ok () { s with stack := stack } ∧
      stack.items = byteAt a x :: rest) ∧
    (∃ stack, (sar ctx).run env s = .ok () { s with stack := stack } ∧
      stack.items = dividedDown a x :: rest) ∧
    (256 ≤ a.toNat → dividedDown a x = if x.toInt < 0 then ~~~0 else 0) := by
  refine ⟨?_, ?_, ?_, ?_⟩
  · obtain ⟨stack, hrun, hstack⟩ := run_popIntoTop env _ hitems
    exact ⟨stack, hrun, hstack.trans (congrArg (· :: rest) (signextend_function a x))⟩
  · obtain ⟨stack, hrun, hstack⟩ := run_popIntoTop env _ hitems
    exact ⟨stack, hrun, hstack.trans (congrArg (· :: rest) (byte_function a x))⟩
  · obtain ⟨stack, hrun, hstack⟩ := run_popIntoTop env _ hitems
    exact ⟨stack, hrun, hstack.trans (congrArg (· :: rest) (sar_function a x))⟩
  · intro hwide
    rw [dividedDown_eq, sshiftRight_of_le x hwide, BitVec.msb_eq_toInt]
    simp only [decide_eq_true_eq]

/-- A stack with the operands 0 and 0x80. -/
def twoOperands : ExecutionState Unit :=
  { truncatedPush.newState with
    stack := ⟨0x80 :: 0 :: List.replicate 1022 0, 2,
      by rw [List.length_cons, List.length_cons, List.length_replicate], by norm_num⟩ }

theorem word_operations_exact_twoOperands :
    twoOperands.stack.items = [0, 0x80] ∧
      ∃ stack, (signextend truncatedPush.ctx).run truncatedPush.env twoOperands =
          .ok () { twoOperands with stack := stack } ∧
        stack.items = [signExtended 0 0x80] :=
  ⟨rfl, (word_operations_exact truncatedPush.env truncatedPush.ctx twoOperands 0 0x80 [] rfl).1⟩

example : signExtended 0 0x80 = BitVec.ofInt 256 (-128) := by decide

end Ivmone
