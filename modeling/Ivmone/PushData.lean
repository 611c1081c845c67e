import Ivmone.PaddedCode
import Ivmone.Blocks

/-!
# The values of PUSH instructions

Baseline loads the data of a PUSH from the padded code when it executes the instruction. Advanced
builds the value byte by byte when it analyses the code. The values are the same if all of the data
is in the code; if some of it is missing, the PUSH is the last instruction.
-/

set_option autoImplicit false

namespace Ivmone

/-- The big-endian value of bytes that follow others of the value `acc`. -/
def beValue (acc : Nat) (bytes : List Byte) : Nat :=
  bytes.foldl (fun acc b => acc * 256 + b.toNat) acc

theorem beValue_cons (acc : Nat) (b : Byte) (bytes : List Byte) :
    beValue acc (b :: bytes) = beValue (acc * 256 + b.toNat) bytes := rfl

/-- Sequences of bytes of the same length stand for different numbers. -/
theorem beValue_injective {acc acc' : Nat} {bytes bytes' : List Byte}
    (hlength : bytes.length = bytes'.length) (h : beValue acc bytes = beValue acc' bytes') :
    acc = acc' ∧ bytes = bytes' := by
  induction bytes generalizing acc acc' bytes' with
  | nil =>
      obtain rfl : bytes' = [] := List.length_eq_zero_iff.1 hlength.symm
      exact ⟨h, rfl⟩
  | cons b bytes ih =>
      cases bytes' with
      | nil => cases hlength
      | cons b' bytes' =>
          rw [beValue_cons, beValue_cons] at h
          obtain ⟨hacc, rfl⟩ := ih (Nat.succ.inj hlength) h
          have hb := b.isLt
          have hb' := b'.isLt
          have heq : b = b' := BitVec.eq_of_toNat_eq (by omega)
          subst heq
          exact ⟨by omega, rfl⟩

theorem beValue_lt (acc : Nat) (bytes : List Byte) :
    beValue acc bytes < (acc + 1) * 256 ^ bytes.length := by
  induction bytes generalizing acc with
  | nil =>
      show acc < (acc + 1) * 256 ^ 0
      omega
  | cons b bytes ih =>
      have hb := b.isLt
      have hle : acc * 256 + b.toNat + 1 ≤ (acc + 1) * 256 := by omega
      calc beValue acc (b :: bytes) < (acc * 256 + b.toNat + 1) * 256 ^ bytes.length := ih _
        _ ≤ (acc + 1) * 256 * 256 ^ bytes.length := Nat.mul_le_mul_right _ hle
        _ = (acc + 1) * 256 ^ (b :: bytes).length := by
            rw [List.length_cons, Nat.pow_succ, Nat.mul_assoc, Nat.mul_comm 256]

/-- A word tells its bytes. -/
theorem beLoad_injective {bytes bytes' : List Byte} (hlength : bytes.length = bytes'.length)
    (hle : bytes.length ≤ 32) (h : beLoad bytes = beLoad bytes') : bytes = bytes' := by
  have hlt : ∀ l : List Byte, l.length ≤ 32 → beValue 0 l < 2 ^ 256 := by
    intro l hl
    calc beValue 0 l < (0 + 1) * 256 ^ l.length := beValue_lt 0 l
      _ ≤ 2 ^ 256 := by
          rw [Nat.zero_add, Nat.one_mul, show (2 : Nat) ^ 256 = 256 ^ 32 by norm_num]
          exact Nat.pow_le_pow_right (by norm_num) hl
  have htoNat := congrArg BitVec.toNat h
  unfold beLoad at htoNat
  rw [BitVec.toNat_ofNat, BitVec.toNat_ofNat] at htoNat
  change beValue 0 bytes % _ = beValue 0 bytes' % _ at htoNat
  rw [Nat.mod_eq_of_lt (hlt bytes hle), Nat.mod_eq_of_lt (hlt bytes' (hlength ▸ hle))] at htoNat
  exact (beValue_injective hlength htoNat).2

namespace Advanced

/-! ## Small pushes -/

/-- Inserting a byte at the next lower position. -/
theorem toNat_or_shiftLeft {value : BitVec 64} {b : Byte} {acc k : Nat}
    (hvalue : value.toNat = acc * 2 ^ (8 * (k + 1))) (hk : k < 8) :
    (value ||| b.setWidth 64 <<< (8 * k)).toNat = (acc * 256 + b.toNat) * 2 ^ (8 * k) := by
  have hb : b.toNat < 2 ^ 8 := b.isLt
  have hsmall : b.toNat * 2 ^ (8 * k) < 2 ^ (8 * (k + 1)) := by
    have hpow : 2 ^ (8 * (k + 1)) = 2 ^ 8 * 2 ^ (8 * k) := by
      rw [← Nat.pow_add]
      congr 1
      omega
    rw [hpow]
    exact Nat.mul_lt_mul_of_pos_right hb (by positivity)
  have hfits : b.toNat * 2 ^ (8 * k) < 2 ^ 64 :=
    Nat.lt_of_lt_of_le hsmall (Nat.pow_le_pow_right (by norm_num) (by omega))
  have hbyte : (b.setWidth 64 <<< (8 * k)).toNat = b.toNat * 2 ^ (8 * k) := by
    rw [BitVec.toNat_shiftLeft, BitVec.toNat_setWidth, Nat.shiftLeft_eq,
      Nat.mod_eq_of_lt (show b.toNat < 2 ^ 64 by omega), Nat.mod_eq_of_lt hfits]
  rw [BitVec.toNat_or, hbyte, hvalue, ← Nat.shiftLeft_eq acc,
    ← Nat.shiftLeft_add_eq_or_of_lt hsmall, Nat.shiftLeft_eq]
  have hpow : 2 ^ (8 * (k + 1)) = 256 * 2 ^ (8 * k) := by
    rw [show (256 : Nat) = 2 ^ 8 by norm_num, ← Nat.pow_add]
    congr 1
    omega
  rw [hpow, Nat.add_mul, Nat.mul_assoc]

theorem toNat_smallPushLoop {value : BitVec 64} {acc : Nat} {data : List Byte}
    (hvalue : value.toNat = acc * 2 ^ (8 * data.length)) (hlength : data.length ≤ 8) :
    (smallPushLoop value ((data.length - 1) * 8) data).toNat = beValue acc data := by
  induction data generalizing value acc with
  | nil => simpa [smallPushLoop, beValue] using hvalue
  | cons b data ih =>
      rw [List.length_cons] at hvalue hlength
      have hpos : (b :: data).length - 1 = data.length := by simp
      have hinsert := toNat_or_shiftLeft (b := b) hvalue (by omega)
      rw [hpos, Nat.mul_comm, smallPushLoop, beValue_cons]
      cases data with
      | nil => simpa [smallPushLoop, beValue] using hinsert
      | cons b' data =>
          -- The next position is 8 bits lower; only the one after the last byte wraps around.
          have hnext : (8 * (b' :: data).length + 2 ^ 64 - 8) % 2 ^ 64 =
              ((b' :: data).length - 1) * 8 := by
            rw [List.length_cons] at hlength ⊢
            omega
          rw [hnext]
          exact ih hinsert (by omega)

theorem setWidth_smallPushValue {data : List Byte} (hlength : data.length ≤ 8) :
    (smallPushValue data.length data).setWidth 256 = beLoad data := by
  have hzero : (0 : BitVec 64).toNat = 0 * 2 ^ (8 * data.length) := by simp
  have hvalue := toNat_smallPushLoop hzero hlength
  apply BitVec.eq_of_toNat_eq
  rw [BitVec.toNat_setWidth]
  show (smallPushLoop 0 ((data.length - 1) * 8) data).toNat % 2 ^ 256 =
    (BitVec.ofNat 256 (beValue 0 data)).toNat
  rw [hvalue, BitVec.toNat_ofNat]

/-! ## Large pushes -/

/-- The bytes are set from the highest one down. -/
theorem largePushLoop_eq {bytes data : List Byte} (hlength : data.length ≤ bytes.length) :
    largePushLoop bytes ((data.length : Int) - 1) data =
      data.reverse ++ bytes.drop data.length := by
  induction data generalizing bytes with
  | nil => rfl
  | cons b data ih =>
      rw [List.length_cons] at hlength
      have hpos : ((((b :: data).length : Nat) : Int) - 1) = data.length := by
        rw [List.length_cons]
        omega
      have hset : data.length ≤ (bytes.set data.length b).length := by
        rw [List.length_set]
        omega
      rw [hpos, largePushLoop, Int.toNat_natCast, ih hset, List.reverse_cons, List.append_assoc]
      have hlt : data.length < (bytes.set data.length b).length := by
        rw [List.length_set]
        omega
      rw [List.drop_eq_getElem_cons hlt, List.getElem_set_self, List.drop_set_of_lt (by omega)]
      rfl

/-- The little-endian value of reversed bytes, with zeros above them. -/
theorem leLoad_reverse (data : List Byte) (n : Nat) :
    leLoad (data.reverse ++ List.replicate n 0) = beLoad data := by
  have hzeros : (List.replicate n (0 : Byte)).foldr (fun b acc => acc * 256 + b.toNat) 0 = 0 := by
    induction n with
    | zero => rfl
    | succ n ih =>
        rw [List.replicate_succ, List.foldr_cons, ih]
        rfl
  unfold leLoad beLoad
  rw [List.foldr_append, hzeros, List.foldr_reverse]

theorem largePushValue_eq {data : List Byte} (hlength : data.length ≤ 32) :
    largePushValue data.length data = beLoad data := by
  unfold largePushValue
  rw [largePushLoop_eq (by simpa using hlength), List.drop_replicate, leLoad_reverse]

end Advanced

/-! ## Push data in the code -/

/-- The code is the first part of the padded code. -/
theorem pushData_paddedCode (uninit : Nat → Byte) {code : List Byte} {pos size : Nat}
    (hle : pos + size ≤ code.length) :
    ((Baseline.analyze uninit code).paddedCode.drop pos).take size = (code.drop pos).take size := by
  have hcode := Baseline.take_paddedCode uninit code
  rw [← congrArg (fun l => (l.drop pos).take size) hcode, List.drop_take, List.take_take,
    Nat.min_eq_left (by omega)]

/-- The data of a PUSH is all in the code, where Baseline reads it too; or the code ends with it. -/
theorem pushData_cases (uninit : Nat → Byte) {code : List Byte} {pos : Nat} {b : Byte} {n : Fin 32}
    (hop : Opcode.ofByte b = some (.push n)) :
    ((instructionAt code pos b).data.length = n.val + 1 ∧
      ((Baseline.analyze uninit code).paddedCode.drop (pos + 1)).take (n.val + 1) =
        (instructionAt code pos b).data) ∨
    code.length ≤ pos + (n.val + 1 + 1) := by
  have hsize := pushSize_eq hop
  by_cases hle : pos + 1 + (n.val + 1) ≤ code.length
  · left
    have hdata : (instructionAt code pos b).data = (code.drop (pos + 1)).take (n.val + 1) := by
      rw [← hsize]
      rfl
    rw [hdata]
    constructor
    · rw [List.length_take, List.length_drop]
      omega
    · exact pushData_paddedCode uninit hle
  · right
    omega

end Ivmone
