import Mathlib.Data.Int.Basic
import Mathlib.Tactic.Linarith

/-!
# Machine words

Fixed-width values of the interpreters. Bytes, addresses and 256-bit words are bit vectors;
`ivmc::bytes32` and `ivmc::uint256be` are the big-endian form of a 256-bit word and are modelled by
the word itself, so that `intx::be::load` and `intx::be::store` between them are the identity.
`size_t` and `uint64_t` values are natural numbers below `2 ^ 64`; `int64_t` and `int` values are
integers, brought back into their range by `toInt64` and `toInt32` after every operation that could
leave it.
-/

set_option autoImplicit false

namespace Ivmone

abbrev Byte := BitVec 8

/-- The 256-bit EVM word, `intx::uint256`. -/
abbrev UInt256 := BitVec 256

abbrev Address := BitVec 160

/-! ## Machine integers -/

/-- `x` is a value of `int64_t`. -/
def InInt64 (x : Int) : Prop := -2 ^ 63 ≤ x ∧ x < 2 ^ 63

instance (x : Int) : Decidable (InInt64 x) := inferInstanceAs (Decidable (_ ∧ _))

/-- The two's-complement `int64_t` value of an exact result. -/
def toInt64 (x : Int) : Int := x.bmod (2 ^ 64)

/-- The two's-complement `int` value of an exact result. -/
def toInt32 (x : Int) : Int := x.bmod (2 ^ 32)

/-- Conversion of an `int64_t` value to `uint64_t`. -/
def toUInt64 (x : Int) : Nat := (x % 2 ^ 64).toNat

/-- The difference of two `size_t` values. -/
def subSize (x y : Nat) : Nat := (x + (2 ^ 64 - y % 2 ^ 64)) % 2 ^ 64

theorem toInt64_of_inInt64 {x : Int} (h : InInt64 x) : toInt64 x = x := by
  obtain ⟨h1, h2⟩ := h
  exact Int.bmod_eq_of_le (by norm_num; omega) (by norm_num; omega)

theorem inInt64_toInt64 (x : Int) : InInt64 (toInt64 x) := by
  have h1 := Int.le_bmod (x := x) (m := 2 ^ 64) (by norm_num)
  have h2 := Int.bmod_lt (x := x) (m := 2 ^ 64) (by norm_num)
  unfold InInt64 toInt64
  norm_num at h1 h2 ⊢
  exact ⟨h1, by omega⟩

theorem toInt32_of_lt {x : Int} (h1 : -2 ^ 31 ≤ x) (h2 : x < 2 ^ 31) : toInt32 x = x :=
  Int.bmod_eq_of_le (by norm_num; omega) (by norm_num; omega)

theorem subSize_of_le {x y : Nat} (h : y ≤ x) (hx : x < 2 ^ 64) : subSize x y = x - y := by
  unfold subSize
  omega

/-! ## Operations of the `intx` library on 256-bit words -/

namespace UInt256

/-- `static_cast<size_t>(x)` and `static_cast<uint64_t>(x)`: the lowest 64 bits. -/
def toSize (x : UInt256) : Nat := x.toNat % 2 ^ 64

/-- `static_cast<int64_t>(x)`. -/
def toInt64 (x : UInt256) : Int := Ivmone.toInt64 x.toNat

/-- The conversion of `size_t` and `uint64_t` values to a word. -/
def ofSize (n : Nat) : UInt256 := BitVec.ofNat 256 (n % 2 ^ 64)

/-- The conversion of an `int64_t` value to a word goes through `uint64_t`. -/
def ofInt64 (x : Int) : UInt256 := BitVec.ofNat 256 (toUInt64 x)

def ofBool (b : Bool) : UInt256 := if b then 1 else 0

/-- The 64-bit word `x[i]`; words are stored from the lowest one. -/
def word (x : UInt256) (i : Nat) : BitVec 64 := (x >>> (64 * i)).setWidth 64

/-- `intx::be::trunc<ivmc::address>`: the lowest 160 bits. -/
def toAddress (x : UInt256) : Address := x.setWidth 160

/-- `intx::be::load<uint256>` of an address. -/
def ofAddress (a : Address) : UInt256 := a.setWidth 256

/-- The number of bytes of `x` without its leading zero bytes. -/
def countSignificantBytes (x : UInt256) : Nat := if x = 0 then 0 else x.toNat.log2 / 8 + 1

/-- Shifts take a 256-bit count; by 256 and more they give 0. -/
def shl (x count : UInt256) : UInt256 := if count.toNat < 256 then x <<< count.toNat else 0

def shr (x count : UInt256) : UInt256 := if count.toNat < 256 then x >>> count.toNat else 0

def addmod (x y m : UInt256) : UInt256 := BitVec.ofNat 256 ((x.toNat + y.toNat) % m.toNat)

def mulmod (x y m : UInt256) : UInt256 := BitVec.ofNat 256 ((x.toNat * y.toNat) % m.toNat)

/-- `steps` rounds of square and multiply, from the lowest bit of the exponent. -/
def expLoop : Nat → UInt256 → UInt256 → UInt256 → UInt256
  | 0, _, _, result => result
  | steps + 1, base, exponent, result =>
      if exponent = 0 then result
      else
        expLoop steps (base * base) (exponent >>> 1)
          (if exponent.getLsbD 0 then result * base else result)

def exp (base exponent : UInt256) : UInt256 := expLoop 256 base exponent 1

theorem toSize_lt (x : UInt256) : x.toSize < 2 ^ 64 := Nat.mod_lt _ (by norm_num)

theorem toSize_of_lt {x : UInt256} (h : x.toNat < 2 ^ 64) : x.toSize = x.toNat :=
  Nat.mod_eq_of_lt h

theorem countSignificantBytes_le (x : UInt256) : x.countSignificantBytes ≤ 32 := by
  unfold countSignificantBytes
  split
  · omega
  · rename_i hx
    have hx0 : x.toNat ≠ 0 := fun h0 => hx (BitVec.eq_of_toNat_eq (by simpa using h0))
    have hlog : x.toNat.log2 < 256 := (Nat.log2_lt hx0).2 x.isLt
    omega

end UInt256

/-! ## Big-endian byte strings -/

/-- `intx::be::load<uint256>` of at most 32 bytes. -/
def beLoad (bytes : List Byte) : UInt256 :=
  BitVec.ofNat 256 (bytes.foldl (fun acc b => acc * 256 + b.toNat) 0)

/-- `intx::be::unsafe::store`: the 32 bytes of a word, highest first. -/
def beStore (x : UInt256) : List Byte :=
  (List.range 32).map fun i => (x >>> (8 * (31 - i))).setWidth 8

@[simp] theorem length_beStore (x : UInt256) : (beStore x).length = 32 := by
  simp [beStore]

end Ivmone
