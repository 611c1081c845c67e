import Ivmone.Opcode

/-!
# The bytecode builder

`test/utils/bytecode.hpp`: the functions the tests and the benchmarks build EVM code with. A
`bytecode` is a byte string; code is put together by concatenation, the operands of an instruction
before its opcode and the topmost one last.

A `push` is the only builder that can fail: it throws `std::invalid_argument` with the given text.
-/

set_option autoImplicit false

namespace Ivmone

/-- `struct bytecode`. -/
abbrev Bytecode := List Byte

namespace Bytecode

/-- `bytecode(ivmc_opcode)`. -/
def ofOpcode (op : Opcode) : Bytecode := [op.toByte]

/-- `operator*(int, bytecode)`: the loop `while (n-- > 0) out += c`. -/
def times (n : Nat) (c : Bytecode) : Bytecode :=
  match n with
  | 0 => []
  | n + 1 => times n c ++ c

/-! ## Push instructions -/

/-- `push(bytes_view)`. -/
def push (data : List Byte) : Except String Bytecode :=
  if data = [] then .error "push data empty"
  else if (Opcode.push 31).toNat - (Opcode.push 0).toNat + 1 < data.length then
    .error "push data too long"
  else .ok (BitVec.ofNat 8 (data.length + (Opcode.push 0).toNat - 1) :: data)

def add (a b : Bytecode) : Bytecode := b ++ a ++ ofOpcode .add

def mul (a b : Bytecode) : Bytecode := b ++ a ++ ofOpcode .mul

def not_ (a : Bytecode) : Bytecode := a ++ ofOpcode .not_

def iszero (a : Bytecode) : Bytecode := a ++ ofOpcode .iszero

def eq (a b : Bytecode) : Bytecode := b ++ a ++ ofOpcode .eq

def byte (a n : Bytecode) : Bytecode := a ++ n ++ ofOpcode .byte

def mstore (index value : Bytecode) : Bytecode := value ++ index ++ ofOpcode .mstore

def mstore8 (index value : Bytecode) : Bytecode := value ++ index ++ ofOpcode .mstore8

def jump (target : Bytecode) : Bytecode := target ++ ofOpcode .jump

def jumpi (target condition : Bytecode) : Bytecode := condition ++ target ++ ofOpcode .jumpi

def revert (index size : Bytecode) : Bytecode := size ++ index ++ ofOpcode .revert

def keccak256 (index size : Bytecode) : Bytecode := size ++ index ++ ofOpcode .keccak256

def calldataload (index : Bytecode) : Bytecode := index ++ ofOpcode .calldataload

def sstore (index value : Bytecode) : Bytecode := value ++ index ++ ofOpcode .sstore

def sload (index : Bytecode) : Bytecode := index ++ ofOpcode .sload

end Bytecode

end Ivmone
