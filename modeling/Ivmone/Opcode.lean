import Ivmone.Ivmc

/-!
# Opcodes, gas costs and traits

The opcodes the interpreters know, with the tables of `instruction_traits.hpp`: the base gas cost
of every opcode in every revision, and the stack height an opcode requires and the change it makes.
A byte that is no opcode has the default entry of the tables: undefined gas cost, no stack
requirement and no change.
-/

set_option autoImplicit false

namespace Ivmone

/-- There is a first PUSH instruction. -/
instance neZeroPushes : NeZero 32 := ⟨by decide⟩

/-- `ivmc_opcode`. -/
inductive Opcode
  | stop
  | add
  | mul
  | sub
  | div
  | sdiv
  | mod
  | smod
  | addmod
  | mulmod
  | exp
  | signextend
  | lt
  | gt
  | slt
  | sgt
  | eq
  | iszero
  | and_
  | or_
  | xor_
  | not_
  | byte
  | shl
  | shr
  | sar
  | keccak256
  | address
  | balance
  | origin
  | caller
  | callvalue
  | calldataload
  | calldatasize
  | calldatacopy
  | codesize
  | codecopy
  | gasprice
  | extcodesize
  | extcodecopy
  | returndatasize
  | returndatacopy
  | extcodehash
  | blockhash
  | coinbase
  | timestamp
  | number
  | difficulty
  | gaslimit
  | chainid
  | selfbalance
  | basefee
  | pop
  | mload
  | mstore
  | mstore8
  | sload
  | sstore
  | jump
  | jumpi
  | pc
  | msize
  | gas
  | jumpdest
  /-- `PUSH1` to `PUSH32` are `push 0` to `push 31`. -/
  | push (n : Fin 32)
  /-- `DUP1` to `DUP16` are `dup 0` to `dup 15`. -/
  | dup (n : Fin 16)
  /-- `SWAP1` to `SWAP16` are `swap 0` to `swap 15`. -/
  | swap (n : Fin 16)
  | log (n : Fin 5)
  | create
  | call
  | callcode
  | return_
  | delegatecall
  | create2
  | staticcall
  | revert
  | invalid
  | selfdestruct
  deriving DecidableEq, Repr

namespace Opcode

/-- The byte of an opcode. -/
def toNat : Opcode → Nat
  | stop => 0x00
  | add => 0x01
  | mul => 0x02
  | sub => 0x03
  | div => 0x04
  | sdiv => 0x05
  | mod => 0x06
  | smod => 0x07
  | addmod => 0x08
  | mulmod => 0x09
  | exp => 0x0a
  | signextend => 0x0b
  | lt => 0x10
  | gt => 0x11
  | slt => 0x12
  | sgt => 0x13
  | eq => 0x14
  | iszero => 0x15
  | and_ => 0x16
  | or_ => 0x17
  | xor_ => 0x18
  | not_ => 0x19
  | byte => 0x1a
  | shl => 0x1b
  | shr => 0x1c
  | sar => 0x1d
  | keccak256 => 0x20
  | address => 0x30
  | balance => 0x31
  | origin => 0x32
  | caller => 0x33
  | callvalue => 0x34
  | calldataload => 0x35
  | calldatasize => 0x36
  | calldatacopy => 0x37
  | codesize => 0x38
  | codecopy => 0x39
  | gasprice => 0x3a
  | extcodesize => 0x3b
  | extcodecopy => 0x3c
  | returndatasize => 0x3d
  | returndatacopy => 0x3e
  | extcodehash => 0x3f
  | blockhash => 0x40
  | coinbase => 0x41
  | timestamp => 0x42
  | number => 0x43
  | difficulty => 0x44
  | gaslimit => 0x45
  | chainid => 0x46
  | selfbalance => 0x47
  | basefee => 0x48
  | pop => 0x50
  | mload => 0x51
  | mstore => 0x52
  | mstore8 => 0x53
  | sload => 0x54
  | sstore => 0x55
  | jump => 0x56
  | jumpi => 0x57
  | pc => 0x58
  | msize => 0x59
  | gas => 0x5a
  | jumpdest => 0x5b
  | push n => 0x60 + n
  | dup n => 0x80 + n
  | swap n => 0x90 + n
  | log n => 0xa0 + n
  | create => 0xf0
  | call => 0xf1
  | callcode => 0xf2
  | return_ => 0xf3
  | delegatecall => 0xf4
  | create2 => 0xf5
  | staticcall => 0xfa
  | revert => 0xfd
  | invalid => 0xfe
  | selfdestruct => 0xff

/-- The opcode of a byte. -/
def ofNat : Nat → Option Opcode
  | 0x00 => some .stop
  | 0x01 => some .add
  | 0x02 => some .mul
  | 0x03 => some .sub
  | 0x04 => some .div
  | 0x05 => some .sdiv
  | 0x06 => some .mod
  | 0x07 => some .smod
  | 0x08 => some .addmod
  | 0x09 => some .mulmod
  | 0x0a => some .exp
  | 0x0b => some .signextend
  | 0x10 => some .lt
  | 0x11 => some .gt
  | 0x12 => some .slt
  | 0x13 => some .sgt
  | 0x14 => some .eq
  | 0x15 => some .iszero
  | 0x16 => some .and_
  | 0x17 => some .or_
  | 0x18 => some .xor_
  | 0x19 => some .not_
  | 0x1a => some .byte
  | 0x1b => some .shl
  | 0x1c => some .shr
  | 0x1d => some .sar
  | 0x20 => some .keccak256
  | 0x30 => some .address
  | 0x31 => some .balance
  | 0x32 => some .origin
  | 0x33 => some .caller
  | 0x34 => some .callvalue
  | 0x35 => some .calldataload
  | 0x36 => some .calldatasize
  | 0x37 => some .calldatacopy
  | 0x38 => some .codesize
  | 0x39 => some .codecopy
  | 0x3a => some .gasprice
  | 0x3b => some .extcodesize
  | 0x3c => some .extcodecopy
  | 0x3d => some .returndatasize
  | 0x3e => some .returndatacopy
  | 0x3f => some .extcodehash
  | 0x40 => some .blockhash
  | 0x41 => some .coinbase
  | 0x42 => some .timestamp
  | 0x43 => some .number
  | 0x44 => some .difficulty
  | 0x45 => some .gaslimit
  | 0x46 => some .chainid
  | 0x47 => some .selfbalance
  | 0x48 => some .basefee
  | 0x50 => some .pop
  | 0x51 => some .mload
  | 0x52 => some .mstore
  | 0x53 => some .mstore8
  | 0x54 => some .sload
  | 0x55 => some .sstore
  | 0x56 => some .jump
  | 0x57 => some .jumpi
  | 0x58 => some .pc
  | 0x59 => some .msize
  | 0x5a => some .gas
  | 0x5b => some .jumpdest
  | 0xf0 => some .create
  | 0xf1 => some .call
  | 0xf2 => some .callcode
  | 0xf3 => some .return_
  | 0xf4 => some .delegatecall
  | 0xf5 => some .create2
  | 0xfa => some .staticcall
  | 0xfd => some .revert
  | 0xfe => some .invalid
  | 0xff => some .selfdestruct
  | n =>
      if h : 0x60 ≤ n ∧ n ≤ 0x7f then some (.push ⟨n - 0x60, by omega⟩)
      else if h : 0x80 ≤ n ∧ n ≤ 0x8f then some (.dup ⟨n - 0x80, by omega⟩)
      else if h : 0x90 ≤ n ∧ n ≤ 0x9f then some (.swap ⟨n - 0x90, by omega⟩)
      else if h : 0xa0 ≤ n ∧ n ≤ 0xa4 then some (.log ⟨n - 0xa0, by omega⟩)
      else none

def ofByte (b : Byte) : Option Opcode := ofNat b.toNat

def toByte (op : Opcode) : Byte := BitVec.ofNat 8 op.toNat

end Opcode

/-! ## `instruction_traits.hpp` -/

namespace instr

/-- The special gas cost of an undefined instruction. -/
def undefined : Int := -1

def coldSloadCost : Int := 2100

def coldAccountAccessCost : Int := 2600

def warmStorageReadCost : Int := 100

/-- The cost of a cold access on top of the warm one, which every access has paid already. -/
def additionalColdAccountAccessCost : Int := coldAccountAccessCost - warmStorageReadCost

/-! ### Gas costs

A revision's table is the one of the revision before it with the entries it changes. -/

/-- Instructions the table does not name are undefined in every revision that follows. -/
def gasCostsFrontier : Opcode → Int
  | .stop => 0
  | .add => 3
  | .mul => 5
  | .sub => 3
  | .div => 5
  | .sdiv => 5
  | .mod => 5
  | .smod => 5
  | .addmod => 8
  | .mulmod => 8
  | .exp => 10
  | .signextend => 5
  | .lt => 3
  | .gt => 3
  | .slt => 3
  | .sgt => 3
  | .eq => 3
  | .iszero => 3
  | .and_ => 3
  | .or_ => 3
  | .xor_ => 3
  | .not_ => 3
  | .byte => 3
  | .keccak256 => 30
  | .address => 2
  | .balance => 20
  | .origin => 2
  | .caller => 2
  | .callvalue => 2
  | .calldataload => 3
  | .calldatasize => 2
  | .calldatacopy => 3
  | .codesize => 2
  | .codecopy => 3
  | .gasprice => 2
  | .extcodesize => 20
  | .extcodecopy => 20
  | .blockhash => 20
  | .coinbase => 2
  | .timestamp => 2
  | .number => 2
  | .difficulty => 2
  | .gaslimit => 2
  | .pop => 2
  | .mload => 3
  | .mstore => 3
  | .mstore8 => 3
  | .sload => 50
  | .sstore => 0
  | .jump => 8
  | .jumpi => 10
  | .pc => 2
  | .msize => 2
  | .gas => 2
  | .jumpdest => 1
  | .push _ => 3
  | .dup _ => 3
  | .swap _ => 3
  | .log n => (n.val + 1) * 375
  | .create => 32000
  | .call => 40
  | .callcode => 40
  | .return_ => 0
  | .invalid => 0
  | .selfdestruct => 0
  | _ => undefined

def gasCostsHomestead : Opcode → Int
  | .delegatecall => 40
  | op => gasCostsFrontier op

def gasCostsTangerineWhistle : Opcode → Int
  | .balance => 400
  | .extcodesize => 700
  | .extcodecopy => 700
  | .sload => 200
  | .call => 700
  | .callcode => 700
  | .delegatecall => 700
  | .selfdestruct => 5000
  | op => gasCostsHomestead op

def gasCostsSpuriousDragon : Opcode → Int := gasCostsTangerineWhistle

def gasCostsByzantium : Opcode → Int
  | .returndatasize => 2
  | .returndatacopy => 3
  | .staticcall => 700
  | .revert => 0
  | op => gasCostsSpuriousDragon op

def gasCostsConstantinople : Opcode → Int
  | .shl => 3
  | .shr => 3
  | .sar => 3
  | .extcodehash => 400
  | .create2 => 32000
  | op => gasCostsByzantium op

def gasCostsPetersburg : Opcode → Int := gasCostsConstantinople

def gasCostsIstanbul : Opcode → Int
  | .balance => 700
  | .chainid => 2
  | .extcodehash => 700
  | .selfbalance => 5
  | .sload => 800
  | op => gasCostsPetersburg op

def gasCostsBerlin : Opcode → Int
  | .extcodesize => warmStorageReadCost
  | .extcodecopy => warmStorageReadCost
  | .extcodehash => warmStorageReadCost
  | .balance => warmStorageReadCost
  | .call => warmStorageReadCost
  | .callcode => warmStorageReadCost
  | .delegatecall => warmStorageReadCost
  | .staticcall => warmStorageReadCost
  | .sload => warmStorageReadCost
  | op => gasCostsIstanbul op

def gasCostsLondon : Opcode → Int
  | .basefee => 2
  | op => gasCostsBerlin op

def gasCostsShanghai : Opcode → Int := gasCostsLondon

/-- `gas_costs[rev]` at an opcode. -/
def gasCosts : Revision → Opcode → Int
  | .frontier => gasCostsFrontier
  | .homestead => gasCostsHomestead
  | .tangerineWhistle => gasCostsTangerineWhistle
  | .spuriousDragon => gasCostsSpuriousDragon
  | .byzantium => gasCostsByzantium
  | .constantinople => gasCostsConstantinople
  | .petersburg => gasCostsPetersburg
  | .istanbul => gasCostsIstanbul
  | .berlin => gasCostsBerlin
  | .london => gasCostsLondon
  | .shanghai => gasCostsShanghai

/-- `gas_costs[rev]` at a byte. -/
def gasCost (rev : Revision) (b : Byte) : Int :=
  ((Opcode.ofByte b).map (gasCosts rev)).getD undefined

/-- `instr::Traits`: the number of stack items an instruction accesses and the height change it
makes. -/
structure Traits where
  stackHeightRequired : Int := 0
  stackHeightChange : Int := 0
  deriving DecidableEq, Repr

/-- The traits of an opcode. -/
def traits : Opcode → Traits
  | .stop => ⟨0, 0⟩
  | .add => ⟨2, -1⟩
  | .mul => ⟨2, -1⟩
  | .sub => ⟨2, -1⟩
  | .div => ⟨2, -1⟩
  | .sdiv => ⟨2, -1⟩
  | .mod => ⟨2, -1⟩
  | .smod => ⟨2, -1⟩
  | .addmod => ⟨3, -2⟩
  | .mulmod => ⟨3, -2⟩
  | .exp => ⟨2, -1⟩
  | .signextend => ⟨2, -1⟩
  | .lt => ⟨2, -1⟩
  | .gt => ⟨2, -1⟩
  | .slt => ⟨2, -1⟩
  | .sgt => ⟨2, -1⟩
  | .eq => ⟨2, -1⟩
  | .iszero => ⟨1, 0⟩
  | .and_ => ⟨2, -1⟩
  | .or_ => ⟨2, -1⟩
  | .xor_ => ⟨2, -1⟩
  | .not_ => ⟨1, 0⟩
  | .byte => ⟨2, -1⟩
  | .shl => ⟨2, -1⟩
  | .shr => ⟨2, -1⟩
  | .sar => ⟨2, -1⟩
  | .keccak256 => ⟨2, -1⟩
  | .address => ⟨0, 1⟩
  | .balance => ⟨1, 0⟩
  | .origin => ⟨0, 1⟩
  | .caller => ⟨0, 1⟩
  | .callvalue => ⟨0, 1⟩
  | .calldataload => ⟨1, 0⟩
  | .calldatasize => ⟨0, 1⟩
  | .calldatacopy => ⟨3, -3⟩
  | .codesize => ⟨0, 1⟩
  | .codecopy => ⟨3, -3⟩
  | .gasprice => ⟨0, 1⟩
  | .extcodesize => ⟨1, 0⟩
  | .extcodecopy => ⟨4, -4⟩
  | .returndatasize => ⟨0, 1⟩
  | .returndatacopy => ⟨3, -3⟩
  | .extcodehash => ⟨1, 0⟩
  | .blockhash => ⟨1, 0⟩
  | .coinbase => ⟨0, 1⟩
  | .timestamp => ⟨0, 1⟩
  | .number => ⟨0, 1⟩
  | .difficulty => ⟨0, 1⟩
  | .gaslimit => ⟨0, 1⟩
  | .chainid => ⟨0, 1⟩
  | .selfbalance => ⟨0, 1⟩
  | .basefee => ⟨0, 1⟩
  | .pop => ⟨1, -1⟩
  | .mload => ⟨1, 0⟩
  | .mstore => ⟨2, -2⟩
  | .mstore8 => ⟨2, -2⟩
  | .sload => ⟨1, 0⟩
  | .sstore => ⟨2, -2⟩
  | .jump => ⟨1, -1⟩
  | .jumpi => ⟨2, -2⟩
  | .pc => ⟨0, 1⟩
  | .msize => ⟨0, 1⟩
  | .gas => ⟨0, 1⟩
  | .jumpdest => ⟨0, 0⟩
  | .push _ => ⟨0, 1⟩
  | .dup n => ⟨n.val + 1, 1⟩
  | .swap n => ⟨n.val + 2, 0⟩
  | .log n => ⟨n.val + 2, -(n.val + 2)⟩
  | .create => ⟨3, -2⟩
  | .call => ⟨7, -6⟩
  | .callcode => ⟨7, -6⟩
  | .return_ => ⟨2, -2⟩
  | .delegatecall => ⟨6, -5⟩
  | .create2 => ⟨4, -3⟩
  | .staticcall => ⟨6, -5⟩
  | .revert => ⟨2, -2⟩
  | .invalid => ⟨0, 0⟩
  | .selfdestruct => ⟨1, -1⟩

/-- The traits of a byte. -/
def traitsOf (b : Byte) : Traits := ((Opcode.ofByte b).map traits).getD {}

end instr

end Ivmone
