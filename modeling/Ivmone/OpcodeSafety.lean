import Ivmone.CallSafety
import Ivmone.Baseline
import Ivmone.Advanced

/-!
# The implementations of every opcode

The two interpreters have a table of implementations each. `Implemented` is the correspondence of
their entries, and every entry that both tables share meets the specification with the traits of
its opcode.
-/

set_option autoImplicit false

namespace Ivmone

open Lib Instructions

/-- The instructions for which the gas left matters, besides being charged. -/
def Opcode.readsGas : Opcode → Bool
  | .gas | .sstore | .call | .callcode | .delegatecall | .staticcall | .create | .create2 => true
  | _ => false

/-- The entries of an opcode in the tables of Baseline and of Advanced. -/
inductive Implemented : Opcode → Baseline.InstrFn → Advanced.ExecFn → Prop
  | plain {op : Opcode} {f : Context → Exec Unit} (hreads : op.readsGas = false) :
      Implemented op (.basic f) (.op f)
  | corrected {op : Opcode} {f : Context → Exec Unit} {fn : Advanced.ExecFn}
      (hexec : ∀ analysis cost ctx arg ip, Advanced.exec analysis cost ctx fn arg ip =
        Advanced.next ip (Advanced.corrected cost arg (f ctx)))
      (hreads : op.readsGas = true) : Implemented op (.basic f) fn
  | gas : Implemented .gas (.basic gas) .opGas
  | jumpdest : Implemented .jumpdest (.basic jumpdest) .opxBeginblock
  | jump : Implemented .jump (.codePosition Baseline.jump) .opJump
  | jumpi : Implemented .jumpi (.codePosition Baseline.jumpi) .opJumpi
  | pc : Implemented .pc (.codePosition Baseline.pc) .opPc
  | pushSmall {n : Fin 32} (hn : n < 8) :
      Implemented (.push n) (.codePosition (Baseline.push n)) .opPushSmall
  | pushFull {n : Fin 32} (hn : ¬ n < 8) :
      Implemented (.push n) (.codePosition (Baseline.push n)) .opPushFull
  | return_ {op : Opcode} {status : StatusCode} (hkeeps : status.keepsGas) :
      Implemented op (.terminating (return_ status)) (.opReturn status)
  | terminating {op : Opcode} {f : Context → Exec StatusCode} {fn : Advanced.ExecFn}
      (hexec : ∀ analysis cost ctx arg ip, Advanced.exec analysis cost ctx fn arg ip =
        Advanced.exitWith (f ctx)) : Implemented op (.terminating f) fn

theorem implemented (op : Opcode) :
    Implemented op (Baseline.op2fn op) (Advanced.instructionImplementations op) := by
  cases op with
  | sstore | call | callcode | delegatecall | staticcall | create | create2 =>
      exact .corrected (fun _ _ _ _ _ => rfl) rfl
  | gas => exact .gas
  | jumpdest => exact .jumpdest
  | jump => exact .jump
  | jumpi => exact .jumpi
  | pc => exact .pc
  | push n =>
      by_cases hn : n < 8
      · simp only [Advanced.instructionImplementations, if_pos hn]
        exact .pushSmall hn
      · simp only [Advanced.instructionImplementations, if_neg hn]
        exact .pushFull hn
  | return_ => exact .return_ (.inl rfl)
  | revert => exact .return_ (.inr rfl)
  | stop | invalid | selfdestruct => exact .terminating fun _ _ _ _ _ => rfl
  | _ => exact .plain rfl

/-- No instruction requires more than 17 items or makes the stack grow by more than 1, and none pops
items that it does not require. -/
theorem traits_range (op : Opcode) :
    0 ≤ (instr.traits op).stackHeightRequired ∧ (instr.traits op).stackHeightRequired ≤ 17 ∧
      (instr.traits op).stackHeightChange ≤ 1 ∧
      0 ≤ (instr.traits op).stackHeightRequired + (instr.traits op).stackHeightChange := by
  cases op with
  | push n => simp only [instr.traits]; omega
  | dup n => simp only [instr.traits]; omega
  | swap n => simp only [instr.traits]; omega
  | log n => simp only [instr.traits]; omega
  | _ => decide

variable {ctx : Context} {rules : Rules}

/-- Every basic instruction meets the specification with the traits of its opcode. -/
theorem spec_basic {op : Opcode} {f : Context → Exec Unit} (hop : Baseline.op2fn op = .basic f)
    (hstatic : rules.isStatic → ctx.msg.isStatic = true)
    (hreads : op.readsGas = true → rules.readsGas) :
    Spec rules (instr.traits op).stackHeightRequired (instr.traits op).stackHeightChange
      (f ctx) := by
  cases op with
  | stop | jump | jumpi | pc | push | return_ | revert | invalid | selfdestruct => cases hop
  | add | mul | signextend | lt | gt | slt | sgt | and_ | or_ | xor_ | byte | shl | shr | sar =>
      cases hop
      exact spec_popIntoTop _
  | sub | div | sdiv | mod | smod | eq =>
      cases hop
      exact spec_intoSecond _
  | addmod | mulmod =>
      cases hop
      exact spec_popTwoIntoTop _
  | iszero | not_ =>
      cases hop
      exact spec_mapTop _
  | address | caller | callvalue | calldatasize | codesize =>
      cases hop
      exact spec_push _
  | origin | gasprice | basefee | coinbase | timestamp | number | difficulty | gaslimit | chainid =>
      cases hop
      exact spec_pushTxContext _
  | exp => cases hop; exact spec_exp
  | keccak256 => cases hop; exact spec_keccak256
  | balance => cases hop; exact spec_accountQuery spec_getBalance
  | extcodesize => cases hop; exact spec_accountQuery spec_getCodeSize
  | extcodehash => cases hop; exact spec_accountQuery spec_getCodeHash
  | calldataload => cases hop; exact spec_calldataload
  | calldatacopy => cases hop; exact spec_copyWindow _ ctx.input_size_lt
  | codecopy => cases hop; exact spec_copyWindow _ ctx.code.size_lt
  | extcodecopy => cases hop; exact spec_extcodecopy
  | returndatasize => cases hop; exact spec_returndatasize
  | returndatacopy => cases hop; exact spec_returndatacopy
  | blockhash => cases hop; exact spec_blockhash
  | selfbalance => cases hop; exact spec_selfbalance
  | pop => cases hop; exact spec_pop
  | mload => cases hop; exact spec_mload
  | mstore => cases hop; exact spec_mstore
  | mstore8 => cases hop; exact spec_mstore8
  | sload => cases hop; exact spec_sload
  | sstore => cases hop; exact spec_sstore hstatic fun _ => hreads rfl
  | msize => cases hop; exact spec_msize
  | gas => cases hop; exact spec_gas (hreads rfl)
  | jumpdest => cases hop; exact spec_jumpdest
  | dup n => cases hop; exact spec_dup n
  | swap n => cases hop; exact spec_swap n
  | log n => cases hop; exact spec_log hstatic n
  | create => cases hop; exact spec_create .create hstatic (hreads rfl)
  | create2 => cases hop; exact spec_create .create2 hstatic (hreads rfl)
  | call =>
      cases hop
      exact spec_call .call false (by decide) (fun h => .inr (hstatic h)) (hreads rfl)
  | callcode =>
      cases hop
      exact spec_call .callcode false (by decide) (fun h => .inr (hstatic h)) (hreads rfl)
  | delegatecall =>
      cases hop
      exact spec_call .delegatecall false (by decide) (fun h => .inr (hstatic h)) (hreads rfl)
  | staticcall =>
      cases hop
      exact spec_call .call true (by decide) (fun h => .inr (hstatic h)) (hreads rfl)

/-- Every terminating instruction meets its specification. -/
theorem spec_terminating {op : Opcode} {f : Context → Exec StatusCode}
    (hop : Baseline.op2fn op = .terminating f)
    (hstatic : rules.isStatic → ctx.msg.isStatic = true) :
    TerminatingSpec rules (instr.traits op).stackHeightRequired (f ctx) := by
  cases op with
  | stop | invalid =>
      cases hop
      exact terminatingSpec_pure _
  | return_ => cases hop; exact terminatingSpec_return (.inl rfl)
  | revert => cases hop; exact terminatingSpec_return (.inr rfl)
  | selfdestruct => cases hop; exact terminatingSpec_selfdestruct hstatic
  | _ => cases hop

end Ivmone
