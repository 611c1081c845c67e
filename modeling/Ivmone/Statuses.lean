import Ivmone.Equivalence
import Ivmone.Failures
import Ivmone.StaticMode

/-!
# What a status says

An execution ends with a status that says why. Each status has its cause in the last instruction, or
in what the last instruction or block requires: a bad jump destination is the top item of a jump, a
static mode violation is an instruction that changes the state in a static frame, an invalid memory
access is a RETURNDATACOPY beyond the return data. The general `IVMC_FAILURE` and the codes of the
host never come from an interpreter.
-/

set_option autoImplicit false

namespace Ivmone

open Lib Lib.Program Instructions StateTransition

variable {σ : Type}

/-! ## Causes -/

/-- The instructions that charge more than their base cost. -/
def Opcode.hasDynamicCost : Opcode → Bool
  | .exp | .keccak256 | .balance | .calldatacopy | .codecopy | .extcodesize | .extcodecopy
  | .returndatacopy | .extcodehash | .mload | .mstore | .mstore8 | .sload | .sstore | .log _
  | .create | .call | .callcode | .return_ | .delegatecall | .create2 | .staticcall | .revert
  | .selfdestruct => true
  | _ => false

/-- The instructions that always change the state outside of the execution. -/
def Opcode.changesState : Opcode → Bool
  | .sstore | .log _ | .create | .create2 | .selfdestruct => true
  | _ => false

/-- Why an instruction that is executed in `s` leaves the loop with a status. -/
inductive Cause (ctx : Context) (op : Opcode) (s : ExecutionState σ) : StatusCode → Prop
  | ends (h : op = .stop ∨ op = .return_ ∨ op = .selfdestruct) : Cause ctx op s .success
  | reverts (h : op = .revert) : Cause ctx op s .revert
  | invalid (h : op = .invalid) : Cause ctx op s .invalidInstruction
  | gas (h : op.hasDynamicCost = true) : Cause ctx op s .outOfGas
  | jump {dst : UInt256} (hdst : s.stack.get? 0 = some dst)
      (h : op = .jump ∨ op = .jumpi ∧ ∃ cond, s.stack.get? 1 = some cond ∧ cond ≠ 0)
      (hbad : ¬ Baseline.JumpTarget ctx.code.bytes dst.toNat) : Cause ctx op s .badJumpDestination
  | static (hstatic : ctx.msg.isStatic = true)
      (h : op.changesState = true ∨
        op = .call ∧ ∃ value, s.stack.get? 2 = some value ∧ value ≠ 0) :
      Cause ctx op s .staticModeViolation
  | returnData {index size : UInt256} (h : op = .returndatacopy)
      (hindex : s.stack.get? 1 = some index) (hsize : s.stack.get? 2 = some size)
      (hbeyond : s.returnData.size < index.toNat + size.toNat) :
      Cause ctx op s .invalidMemoryAccess

/-! ## The exits of the implementations -/

/-- The statuses an implementation can leave the loop with. -/
def Opcode.MayExit (ctx : Context) (op : Opcode) : StatusCode → Prop
  | .success => op = .stop ∨ op = .return_ ∨ op = .selfdestruct
  | .revert => op = .revert
  | .invalidInstruction => op = .invalid
  | .outOfGas => op.hasDynamicCost = true
  | .badJumpDestination => op = .jump ∨ op = .jumpi
  | .staticModeViolation => ctx.msg.isStatic = true ∧ (op.changesState = true ∨ op = .call)
  | .invalidMemoryAccess => op = .returndatacopy
  | _ => False

/-- An operation that leaves the loop, if at all, with a status that meets `P`. -/
def Op.ExitsIn (P : StatusCode → Prop) : Op → Prop
  | .charge _ | .checkMemory _ _ => P .outOfGas
  | .exit status => P status
  | _ => True

theorem handle_exitsIn (env : Env σ) {P : StatusCode → Prop} (o : Op) (s : ExecutionState σ)
    (h : o.ExitsIn P) :
    (handle env o s).Meets (fun _ _ => True) (fun status _ => P status) fun _ => True := by
  cases o with
  | charge cost =>
      simp only [handle]
      split
      · exact h
      · trivial
  | checkMemory offset size =>
      apply Outcome.Meets.bind (P := fun _ _ => True)
      · exact (checkMemory_calls s env.alloc offset size).mono (fun _ _ _ => trivial)
          (fun _ _ => False.elim) fun _ => id
      · intro passed s' _
        cases passed with
        | true => trivial
        | false => exact h
  | pop | push | peek | poke | load | store =>
      simp only [handle]
      split <;> trivial
  | exit status => exact h
  | _ => trivial

/-- A run leaves the loop only with a status that one of its operations can leave it with. -/
theorem run_exitsIn {env : Env σ} {α : Type} {P : StatusCode → Prop} {p : Exec α}
    (hp : p.Uses (Op.ExitsIn P)) {s s' : ExecutionState σ} {status : StatusCode}
    (h : p.run env s = .exit status s') : P status := by
  have hrun := run_of_uses (R := fun _ => True) (X := fun status _ => P status)
    (G := fun _ => True) (fun o s ho _ => handle_exitsIn env o s ho) hp (s := s) trivial
  rw [Exec.run] at h
  rw [h] at hrun
  exact hrun

section Uses

variable {ctx : Context} {α : Type} {P : StatusCode → Prop}

attribute [local simp] Uses Footprint Op.ExitsIn Exec.perform Exec.pop Exec.push Exec.peek Exec.poke
  Exec.top Exec.setTop Exec.charge Exec.checkMemory Exec.checkMemory64 Exec.load Exec.store
  Exec.memorySize Exec.gasLeft Exec.setGasLeft Exec.int64 Exec.returnData Exec.setReturnData
  Exec.setOutputOffset Exec.setOutputSize Exec.request Exec.Host.call
  Exec.keccak256 Exec.read Exec.Host.accountExists Exec.Host.getStorage Exec.Host.setStorage
  Exec.Host.getBalance Exec.Host.getCodeSize Exec.Host.getCodeHash Exec.Host.copyCode
  Exec.Host.selfdestruct Exec.Host.getTxContext Exec.Host.getBlockHash Exec.Host.emitLog
  Exec.Host.accessAccount Exec.Host.accessStorage footprint_exit footprint_fault

theorem exits_popTopics (n : Nat) : (popTopics n).Uses (Op.ExitsIn P) := by
  induction n with
  | zero => trivial
  | succ n ih =>
      unfold popTopics
      exact Uses.bind (by simp) fun topic => Uses.bind ih fun topics => trivial

/-- An instruction without dynamic cost does not leave the loop. -/
theorem exits_plain {op : Opcode} {f : Context → Exec Unit} (hop : Baseline.op2fn op = .basic f)
    (hcost : op.hasDynamicCost = false) : (f ctx).Uses (Op.ExitsIn P) := by
  cases op with
  | add | mul | signextend | lt | gt | slt | sgt | and_ | or_ | xor_ | byte | shl | shr | sar |
      sub | div | sdiv | mod | smod | eq | addmod | mulmod | iszero | not_ =>
      cases hop
      simp [add, mul, signextend, lt, gt, slt, sgt, and_, or_, xor_, byte, shl, shr, sar, sub, div,
        sdiv, mod, smod, eq, addmod, mulmod, iszero, not_, popIntoTop, intoSecond, popTwoIntoTop,
        mapTop]
  | origin | gasprice | coinbase | timestamp | number | difficulty | gaslimit | chainid | basefee =>
      cases hop
      simp [origin, gasprice, coinbase, timestamp, number, difficulty, gaslimit, chainid, basefee,
        pushTxContext]
  | address | caller | callvalue | calldataload | calldatasize | codesize | returndatasize |
      blockhash | selfbalance | pop | msize | gas | jumpdest | dup | swap =>
      cases hop
      simp [address, caller, callvalue, calldataload, calldatasize, codesize, returndatasize,
        blockhash, selfbalance, Instructions.pop, msize, gas, jumpdest, dup, swap]
  | stop | jump | jumpi | pc | push | return_ | revert | invalid | selfdestruct => cases hop
  | _ => cases hcost

theorem exits_log (n : Fin 5) : (log n ctx).Uses (Op.ExitsIn ((Opcode.log n).MayExit ctx)) := by
  simp only [log]
  split
  · rename_i hstatic
    simp [Opcode.MayExit, Opcode.changesState, hstatic]
  · simp [Opcode.MayExit, Opcode.hasDynamicCost]
    exact exits_popTopics _

theorem Op.Settles.exitsIn {o : Op} (h : o.Settles) : o.ExitsIn P := by
  cases o with
  | charge | checkMemory | exit => exact h.elim
  | _ => trivial

/-- A call is refused in a static frame only if it is a CALL that has a value. -/
theorem exits_callCost {kind : CallKind} {hasValue : Bool} {dst : Address}
    (hstatic : kind = .call → hasValue = true → ctx.msg.isStatic = true → P .staticModeViolation) :
    (callCost kind ctx dst hasValue).Uses (Op.ExitsIn P) := by
  unfold callCost
  dsimp only
  by_cases hkind : kind = .call
  · rw [if_pos hkind]
    by_cases hrefused : hasValue = true ∧ ctx.msg.isStatic = true
    · rw [if_pos hrefused]
      simpa using hstatic hkind hrefused.1 hrefused.2
    · rw [if_neg hrefused]
      simp
  · rw [if_neg hkind]
    trivial

theorem exits_readCall {kind : CallKind} {isStatic : Bool} (hgas : P .outOfGas) :
    (readCall kind isStatic ctx).Sat (Footprint (Op.ExitsIn P))
      (fun x _ => isStatic = true → x.value = 0) () := by
  cases isStatic with
  | false => simp [readCall, popCallValue, chargeColdAccount, loadRegion, hgas]
  | true => simp [readCall, popCallValue, chargeColdAccount, loadRegion, hgas]

theorem exits_forwardGas {gas value : UInt256} (hgas : P .outOfGas) :
    (forwardGas ctx gas value).Uses (Op.ExitsIn P) := by
  simp [forwardGas, callGas, allButOne64th, addStipend, hgas]

theorem exits_call {op : Opcode} {kind : CallKind} {isStatic : Bool}
    (hcost : op.hasDynamicCost = true) (hop : kind = .call → isStatic = false → op = .call) :
    (call kind isStatic ctx).Uses (Op.ExitsIn (op.MayExit ctx)) := by
  rw [call_eq]
  have hgas : op.MayExit ctx .outOfGas := hcost
  refine Uses.bind ?_ fun x => Uses.bind (exits_forwardGas hgas) fun msgGas => ?_
  · rw [payCall, Uses, sat_bind]
    refine Sat.mono (footprint_monotone _) (exits_readCall hgas) fun x _ hvalue => ?_
    refine Uses.bind (exits_callCost fun hkind hnonzero hstatic => ?_) fun cost => ?_
    · have hdynamic : isStatic = false := by
        by_contra hne
        rw [hvalue (by simpa using hne)] at hnonzero
        cases hnonzero
      exact ⟨hstatic, .inr (hop hkind hdynamic)⟩
    · simpa using hgas
  · exact (uses_gated (uses_sendCall _ _ _) _).mono fun _ h => h.exitsIn

theorem exits_create {op : Opcode} {kind : CallKind} (hcost : op.hasDynamicCost = true)
    (hop : op.changesState = true) : (create kind ctx).Uses (Op.ExitsIn (op.MayExit ctx)) := by
  rw [create_eq]
  refine Uses.bind ?_ fun x => ?_
  · simp [payCreate, popSalt, Opcode.MayExit, hcost, hop]
  · exact (uses_gated (uses_forwardCreate kind x) _).mono fun _ h => h.exitsIn

/-- The exits of an instruction that continues. -/
theorem exits_basic {op : Opcode} {f : Context → Exec Unit} (hop : Baseline.op2fn op = .basic f) :
    (f ctx).Uses (Op.ExitsIn (op.MayExit ctx)) := by
  cases hcost : op.hasDynamicCost with
  | false => exact exits_plain hop hcost
  | true =>
      cases op with
      | exp | keccak256 | balance | calldatacopy | codecopy | extcodesize | extcodecopy |
          returndatacopy | extcodehash | mload | mstore | mstore8 | sload =>
          cases hop
          simp [exp, Instructions.keccak256, balance, calldatacopy, codecopy, extcodesize,
            extcodecopy, returndatacopy, extcodehash, mload, mstore, mstore8, sload, accountQuery,
            chargeColdAccount, copyWindow, Opcode.MayExit, Opcode.hasDynamicCost]
      | sstore =>
          cases hop
          simp [sstore, Opcode.MayExit, Opcode.hasDynamicCost, Opcode.changesState]
      | log n =>
          cases hop
          exact exits_log n
      | call | callcode | delegatecall | staticcall =>
          cases hop
          exact exits_call rfl (by decide)
      | create | create2 =>
          cases hop
          exact exits_create rfl rfl
      | return_ | revert | selfdestruct => cases hop
      | _ => cases hcost

/-- The exits of an instruction that does not continue. -/
theorem exits_terminating {op : Opcode} {f : Context → Exec StatusCode}
    (hop : Baseline.op2fn op = .terminating f) :
    (f ctx >>= fun status => (Exec.exit status : Exec α)).Uses (Op.ExitsIn (op.MayExit ctx)) := by
  cases op with
  | stop | return_ | revert | invalid =>
      cases hop
      simp [stop, return_, invalid, Opcode.MayExit, Opcode.hasDynamicCost]
  | selfdestruct =>
      cases hop
      simp [selfdestruct, chargeColdAccount, chargeNewBeneficiary, Opcode.MayExit,
        Opcode.hasDynamicCost, Opcode.changesState]
  | _ => cases hop

theorem exits_codePosition (ctx : Context) {op : Opcode}
    {f : Baseline.CodeAnalysis → Nat → Exec Nat} (hop : Baseline.op2fn op = .codePosition f)
    (analysis : Baseline.CodeAnalysis) (pos : Nat) :
    (f analysis pos).Uses (Op.ExitsIn (op.MayExit ctx)) := by
  cases op with
  | jump | jumpi | pc | push =>
      cases hop
      simp [Baseline.jump, Baseline.jumpi, Baseline.jumpImpl, Baseline.pc, Baseline.push,
        Opcode.MayExit]
  | _ => cases hop

/-- After its checks, RETURNDATACOPY can only run out of gas. -/
theorem exits_copyReturnData (data : Buffer) (dst src size : Nat) :
    (do
      Exec.charge (numWords size * 3)
      if 0 < size then
        let bytes ← Exec.read data.bytes src size
        Exec.store dst bytes : Exec Unit).Uses (Op.ExitsIn fun status => status = .outOfGas) := by
  simp

/-- After its value has been read, a CALL without one is not refused in a static frame. -/
theorem exits_call_of_value (gas x value : UInt256) :
    (do
      let inputOffset ← Exec.pop
      let inputSize ← Exec.pop
      let outputOffset ← Exec.pop
      let outputSize ← Exec.pop
      Exec.push 0
      chargeColdAccount ctx x.toAddress instr.additionalColdAccountAccessCost
      Exec.checkMemory inputOffset inputSize
      Exec.checkMemory outputOffset outputSize
      let input ← loadRegion inputOffset inputSize
      let cost ← callCost .call ctx x.toAddress (value != 0)
      Exec.charge cost
      let msgGas ← callGas ctx gas
      let msgGas ← addStipend (value != 0) msgGas
      Exec.setReturnData Buffer.empty
      if 1024 ≤ ctx.msg.depth then
        pure ()
      else
        let enough ← hasBalance ctx value
        if enough then
          sendCall (callMessage .call false ctx x.toAddress value input msgGas) outputOffset
            outputSize
        else pure () : Exec Unit).Uses
      (Op.ExitsIn fun status => status = .staticModeViolation → value ≠ 0) := by
  by_cases hvalue : value = 0
  · simp [chargeColdAccount, loadRegion, callCost, callGas, allButOne64th, addStipend, hasBalance,
      sendCall, storeOutput, spendGas, hvalue]
  · have hany : (fun status : StatusCode => status = .staticModeViolation → value ≠ 0) =
        fun _ => True := funext fun _ => propext ⟨fun _ => trivial, fun _ _ => hvalue⟩
    rw [hany]
    simp [chargeColdAccount, loadRegion, callCost, callGas, allButOne64th, addStipend, hasBalance,
      sendCall, storeOutput, spendGas]

end Uses

/-! ## The operands that are to blame -/

section Operands

variable {env : Env σ} {ctx : Context} {s s' : ExecutionState σ} {status : StatusCode} {α : Type}

theorem run_pop_eq_exit {f : UInt256 → Exec α}
    (h : Exec.run env (Exec.pop >>= f) s = .exit status s') :
    ∃ x stack, s.stack.items = x :: stack.items ∧
      (f x).run env { s with stack := stack } = .exit status s' := by
  rw [Exec.run, run_bind] at h
  by_cases hpos : 0 < s.stack.height
  · obtain ⟨x, stack, hpop, hitems⟩ := Stack.pop?_of_pos hpos
    have hhandle : run (handle env) Exec.pop s = .ok x { s with stack := stack } := by
      rw [Exec.pop, Exec.perform, run_perform]
      simp only [handle, hpop]
    rw [hhandle] at h
    exact ⟨x, stack, hitems, h⟩
  · have hhandle : run (handle env) Exec.pop s = .fault .stack := by
      rw [Exec.pop, Exec.perform, run_perform]
      simp only [handle, Stack.pop?_of_not_pos hpos]
    rw [hhandle] at h
    cases h

/-- RETURNDATACOPY reads beyond the return data. -/
theorem returndatacopy_exit
    (h : (returndatacopy ctx).run env s = .exit .invalidMemoryAccess s') :
    ∃ index size, s.stack.get? 1 = some index ∧ s.stack.get? 2 = some size ∧
      s.returnData.size < index.toNat + size.toNat := by
  obtain ⟨memIndex, stack1, hitems1, h⟩ := run_pop_eq_exit h
  obtain ⟨index, stack2, hitems2, h⟩ := run_pop_eq_exit h
  obtain ⟨size, stack3, hitems3, h⟩ := run_pop_eq_exit h
  dsimp only at hitems2 hitems3 h
  refine ⟨index, size, ?_, ?_, ?_⟩
  · rw [Stack.get?_eq, hitems1, hitems2]
    rfl
  · rw [Stack.get?_eq, hitems1, hitems2, hitems3]
    rfl
  · rw [Exec.run, run_bind] at h
    rcases Outcome.bind_eq_exit h with h | ⟨_, s1, hcheck, h⟩
    · -- a region that cannot be paid for is out of gas
      have hgas := run_exitsIn (P := fun status => status = .outOfGas)
        (p := Exec.checkMemory memIndex size) ⟨rfl, fun _ => trivial⟩ h
      cases hgas
    · have hgrows := grows_handle env { s with stack := stack3 } memIndex (.u256 size)
      rw [Exec.checkMemory, Exec.perform, run_perform] at hcheck
      rw [hcheck] at hgrows
      obtain ⟨memory, gas, ghost, rfl, -⟩ := hgrows
      by_contra hwithin
      have hindex : ¬ s.returnData.size < index.toNat := by omega
      have hend : ¬ s.returnData.size < (index.toSize + size.toSize) % 2 ^ 64 := by
        have h1 := Nat.mod_le (index.toSize + size.toSize) (2 ^ 64)
        have h2 : index.toSize ≤ index.toNat := Nat.mod_le _ _
        have h3 : size.toSize ≤ size.toNat := Nat.mod_le _ _
        omega
      simp only [Exec.returnData, Exec.perform] at h
      rw [run_bind, run_perform] at h
      simp only [handle, Outcome.bind] at h
      rw [if_neg hindex, if_neg hend] at h
      cases run_exitsIn (exits_copyReturnData s.returnData memIndex.toSize index.toSize
        size.toSize) h

/-- A CALL that is refused in a static frame has a value. -/
theorem call_exit (h : (call .call false ctx).run env s = .exit .staticModeViolation s') :
    ∃ value, s.stack.get? 2 = some value ∧ value ≠ 0 := by
  obtain ⟨gas, stack1, hitems1, h⟩ := run_pop_eq_exit h
  obtain ⟨x, stack2, hitems2, h⟩ := run_pop_eq_exit h
  obtain ⟨value, stack3, hitems3, h⟩ := run_pop_eq_exit h
  dsimp only at hitems2 hitems3
  refine ⟨value, ?_, run_exitsIn (exits_call_of_value gas x value) h rfl⟩
  rw [Stack.get?_eq, hitems1, hitems2, hitems3]
  rfl

/-- A jump that Baseline refuses. -/
theorem jump_exit {uninit : Nat → Byte} {code : List Byte} (hlt : code.length < 2 ^ 63)
    {pos : Nat}
    (h : (Baseline.jump (Baseline.analyze uninit code) pos).run env s = .exit status s') :
    ∃ dst, s.stack.get? 0 = some dst ∧ ¬ Baseline.JumpTarget code dst.toNat := by
  obtain ⟨dst, stack1, hitems1, h⟩ := run_pop_eq_exit h
  refine ⟨dst, ?_, ?_⟩
  · rw [Stack.get?_eq, hitems1]
    rfl
  · rcases Baseline.jumpImpl_eq uninit hlt dst with ⟨-, heq⟩ | ⟨hbad, -⟩
    · rw [heq] at h
      cases h
    · exact hbad

theorem jumpi_exit {uninit : Nat → Byte} {code : List Byte} (hlt : code.length < 2 ^ 63)
    {pos : Nat}
    (h : (Baseline.jumpi (Baseline.analyze uninit code) pos).run env s = .exit status s') :
    ∃ dst cond, s.stack.get? 0 = some dst ∧ s.stack.get? 1 = some cond ∧ cond ≠ 0 ∧
      ¬ Baseline.JumpTarget code dst.toNat := by
  obtain ⟨dst, stack1, hitems1, h⟩ := run_pop_eq_exit h
  obtain ⟨cond, stack2, hitems2, h⟩ := run_pop_eq_exit h
  dsimp only at hitems2
  refine ⟨dst, cond, ?_, ?_, ?_⟩
  · rw [Stack.get?_eq, hitems1]
    rfl
  · rw [Stack.get?_eq, hitems1, hitems2]
    rfl
  · by_cases hcond : cond = 0
    · rw [if_neg (not_not.2 hcond)] at h
      cases h
    · rw [if_pos hcond] at h
      refine ⟨hcond, ?_⟩
      rcases Baseline.jumpImpl_eq uninit hlt dst with ⟨-, heq⟩ | ⟨hbad, -⟩
      · rw [heq] at h
        cases h
      · exact hbad

/-- The status an implementation leaves the loop with has its cause, if the operands are to blame
where they should be. -/
theorem cause_of_mayExit {op : Opcode} (h : op.MayExit ctx status)
    (hjump : status = .badJumpDestination → ∃ dst, s.stack.get? 0 = some dst ∧
      (op = .jumpi → ∃ cond, s.stack.get? 1 = some cond ∧ cond ≠ 0) ∧
      ¬ Baseline.JumpTarget ctx.code.bytes dst.toNat)
    (hcall : op = .call → status = .staticModeViolation →
      ∃ value, s.stack.get? 2 = some value ∧ value ≠ 0)
    (hcopy : status = .invalidMemoryAccess → ∃ index size, s.stack.get? 1 = some index ∧
      s.stack.get? 2 = some size ∧ s.returnData.size < index.toNat + size.toNat) :
    Cause ctx op s status := by
  cases status with
  | success => exact .ends h
  | revert => exact .reverts h
  | outOfGas => exact .gas h
  | invalidInstruction => exact .invalid h
  | badJumpDestination =>
      obtain ⟨dst, hdst, hcond, hbad⟩ := hjump rfl
      exact .jump hdst (h.imp_right fun hjumpi => ⟨hjumpi, hcond hjumpi⟩) hbad
  | staticModeViolation =>
      obtain ⟨hstatic, hop⟩ := h
      exact .static hstatic (hop.imp_right fun hop => ⟨hop, hcall hop rfl⟩)
  | invalidMemoryAccess =>
      obtain ⟨index, size, hindex, hsize, hbeyond⟩ := hcopy rfl
      exact .returnData h hindex hsize hbeyond
  | failure | undefinedInstruction | stackOverflow | stackUnderflow | other => exact h.elim

/-- A cause depends on the stack and the return data alone. -/
theorem cause_congr {op : Opcode} {t : ExecutionState σ} (hstack : t.stack = s.stack)
    (hreturn : t.returnData = s.returnData)
    (h : Cause ctx op t status) : Cause ctx op s status := by
  cases h with
  | ends h => exact .ends h
  | reverts h => exact .reverts h
  | invalid h => exact .invalid h
  | gas h => exact .gas h
  | jump hdst h hbad => exact .jump (hstack ▸ hdst) (hstack ▸ h) hbad
  | static hstatic h => exact .static hstatic (hstack ▸ h)
  | returnData h hindex hsize hbeyond =>
      exact .returnData h (hstack ▸ hindex) (hstack ▸ hsize) (hreturn ▸ hbeyond)

end Operands

/-! ## Baseline -/

namespace Baseline

variable {i : Invocation σ} {pos : Nat} {s s' : ExecutionState σ} {status : StatusCode}

/-- The cause of an exit of an instruction that may continue. -/
theorem cause_of_basic {env : Env σ} {ctx : Context} {op : Opcode} {f : Context → Exec Unit}
    (hop : op2fn op = .basic f) (h : (f ctx).run env s = .exit status s') :
    Cause ctx op s status := by
  have hmay := run_exitsIn (exits_basic hop) h
  refine cause_of_mayExit hmay ?_ ?_ ?_
  · rintro rfl
    rcases hmay with rfl | rfl <;> cases hop
  · rintro rfl rfl
    cases hop
    exact call_exit h
  · rintro rfl
    cases hmay
    cases hop
    exact returndatacopy_exit h

/-- An instruction that does not continue is not a jump, a call or a copy. -/
theorem cause_of_terminates {ctx : Context} {op : Opcode} {f : Context → Exec StatusCode}
    (hop : op2fn op = .terminating f) (hmay : op.MayExit ctx status) : Cause ctx op s status := by
  refine cause_of_mayExit hmay ?_ ?_ ?_
  · rintro rfl
    rcases hmay with rfl | rfl <;> cases hop
  · rintro rfl
    cases hop
  · rintro rfl
    cases hmay
    cases hop

theorem cause_of_invoke {op : Opcode}
    (h : (invoke (op2fn op) (analysisOf i) i.ctx pos).run i.env s = .exit status s') :
    Cause i.ctx op s status := by
  cases hop : op2fn op with
  | basic f =>
      rw [hop] at h
      exact cause_of_basic hop (exit_of_bind_pure h)
  | terminating f =>
      rw [hop] at h
      exact cause_of_terminates hop (run_exitsIn (exits_terminating hop) h)
  | codePosition f =>
      rw [hop] at h
      have hmay := run_exitsIn (exits_codePosition i.ctx hop (analysisOf i) pos) h
      refine cause_of_mayExit hmay ?_ ?_ ?_
      · rintro rfl
        rcases hmay with rfl | rfl
        · cases hop
          have hjump : (jump (analyze i.uninitCode i.ctx.code.bytes) pos).run i.env s = _ := h
          obtain ⟨dst, hdst, hbad⟩ := jump_exit i.ctx.code.size_lt hjump
          exact ⟨dst, hdst, by simp, hbad⟩
        · cases hop
          have hjumpi : (jumpi (analyze i.uninitCode i.ctx.code.bytes) pos).run i.env s = _ := h
          obtain ⟨dst, cond, hdst, hcond, hne, hbad⟩ := jumpi_exit i.ctx.code.size_lt hjumpi
          exact ⟨dst, hdst, fun _ => ⟨cond, hcond, hne⟩, hbad⟩
      · rintro rfl
        cases hop
      · rintro rfl
        cases hmay
        cases hop

end Baseline

/-! ## Advanced -/

namespace Advanced

section Exits

variable {ctx : Context} {P : StatusCode → Prop}

attribute [local simp] Uses Footprint Op.ExitsIn Exec.perform Exec.pop Exec.push Exec.peek
  Exec.gasLeft Exec.int64 Exec.checkMemory Exec.setOutputOffset Exec.setOutputSize footprint_exit
  footprint_fault

theorem exits_argNumber (arg : Argument) : (argNumber arg).Uses (Op.ExitsIn P) := by
  cases arg with
  | number n => trivial
  | _ => simp [argNumber]

theorem exits_jumpTo (hbad : P .badJumpDestination) (target : Option Nat) :
    (jumpTo target).Uses (Op.ExitsIn P) := by
  cases target with
  | none => simpa [jumpTo] using hbad
  | some target => trivial

theorem exits_popJumpTarget (analysis : AdvancedCodeAnalysis) :
    (popJumpTarget analysis).Uses (Op.ExitsIn P) := by
  simp [popJumpTarget]

theorem exits_opJump (ctx : Context) (analysis : AdvancedCodeAnalysis) :
    (opJump analysis).Uses (Op.ExitsIn (Opcode.jump.MayExit ctx)) :=
  Uses.bind (exits_popJumpTarget analysis) (exits_jumpTo (.inl rfl))

theorem exits_opJumpi (ctx : Context) (analysis : AdvancedCodeAnalysis) (ip : Nat) :
    (opJumpi analysis ip).Uses (Op.ExitsIn (Opcode.jumpi.MayExit ctx)) := by
  refine Uses.bind (by simp) fun cond => ?_
  split
  · refine Uses.bind (exits_popJumpTarget analysis) fun target => ?_
    exact Uses.bind (by simp) fun _ => exits_jumpTo (.inr rfl) target
  · simp

/-- The entries that only push a value do not leave the loop. -/
theorem exits_pushes {fn : ExecFn} (analysis : AdvancedCodeAnalysis) (cost : Nat) (arg : Argument)
    (ip : Nat) (hfn : fn = .opPc ∨ fn = .opGas ∨ fn = .opPushSmall ∨ fn = .opPushFull) :
    (exec analysis cost ctx fn arg ip).Uses (Op.ExitsIn P) := by
  rcases hfn with rfl | rfl | rfl | rfl
  · exact Uses.bind (Uses.bind (exits_argNumber arg) fun number => by simp) fun _ => trivial
  · exact Uses.bind (Uses.bind (exits_argNumber arg) fun number => by simp) fun _ => trivial
  · refine Uses.bind ?_ fun _ => trivial
    cases arg with
    | smallPushValue value => simp [opPushSmall]
    | _ => simp [opPushSmall]
  · refine Uses.bind ?_ fun _ => trivial
    unfold opPushFull
    split
    · split
      · simp
      · simp
    · simp

theorem exits_opReturn (ctx : Context) (op : Opcode) {t : StatusCode} (hstatus : op.MayExit ctx t)
    (hgas : op.MayExit ctx .outOfGas) :
    (exitWith (opReturn t)).Uses (Op.ExitsIn (op.MayExit ctx)) := by
  simp [exitWith, opReturn, hstatus, hgas]

end Exits

variable {env : Env σ} {s s' : ExecutionState σ} {status : StatusCode}

theorem run_peek_eq_exit {α : Type} {index : Nat} {f : UInt256 → Exec α}
    (h : Exec.run env (Exec.peek index >>= f) s = .exit status s') :
    ∃ x, s.stack.get? index = some x ∧ (f x).run env s = .exit status s' := by
  rw [Exec.run, run_bind, Exec.peek, Exec.perform, run_perform] at h
  simp only [handle] at h
  cases hget : s.stack.get? index with
  | none =>
      rw [hget] at h
      cases h
  | some x =>
      rw [hget] at h
      exact ⟨x, rfl, h⟩

/-- A target that is looked up and not found is not a jump destination. -/
theorem popJumpTarget_exit {rev : Revision} {code : List Byte} (hsize : code.length < 2 ^ 30)
    {α : Type} {f : Option Nat → Exec α}
    (hsome : ∀ target t, (f (some target)).run env t ≠ .exit status s')
    (h : Exec.run env (popJumpTarget (analyze rev code) >>= f) s = .exit status s') :
    ∃ dst, s.stack.get? 0 = some dst ∧ ¬ Baseline.JumpTarget code dst.toNat := by
  rw [popJumpTarget, bind_assoc] at h
  obtain ⟨dst, stack, hitems, h⟩ := run_pop_eq_exit h
  refine ⟨dst, ?_, fun htarget => ?_⟩
  · rw [Stack.get?_eq, hitems]
    rfl
  · rcases @findJumpdest_cases rev code hsize dst.toNat with ⟨index, -, hfind⟩ | ⟨hbad, -⟩
    · have hlt : dst.toNat < code.length := htarget.1.2
      rw [if_neg (by omega : ¬ 2 ^ 31 - 1 < dst.toNat)] at h
      dsimp only at h
      rw [hfind, if_neg (by omega : ¬ (index : Int) < 0), pure_bind] at h
      exact hsome _ _ h
    · exact hbad htarget

theorem opJump_exit {rev : Revision} {code : List Byte} (hsize : code.length < 2 ^ 30)
    (h : (opJump (analyze rev code)).run env s = .exit status s') :
    ∃ dst, s.stack.get? 0 = some dst ∧ ¬ Baseline.JumpTarget code dst.toNat := by
  refine popJumpTarget_exit hsize ?_ h
  intro target t ht
  cases ht

theorem opJumpi_exit {rev : Revision} {code : List Byte} (hsize : code.length < 2 ^ 30) {ip : Nat}
    (h : (opJumpi (analyze rev code) ip).run env s = .exit status s') :
    ∃ dst cond, s.stack.get? 0 = some dst ∧ s.stack.get? 1 = some cond ∧ cond ≠ 0 ∧
      ¬ Baseline.JumpTarget code dst.toNat := by
  obtain ⟨cond, hcond, h⟩ := run_peek_eq_exit h
  by_cases hne : cond = 0
  · rw [if_neg (not_not.2 hne)] at h
    obtain ⟨_, _, -, h⟩ := run_pop_eq_exit h
    obtain ⟨_, _, -, h⟩ := run_pop_eq_exit h
    cases h
  · rw [if_pos hne] at h
    obtain ⟨dst, hdst, hbad⟩ := popJumpTarget_exit hsize (fun target t ht => by
      obtain ⟨_, _, -, ht⟩ := run_pop_eq_exit ht
      cases ht) h
    exact ⟨dst, cond, hdst, hcond, hne, hbad⟩

/-- Correcting the gas left adds no cause but the gas itself. -/
theorem cause_of_corrected {ctx : Context} {op : Opcode} {f : Context → Exec Unit} {cost : Nat}
    {arg : Argument} (hop : Baseline.op2fn op = .basic f) (hgas : op.hasDynamicCost = true)
    (h : (corrected cost arg (f ctx)).run env s = .exit status s') : Cause ctx op s status := by
  cases arg with
  | number n =>
      rw [run_corrected] at h
      rcases Outcome.bind_eq_exit h with h | ⟨_, t, -, h⟩
      · exact cause_congr (t := lend s (cost - n)) rfl rfl (Baseline.cause_of_basic hop h)
      · simp only [handle] at h
        split at h
        · injection h with hstatus
          exact hstatus ▸ .gas hgas
        · cases h
  | pushValue | smallPushValue | block => cases h

/-- The cause of an exit of an entry of the table. -/
theorem cause_of_exec {rev : Revision} {ctx : Context} (hsize : ctx.code.bytes.length < 2 ^ 30)
    {op : Opcode} (hjumpdest : op ≠ .jumpdest) {cost : Nat} {arg : Argument} {ip : Nat}
    (h : (exec (analyze rev ctx.code.bytes) cost ctx (instructionImplementations op) arg ip).run env
      s = .exit status s') : Cause ctx op s status := by
  by_cases hgas : op = .gas
  · subst hgas
    exact (run_exitsIn (P := fun _ => False) (exits_pushes _ cost arg ip (.inr (.inl rfl))) h).elim
  have himpl := implemented op
  generalize hbase : Baseline.op2fn op = base at himpl
  generalize hfn : instructionImplementations op = fn at himpl h
  cases himpl with
  | plain hreads => exact Baseline.cause_of_basic hbase (exit_of_bind_pure h)
  | corrected hexec hreads =>
      rw [hexec] at h
      have hdynamic : op.hasDynamicCost = true := by
        cases op with
        | gas => exact absurd rfl hgas
        | sstore | call | callcode | delegatecall | staticcall | create | create2 => rfl
        | _ => cases hreads
      exact cause_of_corrected hbase hdynamic (exit_of_bind_pure h)
  | jumpdest => exact absurd rfl hjumpdest
  | jump =>
      have hmay := run_exitsIn (exits_opJump ctx _) h
      refine cause_of_mayExit hmay ?_ ?_ ?_
      · intro _
        obtain ⟨dst, hdst, hbad⟩ := opJump_exit hsize h
        exact ⟨dst, hdst, by simp, hbad⟩
      · simp
      · rintro rfl
        cases hmay
  | jumpi =>
      have hmay := run_exitsIn (exits_opJumpi ctx _ ip) h
      refine cause_of_mayExit hmay ?_ ?_ ?_
      · intro _
        obtain ⟨dst, cond, hdst, hcond, hne, hbad⟩ := opJumpi_exit hsize h
        exact ⟨dst, hdst, fun _ => ⟨cond, hcond, hne⟩, hbad⟩
      · simp
      · rintro rfl
        cases hmay
  | gas => exact absurd rfl hgas
  | pc | pushSmall | pushFull =>
      exact (run_exitsIn (P := fun _ => False) (exits_pushes _ cost arg ip (by simp)) h).elim
  | return_ hkeeps =>
      cases op with
      | return_ =>
          cases hfn
          have hexits := exits_opReturn ctx .return_ (t := .success) (.inr (.inl rfl)) rfl
          exact Baseline.cause_of_terminates rfl (run_exitsIn hexits h)
      | revert =>
          cases hfn
          have hexits := exits_opReturn ctx .revert (t := .revert) rfl rfl
          exact Baseline.cause_of_terminates rfl (run_exitsIn hexits h)
      | push n =>
          simp only [instructionImplementations] at hfn
          split at hfn <;> cases hfn
      | _ => cases hfn
  | terminating hexec =>
      rw [hexec] at h
      exact Baseline.cause_of_terminates hbase (run_exitsIn (exits_terminating hbase) h)

end Advanced

/-! ## The last round -/

namespace Baseline

variable {i : Invocation σ} {pos : Nat} {s : ExecutionState σ} {status : StatusCode}

/-- Why the loop is left at the byte `b`: it fails one of the requirements, or it is executed. -/
inductive Blames (ctx : Context) (b : Byte) (s : ExecutionState σ) : StatusCode → Prop
  | undefined (h : (instructionTable ctx.rev b).gasCost = instr.undefined) :
      Blames ctx b s .undefinedInstruction
  | gas (h : toInt64 (s.gasLeft - (instructionTable ctx.rev b).gasCost) < 0) :
      Blames ctx b s .outOfGas
  | overflow (hfull : s.stack.height = Stack.limit)
      (h : (instructionTable ctx.rev b).canOverflowStack = true) : Blames ctx b s .stackOverflow
  | underflow (h : (s.stack.height : Int) < (instructionTable ctx.rev b).stackHeightRequired) :
      Blames ctx b s .stackUnderflow
  | executed {op : Opcode} {status : StatusCode} (hop : Opcode.ofByte b = some op)
      (h : Cause ctx op s status) : Blames ctx b s status

/-- A requirement that fails is to blame. -/
theorem blames_of_checkRequirements {ctx : Context} {b : Byte} {t : ExecutionState σ}
    (hrev : s.rev = ctx.rev) (h : checkRequirements s b = (status, t)) (hne : status ≠ .success) :
    Blames ctx b s status := by
  unfold checkRequirements at h
  dsimp only at h
  rw [hrev] at h
  by_cases hundefined : (instructionTable ctx.rev b).gasCost = instr.undefined
  · rw [if_pos hundefined] at h
    cases h
    exact .undefined hundefined
  rw [if_neg hundefined] at h
  by_cases hshort : (s.setGas (s.gasLeft - (instructionTable ctx.rev b).gasCost)).gasLeft < 0
  · rw [if_pos hshort] at h
    cases h
    exact .gas hshort
  rw [if_neg hshort] at h
  -- a full stack is tested for overflow only: it holds what any instruction requires
  split at h
  · rename_i hfull
    split at h
    · rename_i hgrows
      cases h
      exact .overflow hfull hgrows
    · cases h
      exact absurd rfl hne
  · split at h
    · rename_i hshallow
      cases h
      exact .underflow hshallow
    · cases h
      exact absurd rfl hne

/-- The requirements take nothing but gas. -/
theorem checkRequirements_frame (s : ExecutionState σ) (b : Byte) :
    (checkRequirements s b).2.toContext = s.toContext ∧
      (checkRequirements s b).2.stack = s.stack ∧
      (checkRequirements s b).2.returnData = s.returnData := by
  rcases checkRequirements_cases s b with ⟨status, s', hcheck, -, rfl | ⟨-, -, rfl⟩⟩ |
    ⟨op, -, -, hcheck, -⟩
  all_goals
    rw [hcheck]
    exact ⟨rfl, rfl, rfl⟩

/-- The last round of the loop. -/
theorem blames_of_step {t : ExecutionState σ} (harrives : Arrives i.ctx.code.bytes 0 pos)
    (hcontext : s.toContext = i.ctx)
    (h : step i.env (analysisOf i) (.running pos s) = some (.halted t)) :
    Blames i.ctx ((i.ctx.code.bytes[pos]?).getD Opcode.stop.toByte) s t.status := by
  have hfetch : (analysisOf i).paddedCode[pos]? = _ :=
    getElem?_paddedCode i.uninitCode i.ctx.code.bytes harrives
  simp only [step, hfetch, Option.some.injEq] at h
  generalize (i.ctx.code.bytes[pos]?).getD Opcode.stop.toByte = b at h
  obtain ⟨hctx, hstack, hreturn⟩ := checkRequirements_frame s b
  cases hcheck : checkRequirements s b with
  | mk status s' =>
      rw [hcheck] at hctx hstack hreturn
      rw [hcheck] at h
      by_cases hsuccess : status = .success
      · -- the requirements are met, so it is the instruction that leaves the loop
        subst hsuccess
        have hdispatch : dispatch i.env (analysisOf i) pos b s' = .halted t := h
        unfold dispatch at hdispatch
        cases hop : Opcode.ofByte b with
        | none =>
            rw [hop] at hdispatch
            cases hdispatch
        | some op =>
            rw [hop, show s'.toContext = i.ctx from hctx.trans hcontext] at hdispatch
            dsimp only at hdispatch
            cases hrun : (invoke (op2fn op) (analysisOf i) i.ctx pos).run i.env s' with
            | ok pos' s'' =>
                rw [hrun] at hdispatch
                cases hdispatch
            | exit status s'' =>
                rw [hrun] at hdispatch
                cases hdispatch
                exact .executed hop (cause_congr hstack hreturn (cause_of_invoke hrun))
            | fault f =>
                rw [hrun] at hdispatch
                cases hdispatch
      · have hstatus : status = t.status := by
          cases status with
          | success => exact absurd rfl hsuccess
          | _ =>
              cases h
              rfl
        exact hstatus ▸ blames_of_checkRequirements (congrArg Context.rev hcontext) hcheck hsuccess

/-- Every final state of an execution was left for a reason. -/
theorem exists_blames (h : Reaches (step i.env (analysisOf i)) (start i) (.halted s)) :
    ∃ pos s0, Reaches (step i.env (analysisOf i)) (start i) (.running pos s0) ∧
      step i.env (analysisOf i) (.running pos s0) = some (.halted s) ∧
      Blames i.ctx ((i.ctx.code.bytes[pos]?).getD Opcode.stop.toByte) s0 s.status := by
  rcases Relation.ReflTransGen.cases_tail h with hstart | ⟨c, hreach, hstep⟩
  · cases hstart
  · cases c with
    | running pos s0 =>
        rcases valid_of_reaches (premises_perhapsFitting i) hreach with ⟨hm, -⟩ | ⟨harrives, hs⟩
        · exact hm.elim
        · exact ⟨pos, s0, hreach, hstep, blames_of_step harrives hs.follows.context hstep⟩
    | halted s0 => cases hstep
    | fault f => cases hstep

end Baseline

namespace Advanced

variable {i : Invocation σ} {ip : Nat} {s : AdvancedExecutionState σ} {status : StatusCode}

/-- The entry at `ip` is the BEGINBLOCK of the block `b`. -/
def BlockAt (rev : Revision) (code : List Byte) (ip : Nat) (b : List Decoded) : Prop :=
  ∃ closed post, blocksOf (decode code) = closed ++ b :: post ∧ ip = (tableOf rev 0 closed).length

/-- The entry at `ip` is that of the instruction `d`. -/
def InstructionAt (rev : Revision) (code : List Byte) (ip : Nat) (d : Decoded) : Prop :=
  ∃ closed done rest post, blocksOf (decode code) = closed ++ (done ++ d :: rest) :: post ∧
    ip = (tableOf rev 0 closed).length + 1 + (entriesOf rev 0 0 done).length

/-- Why the loop is left at the entry `ip`: a block fails one of its requirements, an instruction of
the code is undefined or is executed, or the table ends. -/
inductive Blames (ctx : Context) (ip : Nat) (s : AdvancedExecutionState σ) : StatusCode → Prop
  | gas {b : List Decoded} (hat : BlockAt ctx.rev ctx.code.bytes ip b)
      (h : toInt64 (s.gasLeft - min (baseCost ctx.rev b) (2 ^ 32 - 1)) < 0) :
      Blames ctx ip s .outOfGas
  | underflow {b : List Decoded} (hat : BlockAt ctx.rev ctx.code.bytes ip b)
      (h : s.stack.height < stackRequired ctx.rev b) : Blames ctx ip s .stackUnderflow
  | overflow {b : List Decoded} (hat : BlockAt ctx.rev ctx.code.bytes ip b)
      (h : (Stack.limit : Int) < s.stack.height + maxGrowth ctx.rev b) :
      Blames ctx ip s .stackOverflow
  | undefined {d : Decoded} (hat : InstructionAt ctx.rev ctx.code.bytes ip d)
      (h : instr.gasCost ctx.rev d.opcode = instr.undefined) : Blames ctx ip s .undefinedInstruction
  | executed {d : Decoded} {op : Opcode} {status : StatusCode}
      (hat : InstructionAt ctx.rev ctx.code.bytes ip d) (hop : Opcode.ofByte d.opcode = some op)
      (h : Cause ctx op s.toExecutionState status) : Blames ctx ip s status
  | ended (hip : ip = (tableOf ctx.rev 0 (blocksOf (decode ctx.code.bytes))).length) :
      Blames ctx ip s .success

/-- A requirement of a block that fails is to blame. -/
theorem blames_of_beginblock {ctx : Context} {b : List Decoded} {t : AdvancedExecutionState σ}
    (hsize : ctx.code.bytes.length < 2 ^ 30) (hat : BlockAt ctx.rev ctx.code.bytes ip b)
    (h : opxBeginblock (summarize ctx.rev 0 b).close ip s = .halted t) :
    Blames ctx ip s t.status := by
  obtain ⟨closed, post, hsplit, -⟩ := id hat
  have hlen := length_lt_of_split hsize hsplit
  obtain ⟨hcost, hreq, -⟩ := close_summarize ctx.rev 0 hlen
  have hexact := stack_check_iff ctx.rev 0 hlen s.stack.height_le
  unfold opxBeginblock at h
  dsimp only at h
  split at h
  · rename_i hshort
    cases h
    refine .gas hat ?_
    rw [← hcost]
    exact hshort
  · split at h
    · rename_i hshallow
      cases h
      refine .underflow hat ?_
      have hlt : (s.stack.height : Int) < (summarize ctx.rev 0 b).close.stackReq := hshallow
      omega
    · rename_i hdeep
      split at h
      · rename_i hhigh
        cases h
        refine .overflow hat ?_
        have hle : ¬ (s.stack.height : Int) < (summarize ctx.rev 0 b).close.stackReq := hdeep
        have hgrowth : ((1024 : Nat) : Int) <
            s.stack.height + (summarize ctx.rev 0 b).close.stackMaxGrowth := hhigh
        have hlimit := s.stack.height_le
        -- few items are required, so the growth is exact
        show ((1024 : Nat) : Int) < s.stack.height + maxGrowth ctx.rev b
        omega
      · cases h

/-- The last round of the loop. -/
theorem blames_of_step {t : AdvancedExecutionState σ} {cost height : Nat}
    (hsize : i.ctx.code.bytes.length < 2 ^ 30)
    (hlocated : Located i.ctx.rev i.ctx.code.bytes ip cost height)
    (hcontext : s.toContext = i.ctx)
    (h : step i.env (analysisOf i) (.running ip s) = some (.halted t)) :
    Blames i.ctx ip s t.status := by
  simp only [step, Option.some.injEq] at h
  cases hlocated with
  | @atBlock closed b post _ _ hsplit =>
      have hentry : (analysisOf i).instrs[_]? = _ := getElem?_instrs_of_append hsplit
      rw [hentry] at h
      exact blames_of_beginblock hsize ⟨closed, post, hsplit, rfl⟩ h
  | @inBlock closed done d rest post _ _ hsplit hd =>
      have hentry : (analysisOf i).instrs[_]? = _ := getElem?_instrs_inBlock hsplit hd
      have hat : InstructionAt i.ctx.rev i.ctx.code.bytes _ d :=
        ⟨closed, done, rest, post, hsplit, rfl⟩
      rw [hentry] at h
      dsimp only at h
      rcases decoded_cases i.ctx.rev d with ⟨hundefined, hfn, -⟩ | ⟨op, hop, -, hfn, -⟩
      · rw [hfn] at h
        cases h
        exact .undefined hat hundefined
      · have hjumpdest : op ≠ .jumpdest := by
          rintro rfl
          exact hd (toByte_of_ofByte hop)
        rw [hfn, dispatch_op _ _ hjumpdest, hcontext] at h
        generalize hrun : Exec.run i.env (exec (analysisOf i) _ i.ctx _ _ _) _ = r at h
        cases r with
        | ok ip' s' => cases h
        | exit status s' =>
            cases h
            exact .executed hat hop (cause_of_exec hsize hjumpdest hrun)
        | fault f => cases h
  | atEnd =>
      have hentry : (analysisOf i).instrs[_]? = _ := getElem?_instrs_end
      rw [hentry] at h
      cases h
      exact .ended rfl

/-- Every final state of an execution was left for a reason. -/
theorem exists_blames (hsize : i.ctx.code.bytes.length < 2 ^ 30)
    (h : Reaches (step i.env (analysisOf i)) (start i) (.halted s)) :
    ∃ ip s0, Reaches (step i.env (analysisOf i)) (start i) (.running ip s0) ∧
      step i.env (analysisOf i) (.running ip s0) = some (.halted s) ∧
      Blames i.ctx ip s0 s.status := by
  rcases Relation.ReflTransGen.cases_tail h with hstart | ⟨c, hreach, hstep⟩
  · cases hstart
  · cases c with
    | running ip s0 =>
        rcases blockValid_of_reaches (premises_perhapsFitting i) False.elim hsize hreach with
          ⟨hm, -⟩ | ⟨hs, -, hlocated⟩
        · exact hm.elim
        · exact ⟨ip, s0, hreach, hstep, blames_of_step hsize hlocated hs.follows.context hstep⟩
    | halted s0 => cases hstep
    | fault f => cases hstep

end Advanced

/-! ## Every status has its cause -/

/-- The statuses an interpreter gives. -/
def StatusCode.IsInterpreted : StatusCode → Prop
  | .failure | .other _ => False
  | _ => True

theorem Cause.isInterpreted {ctx : Context} {op : Opcode} {s : ExecutionState σ}
    {status : StatusCode} (h : Cause ctx op s status) : status.IsInterpreted := by
  cases h <;> trivial

theorem Baseline.Blames.isInterpreted {ctx : Context} {b : Byte} {s : ExecutionState σ}
    {status : StatusCode} (h : Baseline.Blames ctx b s status) : status.IsInterpreted := by
  cases h with
  | executed hop h => exact h.isInterpreted
  | _ => trivial

theorem Advanced.Blames.isInterpreted {ctx : Context} {ip : Nat} {s : AdvancedExecutionState σ}
    {status : StatusCode} (h : Advanced.Blames ctx ip s status) : status.IsInterpreted := by
  cases h with
  | executed hat hop h => exact h.isInterpreted
  | _ => trivial

end Ivmone
