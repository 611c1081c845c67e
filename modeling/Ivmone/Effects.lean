import Ivmone.Lib.Footprint
import Ivmone.CallParts
import Ivmone.OpcodeSafety

/-!
# Effects of instructions

The requests an implementation can make. Most instructions only ask the host for something. SSTORE,
LOG, SELFDESTRUCT, the calls and the creations have an effect outside of the execution; each of them
except SSTORE has it after all checks that can fail.
-/

set_option autoImplicit false

namespace Ivmone

open Lib Lib.Program Instructions

/-- `set_storage`, `emit_log`, `selfdestruct` and `call`. -/
def HostRequest.isEffect : HostRequest → Bool
  | .setStorage _ _ _ | .emitLog _ _ _ | .selfdestruct _ _ | .call _ => true
  | _ => false

/-- The calls and creations. -/
def Opcode.isCall : Opcode → Bool
  | .create | .call | .callcode | .delegatecall | .create2 | .staticcall => true
  | _ => false

/-- The effects an instruction other than the calls and creations can have. -/
def Opcode.Effect : Opcode → HostRequest → Prop
  | .sstore, .setStorage _ _ _ => True
  | .log _, .emitLog _ _ _ => True
  | .selfdestruct, .selfdestruct _ _ => True
  | _, _ => False

/-- An operation that does not set the gas counter and only asks the host for something, except for
the given effects. -/
def Op.Asks (effect : HostRequest → Prop) : Op → Prop
  | .setGasLeft _ => False
  | .request q => q.isEffect = false ∨ effect q
  | _ => True

/-- An operation without an effect. -/
def Op.Queries : Op → Prop
  | .request q => q.isEffect = false
  | _ => True

/-- An operation that cannot leave the implementation. -/
def Op.Settles : Op → Prop
  | .charge _ | .checkMemory _ _ | .exit _ => False
  | _ => True

/-- An operation that at most lowers the gas left, by a cost in the range of gas costs. -/
def Op.Pays : Op → Prop
  | .charge cost => 0 ≤ cost ∧ cost < 2 ^ 62
  | .checkMemory _ (.u64 size) => size ≤ maxBufferSize
  | .setGasLeft _ | .int64 _ => False
  | _ => True

/-- An operation that works on the stack alone, or leaves the implementation. -/
def Op.OnStack : Op → Prop
  | .pop | .push _ | .peek _ | .exit _ => True
  | .fault f => f ≠ .growth
  | _ => False

/-- An operation that leaves the gas counter as it is. -/
def Op.KeepsGas : Op → Prop
  | .charge _ | .checkMemory _ _ | .setGasLeft _ => False
  | _ => True

/-- An operation that leaves the memory as it is. -/
def Op.KeepsMemory : Op → Prop
  | .checkMemory _ _ | .store _ _ => False
  | _ => True

theorem Op.Asks.queries {o : Op} (h : o.Asks fun _ => False) : o.Queries := by
  cases o with
  | request q => exact h.resolve_right id
  | _ => trivial

/-! ## LOG and SELFDESTRUCT up to their effect -/

namespace Instructions

/-- LOG up to its last charge: the memory region and the topics. -/
def payLog (numTopics : Fin 5) (ctx : Context) : Exec (UInt256 × UInt256 × List UInt256) := do
  if ctx.msg.isStatic then
    Exec.exit .staticModeViolation
  let offset ← Exec.pop
  let size ← Exec.pop
  Exec.checkMemory offset size
  Exec.charge (toInt64 size.toSize * 8)
  let topics ← popTopics numTopics
  pure (offset, size, topics)

/-- The request of LOG. -/
def sendLog (ctx : Context) (offset size : UInt256) (topics : List UInt256) : Exec Unit := do
  let data ← if size.toSize ≠ 0 then Exec.load offset.toSize size.toSize else pure []
  Exec.Host.emitLog ctx.msg.recipient data topics

theorem log_eq (numTopics : Fin 5) (ctx : Context) :
    log numTopics ctx =
      payLog numTopics ctx >>= fun x => sendLog ctx x.1 x.2.1 x.2.2 := by
  simp only [log, payLog, sendLog, ite_bind, bind_assoc, pure_bind]

/-- SELFDESTRUCT up to its request: the beneficiary. -/
def paySelfdestruct (ctx : Context) : Exec Address := do
  if ctx.msg.isStatic then
    Exec.exit .staticModeViolation
  let x ← Exec.peek 0
  chargeColdAccount ctx x.toAddress instr.coldAccountAccessCost
  chargeNewBeneficiary ctx x.toAddress
  pure x.toAddress

theorem selfdestruct_eq (ctx : Context) :
    selfdestruct ctx =
      paySelfdestruct ctx >>= fun beneficiary =>
        Exec.Host.selfdestruct ctx.msg.recipient beneficiary >>= fun _ => pure .success := by
  simp only [selfdestruct, paySelfdestruct, ite_bind, bind_assoc, pure_bind]

/-- SSTORE up to its request: the key, the value and the cost of a cold access. -/
def paySstore (ctx : Context) : Exec (UInt256 × UInt256 × Int) := do
  if ctx.msg.isStatic then
    Exec.exit .staticModeViolation
  if Revision.istanbul ≤ ctx.rev then
    let gas ← Exec.gasLeft
    if gas ≤ 2300 then
      Exec.exit .outOfGas
  let key ← Exec.pop
  let value ← Exec.pop
  if Revision.berlin ≤ ctx.rev then
    let access ← Exec.Host.accessStorage ctx.msg.recipient key
    pure (key, value, if access = .cold then instr.coldSloadCost else 0)
  else pure (key, value, 0)

theorem sstore_eq (ctx : Context) :
    sstore ctx =
      paySstore ctx >>= fun x =>
        Exec.Host.setStorage ctx.msg.recipient x.1 x.2.1 >>= fun status =>
          Exec.charge (sstoreCost ctx.rev x.2.2 status) := by
  simp only [sstore, paySstore, ite_bind, bind_assoc, pure_bind]

end Instructions

/-! ## The requests of the implementations -/

section Uses

variable {effect : HostRequest → Prop} {ctx : Context} {α : Type}

attribute [local simp] Uses Footprint Op.OnStack Op.Asks Op.Queries Op.Settles Op.Pays
  Op.KeepsGas Op.KeepsMemory Exec.perform Exec.pop Exec.push Exec.peek Exec.poke
  Exec.top Exec.setTop Exec.charge Exec.checkMemory Exec.checkMemory64 Exec.load Exec.store
  Exec.memorySize Exec.gasLeft Exec.setGasLeft Exec.int64 Exec.returnData Exec.setReturnData
  Exec.setOutputOffset Exec.setOutputSize Exec.request Exec.Host.call
  Exec.keccak256 Exec.read Exec.Host.accountExists Exec.Host.getStorage Exec.Host.setStorage
  Exec.Host.getBalance Exec.Host.getCodeSize Exec.Host.getCodeHash Exec.Host.copyCode
  Exec.Host.selfdestruct Exec.Host.getTxContext Exec.Host.getBlockHash Exec.Host.emitLog
  Exec.Host.accessAccount Exec.Host.accessStorage HostRequest.isEffect Opcode.Effect

@[local simp] theorem footprint_exit {P : Op → Prop} (status : StatusCode) (Q : α → Unit → Prop) :
    (Exec.exit status).Sat (Footprint P) Q () ↔ P (.exit status) :=
  ⟨fun h => h.1, fun h => ⟨h, nofun⟩⟩

@[local simp] theorem footprint_fault {P : Op → Prop} (f : Fault) (Q : α → Unit → Prop) :
    (Exec.fault f : Exec α).Sat (Footprint P) Q () ↔ P (.fault f) :=
  ⟨fun h => h.1, fun h => ⟨h, nofun⟩⟩

theorem uses_popTopics (n : Nat) : (popTopics n).Uses (Op.Asks effect) := by
  induction n with
  | zero => trivial
  | succ n ih =>
      unfold popTopics
      refine Uses.bind (by simp) fun topic => Uses.bind ih fun topics => trivial

theorem uses_chargeColdAccount (addr : Address) (cost : Int) :
    (chargeColdAccount ctx addr cost).Uses (Op.Asks effect) := by
  simp [chargeColdAccount]

theorem uses_accountQuery {query : Address → Exec UInt256}
    (hquery : ∀ addr, (query addr).Uses (Op.Asks effect)) :
    (accountQuery ctx query).Uses (Op.Asks effect) := by
  unfold accountQuery
  refine Uses.bind (by simp) fun x => Uses.bind (uses_chargeColdAccount _ _) fun _ => ?_
  exact Uses.bind (hquery _) fun y => by simp

theorem uses_popIntoTop (f : UInt256 → UInt256 → UInt256) :
    (popIntoTop f).Uses (Op.Asks effect) := by
  simp [popIntoTop]

theorem uses_intoSecond (f : UInt256 → UInt256 → UInt256) :
    (intoSecond f).Uses (Op.Asks effect) := by
  simp [intoSecond]

theorem uses_popTwoIntoTop (f : UInt256 → UInt256 → UInt256 → UInt256) :
    (popTwoIntoTop f).Uses (Op.Asks effect) := by
  simp [popTwoIntoTop]

theorem uses_mapTop (f : UInt256 → UInt256) : (mapTop f).Uses (Op.Asks effect) := by
  simp [mapTop]

theorem uses_pushTxContext (field : TxContext → UInt256) :
    (pushTxContext field).Uses (Op.Asks effect) := by
  simp [pushTxContext]

theorem uses_copyWindow (source : List Byte) : (copyWindow source).Uses (Op.Asks effect) := by
  simp [copyWindow]

theorem uses_extcodecopy : (extcodecopy ctx).Uses (Op.Asks effect) := by
  simp [extcodecopy, chargeColdAccount]

theorem uses_log (n : Fin 5) : (log n ctx).Uses (Op.Asks (Opcode.log n).Effect) := by
  simp only [log]
  split
  · simp
  · simp
    exact uses_popTopics _

/-- An implementation that may fail, other than a call or creation, only asks the host for something
unless its opcode has an effect. -/
theorem uses_basic {op : Opcode} {f : Context → Exec Unit} (hop : Baseline.op2fn op = .basic f)
    (hcall : op.isCall = false) : (f ctx).Uses (Op.Asks op.Effect) := by
  cases op with
  | create | call | callcode | delegatecall | create2 | staticcall => cases hcall
  | stop | jump | jumpi | pc | push | return_ | revert | invalid | selfdestruct => cases hop
  | add | mul | signextend | lt | gt | slt | sgt | and_ | or_ | xor_ | byte | shl | shr | sar =>
      cases hop
      exact uses_popIntoTop _
  | sub | div | sdiv | mod | smod | eq =>
      cases hop
      exact uses_intoSecond _
  | addmod | mulmod =>
      cases hop
      exact uses_popTwoIntoTop _
  | iszero | not_ =>
      cases hop
      exact uses_mapTop _
  | origin | gasprice | coinbase | timestamp | number | difficulty | gaslimit | chainid | basefee =>
      cases hop
      exact uses_pushTxContext _
  | calldatacopy | codecopy =>
      cases hop
      exact uses_copyWindow _
  | balance | extcodesize | extcodehash =>
      cases hop
      exact uses_accountQuery fun addr => by simp
  | extcodecopy =>
      cases hop
      exact uses_extcodecopy
  | log n =>
      cases hop
      exact uses_log n
  | exp | keccak256 | calldataload | returndatacopy | blockhash | sload | sstore =>
      cases hop
      simp [exp, Instructions.keccak256, calldataload, returndatacopy, blockhash, sload, sstore]
  | address | caller | callvalue | calldatasize | codesize | returndatasize | selfbalance | pop
  | mload | mstore | mstore8 | msize | gas | jumpdest | dup | swap =>
      cases hop
      simp [address, caller, callvalue, calldatasize, codesize, returndatasize, selfbalance,
        Instructions.pop, mload, mstore, mstore8, msize, gas, jumpdest, dup, swap]

theorem uses_payLog (n : Fin 5) : (payLog n ctx).Uses (Op.Asks effect) := by
  simp only [payLog]
  split
  · simp
  · simp
    exact uses_popTopics _

theorem uses_sendLog (offset size : UInt256) (topics : List UInt256) :
    (sendLog ctx offset size topics).Uses Op.Settles := by
  simp [sendLog]

theorem uses_paySelfdestruct : (paySelfdestruct ctx).Uses (Op.Asks effect) := by
  simp [paySelfdestruct, chargeColdAccount, chargeNewBeneficiary]

theorem uses_sendSelfdestruct (beneficiary : Address) :
    (Exec.Host.selfdestruct ctx.msg.recipient beneficiary >>= fun _ =>
      pure StatusCode.success).Uses Op.Settles := by
  simp

theorem uses_paySstore : (paySstore ctx).Uses (Op.Asks effect) := by
  simp [paySstore]

theorem keepsGas_paySstore (ctx : Context) : (paySstore ctx).Uses Op.KeepsGas := by
  simp [paySstore]

theorem uses_payCall (kind : CallKind) (isStatic : Bool) :
    (payCall kind isStatic ctx).Uses (Op.Asks effect) := by
  simp [payCall, readCall, popCallValue, chargeColdAccount, loadRegion, callCost]

theorem pays_readCall (kind : CallKind) (isStatic : Bool) (ctx : Context) :
    (readCall kind isStatic ctx).Uses Op.Pays := by
  simp [readCall, popCallValue, chargeColdAccount, loadRegion,
    instr.additionalColdAccountAccessCost, instr.coldAccountAccessCost, instr.warmStorageReadCost]

/-- The costs of the value and of a new account; they do not depend on the gas left. -/
theorem pays_callCost (kind : CallKind) (ctx : Context) (dst : Address) (hasValue : Bool) :
    (callCost kind ctx dst hasValue).Sat (Footprint Op.Pays)
      (fun cost _ => 0 ≤ cost ∧ cost ≤ 34000 ∧ (hasValue = true → 9000 ≤ cost)) () := by
  cases hasValue with
  | false => simp [callCost]
  | true => simp [callCost]

/-- Only CALL and CALLCODE have a value. -/
theorem payCall_noValue {kind : CallKind} {isStatic : Bool} (ctx : Context)
    (h : isStatic = true ∨ kind = .delegatecall) :
    (payCall kind isStatic ctx).Sat (Footprint fun _ => True) (fun x _ => x.value = 0) () := by
  simp [payCall, readCall, popCallValue, chargeColdAccount, loadRegion, callCost, h]

theorem uses_forwardGas (gas value : UInt256) : (forwardGas ctx gas value).Uses Op.Queries := by
  simp [forwardGas, callGas, allButOne64th, addStipend]

theorem keepsGas_callGas (ctx : Context) (gas : UInt256) : (callGas ctx gas).Uses Op.KeepsGas := by
  simp [callGas, allButOne64th]

theorem uses_gated {send : Exec Unit} (hsend : send.Uses Op.Settles) (value : UInt256) :
    (gated ctx value send).Uses Op.Settles := by
  unfold gated
  split
  · trivial
  · refine Uses.bind (by simp [hasBalance]) fun enough => ?_
    split
    · exact hsend
    · trivial

theorem uses_sendCall (msg : Message) (outputOffset outputSize : UInt256) :
    (sendCall msg outputOffset outputSize).Uses Op.Settles := by
  simp [sendCall, storeOutput, spendGas]

theorem uses_payCreate (kind : CallKind) : (payCreate kind ctx).Uses (Op.Asks effect) := by
  simp [payCreate, popSalt]

theorem pays_payCreate (kind : CallKind) (ctx : Context) : (payCreate kind ctx).Uses Op.Pays := by
  have hcost : ∀ size : UInt256, numWords size.toSize * 6 < 2 ^ 62 :=
    fun size => (wordCost_range size.toSize (by omega) (by omega)).2
  have hnonneg : ∀ size : UInt256, 0 ≤ numWords size.toSize * 6 :=
    fun size => (wordCost_range size.toSize (by omega) (by omega)).1
  norm_num at hcost
  simp [payCreate, popSalt, hcost, hnonneg]

theorem uses_forwardCreate (kind : CallKind) (x : CreateOperands) :
    (forwardCreate kind ctx x).Uses Op.Settles := by
  simp [forwardCreate, createGas, allButOne64th, loadRegion, sendCreate, spendGas]

/-- The code position instructions need the stack and nothing else. -/
theorem onStack_codePosition {op : Opcode} {f : Baseline.CodeAnalysis → Nat → Exec Nat}
    (hop : Baseline.op2fn op = .codePosition f) (analysis : Baseline.CodeAnalysis) (pos : Nat) :
    (f analysis pos).Uses Op.OnStack := by
  cases op with
  | jump | jumpi | pc | push =>
      cases hop
      simp [Baseline.jump, Baseline.jumpi, Baseline.jumpImpl, Baseline.pc, Baseline.push]
  | _ => cases hop

theorem onStack_argNumber (arg : Advanced.Argument) : (Advanced.argNumber arg).Uses Op.OnStack := by
  cases arg with
  | number n => trivial
  | _ => simp [Advanced.argNumber]

theorem onStack_jumpTo (target : Option Nat) : (Advanced.jumpTo target).Uses Op.OnStack := by
  cases target with
  | none => simp [Advanced.jumpTo]
  | some target => trivial

/-- So do the entries of Advanced that neither run an implementation of Baseline nor look at the
gas. -/
theorem onStack_exec {fn : Advanced.ExecFn} (analysis : Advanced.AdvancedCodeAnalysis) (cost : Nat)
    (ctx : Context) (arg : Advanced.Argument) (ip : Nat)
    (hfn : fn = .opJump ∨ fn = .opJumpi ∨ fn = .opPc ∨ fn = .opPushSmall ∨ fn = .opPushFull ∨
      fn = .opUndefined) :
    (Advanced.exec analysis cost ctx fn arg ip).Uses Op.OnStack := by
  rcases hfn with rfl | rfl | rfl | rfl | rfl | rfl
  · exact Uses.bind (by simp [Advanced.popJumpTarget]) onStack_jumpTo
  · refine Uses.bind (by simp) fun cond => ?_
    split
    · refine Uses.bind (by simp [Advanced.popJumpTarget]) fun target => ?_
      exact Uses.bind (by simp) fun _ => onStack_jumpTo target
    · simp
  · refine Uses.bind (Uses.bind (onStack_argNumber arg) fun number => ?_) fun _ => trivial
    simp
  · refine Uses.bind ?_ fun _ => trivial
    cases arg with
    | smallPushValue value => simp [Advanced.opPushSmall]
    | _ => simp [Advanced.opPushSmall]
  · refine Uses.bind ?_ fun _ => trivial
    unfold Advanced.opPushFull
    split
    · split
      · simp
      · simp
    · simp
  · simp [Advanced.exec]

theorem Op.OnStack.asks {effect : HostRequest → Prop} {o : Op} (h : o.OnStack) : o.Asks effect := by
  cases o with
  | request | setGasLeft => exact h.elim
  | _ => trivial

theorem uses_terminating {op : Opcode} {f : Context → Exec StatusCode}
    (hop : Baseline.op2fn op = .terminating f) : (f ctx).Uses (Op.Asks op.Effect) := by
  cases op with
  | stop | return_ | revert | invalid =>
      cases hop
      simp [stop, return_, invalid]
  | selfdestruct =>
      cases hop
      simp [selfdestruct, chargeColdAccount, chargeNewBeneficiary]
  | _ => cases hop

/-- The requests of an instruction in Baseline. -/
theorem uses_invoke {op : Opcode} (hcall : op.isCall = false) (analysis : Baseline.CodeAnalysis)
    (pos : Nat) :
    (Baseline.invoke (Baseline.op2fn op) analysis ctx pos).Uses (Op.Asks op.Effect) := by
  cases hop : Baseline.op2fn op with
  | basic f => exact Uses.bind (uses_basic hop hcall) fun _ => trivial
  | terminating f => exact Uses.bind (uses_terminating hop) fun _ => by simp
  | codePosition f =>
      exact (onStack_codePosition hop analysis pos).mono fun _ h => h.asks

end Uses

/-! ## What a run adds to the calls -/

variable {σ : Type}

/-- The calls of `s` and then some new ones, all of which meet `P`. -/
def Extends (P : HostCall → Prop) (s s' : ExecutionState σ) : Prop :=
  ∃ new, s'.calls = s.calls ++ new ∧ ∀ c ∈ new, P c

theorem Extends.refl {P : HostCall → Prop} (s : ExecutionState σ) : Extends P s s :=
  ⟨[], (List.append_nil _).symm, fun _ h => absurd h List.not_mem_nil⟩

theorem Extends.trans {P : HostCall → Prop} {s1 s2 s3 : ExecutionState σ} (h12 : Extends P s1 s2)
    (h23 : Extends P s2 s3) : Extends P s1 s3 := by
  obtain ⟨new, heq, hnew⟩ := h12
  obtain ⟨new', heq', hnew'⟩ := h23
  refine ⟨new ++ new', by rw [heq', heq, List.append_assoc], fun c hc => ?_⟩
  rcases List.mem_append.1 hc with hc | hc
  · exact hnew c hc
  · exact hnew' c hc

theorem Extends.of_calls_eq {P : HostCall → Prop} {s s' : ExecutionState σ}
    (h : s'.calls = s.calls) : Extends P s s' :=
  ⟨[], by rw [h, List.append_nil], fun _ h => absurd h List.not_mem_nil⟩

/-- Only the memory, the gas left and the ghost part may differ. Gas that was assigned is an
`int64_t`. -/
def Grows (s s' : ExecutionState σ) : Prop :=
  ∃ memory gas ghost, s' = { s with memory := memory, gasLeft := gas, ghost := ghost } ∧
    (gas = s.gasLeft ∨ InInt64 gas)

theorem Grows.refl (s : ExecutionState σ) : Grows s s :=
  ⟨s.memory, s.gasLeft, s.ghost, rfl, .inl rfl⟩

theorem Grows.noteInt64 {s s' : ExecutionState σ} (h : Grows s s') (x : Int) :
    Grows s (s'.noteInt64 x) := by
  obtain ⟨memory, gas, ghost, rfl, hgas⟩ := h
  exact ⟨memory, gas, _, rfl, hgas⟩

theorem Grows.setGas {s s' : ExecutionState σ} (h : Grows s s') (x : Int) :
    Grows s (s'.setGas x) := by
  obtain ⟨memory, gas, ghost, rfl, hgas⟩ := h
  exact ⟨memory, _, _, rfl, .inr (inInt64_toInt64 x)⟩

theorem Grows.withMemory {s s' : ExecutionState σ} (h : Grows s s') (m : Memory) :
    Grows s { s' with memory := m } := by
  obtain ⟨memory, gas, ghost, rfl, hgas⟩ := h
  exact ⟨m, gas, ghost, rfl, hgas⟩

theorem grows_growMemory (s : ExecutionState σ) (alloc : Allocator) (newSize : Nat) :
    (s.growMemory alloc newSize).Meets (fun _ s' => Grows s s') (fun _ s' => Grows s s')
      fun _ => True := by
  unfold ExecutionState.growMemory
  dsimp only
  have hpaid : ∀ a b c d e g, Grows s
      ((((((s.noteInt64 a).noteInt64 b).noteInt64 c).noteInt64 d).noteInt64 e).setGas g) :=
    fun a b c d e g => ((((((Grows.refl s).noteInt64 a).noteInt64 b).noteInt64 c).noteInt64
      d).noteInt64 e).setGas g
  split
  · exact hpaid _ _ _ _ _ _
  · split
    · exact (hpaid _ _ _ _ _ _).withMemory _
    · trivial

theorem grows_checkMemory (s : ExecutionState σ) (alloc : Allocator) (offset : UInt256)
    (size : MemorySize) :
    (s.checkMemory alloc offset size).Meets (fun _ s' => Grows s s') (fun _ s' => Grows s s')
      fun _ => True := by
  have h64 : ∀ n, (s.checkMemory64 alloc offset n).Meets (fun _ s' => Grows s s')
      (fun _ s' => Grows s s') fun _ => True := by
    intro n
    unfold ExecutionState.checkMemory64
    dsimp only
    split
    · exact .refl s
    · split
      · exact grows_growMemory s alloc _
      · exact .refl s
  cases size with
  | u64 n => exact h64 n
  | u256 n =>
      show (s.checkMemory256 alloc offset n).Meets _ _ _
      unfold ExecutionState.checkMemory256
      split
      · exact .refl s
      · split
        · exact .refl s
        · exact h64 _

/-- A memory check changes the memory, the gas left and the ghost part at most. -/
theorem grows_handle (env : Env σ) (s : ExecutionState σ) (offset : UInt256) (size : MemorySize) :
    (handle env (.checkMemory offset size) s).Meets (fun _ s' => Grows s s')
      (fun _ s' => Grows s s') fun _ => True := by
  refine (grows_checkMemory s env.alloc offset size).bind ?_
  rintro passed s' ⟨memory, gas, ghost, rfl, hgas⟩
  dsimp only
  split
  · exact ⟨_, _, _, rfl, hgas⟩
  · exact ⟨_, _, _, rfl, hgas⟩

/-- Only a request adds a call, and it adds its own. -/
theorem handle_extends (env : Env σ) {P : HostCall → Prop} {o : Op}
    (hP : ∀ q answer, o = .request q → P ⟨q, answer⟩) (s : ExecutionState σ) :
    (handle env o s).Meets (fun _ s' => Extends P s s') (fun _ s' => Extends P s s')
      fun _ => True := by
  cases o with
  | pop =>
      simp only [handle]
      split
      · exact .of_calls_eq rfl
      · trivial
  | push item | peek index | poke index item | load offset length | store offset bytes =>
      simp only [handle]
      split
      · exact .of_calls_eq rfl
      · trivial
  | charge cost =>
      simp only [handle]
      split
      · exact .of_calls_eq rfl
      · exact .of_calls_eq rfl
  | checkMemory offset size =>
      have hgrows : ∀ s', Grows s s' → Extends P s s' := by
        rintro s' ⟨memory, gas, ghost, rfl, -⟩
        exact .of_calls_eq rfl
      exact (grows_handle env s offset size).mono (fun _ => hgrows) (fun _ => hgrows) fun _ => id
  | request q => exact ⟨[⟨q, _⟩], rfl, by simpa using hP q _ rfl⟩
  | exit status => exact .refl s
  | fault f => trivial
  | _ => exact .of_calls_eq rfl

/-- The calls a run adds are requests of its program. -/
theorem run_extends (env : Env σ) {α : Type} {U : Op → Prop} {P : HostCall → Prop}
    (hP : ∀ q answer, U (.request q) → P ⟨q, answer⟩) {p : Exec α} (hp : p.Uses U)
    (s : ExecutionState σ) :
    (p.run env s).Meets (fun _ s' => Extends P s s') (fun _ s' => Extends P s s')
      fun _ => True := by
  refine run_of_uses ?_ hp (.refl s)
  intro o s' ho hs'
  have hone := handle_extends env (fun q answer hq => hP q answer (hq ▸ ho)) s'
  exact hone.mono (fun _ _ h => hs'.trans h) (fun _ _ h => hs'.trans h) fun _ => id

/-! ## What a run leaves as it is -/

theorem handle_keepsGas (env : Env σ) {o : Op} (ho : o.KeepsGas) (s : ExecutionState σ) :
    (handle env o s).Meets (fun _ s' => s'.gasLeft = s.gasLeft) (fun _ s' => s'.gasLeft = s.gasLeft)
      fun _ => True := by
  cases o with
  | charge | checkMemory | setGasLeft => exact ho.elim
  | pop | push | peek | poke | load | store =>
      simp only [handle]
      split
      · rfl
      · trivial
  | fault f => trivial
  | _ => rfl

theorem run_keepsGas (env : Env σ) {α : Type} {p : Exec α} (hp : p.Uses Op.KeepsGas)
    (s : ExecutionState σ) :
    (p.run env s).Meets (fun _ s' => s'.gasLeft = s.gasLeft) (fun _ s' => s'.gasLeft = s.gasLeft)
      fun _ => True := by
  refine run_of_uses (R := fun s' : ExecutionState σ => s'.gasLeft = s.gasLeft) ?_ hp rfl
  intro o s' ho hs'
  exact (handle_keepsGas env ho s').mono (fun _ _ h => h.trans hs') (fun _ _ h => h.trans hs')
    fun _ => id

theorem handle_keepsMemory (env : Env σ) {o : Op} (ho : o.KeepsMemory) (s : ExecutionState σ) :
    (handle env o s).Meets (fun _ s' => s'.memory = s.memory) (fun _ s' => s'.memory = s.memory)
      fun _ => True := by
  cases o with
  | checkMemory | store => exact ho.elim
  | pop | push | peek | poke | load =>
      simp only [handle]
      split
      · rfl
      · trivial
  | charge cost =>
      simp only [handle]
      split
      · rfl
      · rfl
  | fault f => trivial
  | _ => rfl

theorem run_keepsMemory (env : Env σ) {α : Type} {p : Exec α} (hp : p.Uses Op.KeepsMemory)
    (s : ExecutionState σ) :
    (p.run env s).Meets (fun _ s' => s'.memory = s.memory) (fun _ s' => s'.memory = s.memory)
      fun _ => True := by
  refine run_of_uses (R := fun s' : ExecutionState σ => s'.memory = s.memory) ?_ hp rfl
  intro o s' ho hs'
  exact (handle_keepsMemory env ho s').mono (fun _ _ h => h.trans hs') (fun _ _ h => h.trans hs')
    fun _ => id

/-! ## Effects come last -/

/-- No effect is among the new calls. -/
abbrev NoEffect (s s' : ExecutionState σ) : Prop :=
  Extends (fun c => c.request.isEffect = false) s s'

theorem run_queries (env : Env σ) {α : Type} {p : Exec α} (hp : p.Uses Op.Queries)
    (s : ExecutionState σ) :
    (p.run env s).Meets (fun _ s' => NoEffect s s') (fun _ s' => NoEffect s s') fun _ => True :=
  run_extends env (fun _ _ h => h) hp s

theorem handle_settles (env : Env σ) {o : Op} (ho : o.Settles) (s : ExecutionState σ) :
    (handle env o s).Meets (fun _ _ => True) (fun _ _ => False) fun _ => True := by
  cases o with
  | charge | checkMemory | exit => exact ho.elim
  | pop | push | peek | poke | load | store =>
      simp only [handle]
      split
      · trivial
      · trivial
  | _ => trivial

theorem run_settles (env : Env σ) {α : Type} {p : Exec α} (hp : p.Uses Op.Settles)
    (s : ExecutionState σ) :
    (p.run env s).Meets (fun _ _ => True) (fun _ _ => False) fun _ => True :=
  run_of_uses (fun _ s ho _ => handle_settles env ho s) hp trivial

/-- If a run has no effect up to a point from which on it cannot fail, then a failing run has no
effect. -/
theorem noEffect_of_exit {env : Env σ} {α β : Type} {p : Exec α} {f : α → Exec β}
    (hp : p.Uses Op.Queries) (hf : ∀ x, (f x).Uses Op.Settles) {s s' : ExecutionState σ}
    {status : StatusCode} (h : (p >>= f).run env s = .exit status s') : NoEffect s s' := by
  have hrun := run_queries env hp s
  rw [Exec.run, run_bind] at h
  rcases Outcome.bind_eq_exit h with h | ⟨x, s1, -, h⟩
  · rw [Exec.run, h] at hrun
    exact hrun
  · have hsettles := run_settles env (hf x) s1
    rw [Exec.run, h] at hsettles
    exact hsettles.elim

end Ivmone
