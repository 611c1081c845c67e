import Ivmone.Calls

/-!
# The safety logic of instruction implementations

A program logic for implementations. Its abstract state is the height of the stack, the size of the
memory, the output region and the gas left; `Safe` says which operations are allowed there and what
they change. One derivation in this logic is the specification of an implementation: it touches no
stack item and no memory byte that is not there, charges no negative cost, mints no gas, and in
static mode makes no request that changes the state of the host.
-/

set_option autoImplicit false

namespace Ivmone

open Lib

/-- A request that is allowed in static mode. -/
def HostRequest.Quiet : HostRequest → Prop
  | .setStorage _ _ _ | .emitLog _ _ _ | .selfdestruct _ _ => False
  | .call msg =>
      msg.isStatic = true ∧ msg.kind ≠ .create ∧ msg.kind ≠ .create2 ∧
        (msg.kind = .call → msg.value = 0)
  | _ => True

/-- A message that is sent has no negative gas. -/
def HostRequest.Solvent : HostRequest → Prop
  | .call msg => 0 ≤ msg.gas
  | _ => True

/-- What the logic knows about a state. -/
structure Abs where
  height : Nat
  memory : Nat
  outputOffset : Nat
  outputSize : Nat
  gas : Int

/-- The parameters of the logic. -/
structure Rules where
  /-- The number of stack slots that may be used. -/
  limit : Nat
  /-- In static mode, requests must be quiet. -/
  isStatic : Prop
  /-- Whether `copy_code` is known to stay within its buffer. Without that, accesses to memory may
  be out of range. -/
  fits : Prop
  /-- Whether `call()` is known to return no more gas than it was given. Without that, the gas left
  is not known. -/
  metered : Prop
  /-- The gas left never exceeds this bound. -/
  ceiling : Int
  ceiling_lt : ceiling < 2 ^ 63
  /-- Whether the gas counter may be read and written directly. -/
  readsGas : Prop

/-- Gas was spent and none was minted; a counter that was not negative has not become so. -/
def Paid (rules : Rules) (before after : Int) : Prop :=
  rules.metered → min before 0 ≤ after ∧ after ≤ before

/-- What `check_memory` has established for a region of a memory of size `m`. -/
def Checked (offset size : UInt256) (m : Nat) : Prop :=
  size.toNat ≠ 0 →
    offset.toNat ≤ maxBufferSize ∧ size.toNat ≤ maxBufferSize ∧ offset.toNat + size.toNat ≤ m

namespace Checked

variable {offset size : UInt256} {m m' : Nat}

theorem mono (h : Checked offset size m) (hm : m ≤ m') : Checked offset size m' := by
  intro hs
  obtain ⟨h1, h2, h3⟩ := h hs
  exact ⟨h1, h2, Nat.le_trans h3 hm⟩

theorem toNat_le (h : Checked offset size m) : size.toNat ≤ maxBufferSize := by
  by_cases hs : size.toNat = 0
  · omega
  · exact (h hs).2.1

theorem toSize_eq (h : Checked offset size m) : size.toSize = size.toNat := by
  have hle := h.toNat_le
  unfold maxBufferSize at hle
  exact UInt256.toSize_of_lt (by omega)

/-- The region lies in the memory unless its size is 0. -/
theorem end_le (h : Checked offset size m) (hs : size.toSize ≠ 0) :
    offset.toSize + size.toSize ≤ m := by
  rw [h.toSize_eq] at hs ⊢
  obtain ⟨h1, -, h3⟩ := h hs
  unfold maxBufferSize at h1
  rw [UInt256.toSize_of_lt (by omega)]
  exact h3

end Checked

/-- The operations allowed by the logic. An operation that may leave the implementation requires
that no output has been set. -/
def Safe (rules : Rules) : Program.Transformer Op Op.Res Abs
  | .pop, a, Q => 1 ≤ a.height ∧ ∀ x, Q x { a with height := a.height - 1 }
  | .push _, a, Q => a.height < rules.limit ∧ Q () { a with height := a.height + 1 }
  | .peek index, a, Q => index < a.height ∧ ∀ x, Q x a
  | .poke index _, a, Q => index < a.height ∧ Q () a
  | .charge cost, a, Q =>
      (0 ≤ cost ∧ cost < 2 ^ 62) ∧ a.outputSize = 0 ∧
        ∀ g, (rules.metered → 0 ≤ g ∧ g = a.gas - cost) → Q () { a with gas := g }
  | .checkMemory offset (.u64 size), a, Q =>
      size ≤ maxBufferSize ∧ a.outputSize = 0 ∧
        ∀ m g, a.memory ≤ m → Paid rules a.gas g → offset.toNat ≤ maxBufferSize →
          offset.toNat + size ≤ m → Q () { a with memory := m, gas := g }
  | .checkMemory offset (.u256 size), a, Q =>
      a.outputSize = 0 ∧
        ∀ m g, a.memory ≤ m → Paid rules a.gas g →
          Checked offset size m → Q () { a with memory := m, gas := g }
  | .load offset length, a, Q =>
      (rules.fits → offset + length ≤ a.memory) ∧ ∀ bytes, bytes.length = length → Q bytes a
  | .store offset bytes, a, Q => (rules.fits → offset + bytes.length ≤ a.memory) ∧ Q () a
  | .memorySize, a, Q => ∀ n, Q n a
  | .gasLeft, a, Q => rules.readsGas ∧ ∀ gas, (rules.metered → gas = a.gas) → Q gas a
  | .setGasLeft gas, a, Q =>
      rules.readsGas ∧ (rules.metered → min a.gas 0 ≤ gas ∧ gas ≤ rules.ceiling) ∧
        Q () { a with gas := gas }
  | .int64 x, a, Q =>
      rules.readsGas ∧ (rules.metered → InInt64 x) ∧ ∀ y, (rules.metered → y = x) → Q y a
  | .returnData, a, Q => ∀ data, Q data a
  | .setReturnData _, a, Q => Q () a
  | .setOutputOffset offset, a, Q => Q () { a with outputOffset := offset }
  | .setOutputSize size, a, Q => Q () { a with outputSize := size }
  | .request q, a, Q =>
      (rules.isStatic → q.Quiet) ∧ (rules.metered → 0 ≤ a.gas → q.Solvent) ∧
        ∀ answer, (rules.fits → HostCall.Fits ⟨q, answer⟩) →
          (rules.metered → HostCall.Bounded ⟨q, answer⟩) → Q answer a
  | .keccak256 _, a, Q => ∀ x, Q x a
  | .exit status, a, _ => ¬ status.keepsGas ∧ a.outputSize = 0
  | .fault _, _, _ => False

theorem safe_monotone (rules : Rules) : Program.Monotone (Safe rules) := by
  intro o a Q Q' hQ hT
  cases o with
  | pop => exact ⟨hT.1, fun x => hQ _ _ (hT.2 x)⟩
  | push item => exact ⟨hT.1, hQ _ _ hT.2⟩
  | peek index => exact ⟨hT.1, fun x => hQ _ _ (hT.2 x)⟩
  | poke index item => exact ⟨hT.1, hQ _ _ hT.2⟩
  | charge cost => exact ⟨hT.1, hT.2.1, fun g hg => hQ _ _ (hT.2.2 g hg)⟩
  | checkMemory offset size =>
      cases size with
      | u64 size =>
          exact ⟨hT.1, hT.2.1, fun m g h1 h2 h3 h4 => hQ _ _ (hT.2.2 m g h1 h2 h3 h4)⟩
      | u256 size => exact ⟨hT.1, fun m g h1 h2 h3 => hQ _ _ (hT.2 m g h1 h2 h3)⟩
  | load offset length => exact ⟨hT.1, fun bytes h => hQ _ _ (hT.2 bytes h)⟩
  | store offset bytes => exact ⟨hT.1, hQ _ _ hT.2⟩
  | memorySize => exact fun n => hQ _ _ (hT n)
  | gasLeft => exact ⟨hT.1, fun gas h => hQ _ _ (hT.2 gas h)⟩
  | setGasLeft gas => exact ⟨hT.1, hT.2.1, hQ _ _ hT.2.2⟩
  | int64 x => exact ⟨hT.1, hT.2.1, fun y h => hQ _ _ (hT.2.2 y h)⟩
  | returnData => exact fun data => hQ _ _ (hT data)
  | setReturnData data => exact hQ _ _ hT
  | setOutputOffset offset => exact hQ _ _ hT
  | setOutputSize size => exact hQ _ _ hT
  | request q => exact ⟨hT.1, hT.2.1, fun answer h1 h2 => hQ _ _ (hT.2.2 answer h1 h2)⟩
  | keccak256 data => exact fun x => hQ _ _ (hT x)
  | exit status => exact hT
  | fault f => exact hT

/-! ## Derivation rules -/

section Rules

variable {rules : Rules} {a : Abs} {α : Type}

@[simp] theorem sat_pop (Q : UInt256 → Abs → Prop) :
    Exec.pop.Sat (Safe rules) Q a ↔ 1 ≤ a.height ∧ ∀ x, Q x { a with height := a.height - 1 } :=
  Iff.rfl

@[simp] theorem sat_push (item : UInt256) (Q : Unit → Abs → Prop) :
    (Exec.push item).Sat (Safe rules) Q a ↔
      a.height < rules.limit ∧ Q () { a with height := a.height + 1 } := Iff.rfl

@[simp] theorem sat_peek (index : Nat) (Q : UInt256 → Abs → Prop) :
    (Exec.peek index).Sat (Safe rules) Q a ↔ index < a.height ∧ ∀ x, Q x a := Iff.rfl

@[simp] theorem sat_poke (index : Nat) (item : UInt256) (Q : Unit → Abs → Prop) :
    (Exec.poke index item).Sat (Safe rules) Q a ↔ index < a.height ∧ Q () a := Iff.rfl

@[simp] theorem sat_top (Q : UInt256 → Abs → Prop) :
    Exec.top.Sat (Safe rules) Q a ↔ 0 < a.height ∧ ∀ x, Q x a := Iff.rfl

@[simp] theorem sat_setTop (item : UInt256) (Q : Unit → Abs → Prop) :
    (Exec.setTop item).Sat (Safe rules) Q a ↔ 0 < a.height ∧ Q () a := Iff.rfl

@[simp] theorem sat_charge (cost : Int) (Q : Unit → Abs → Prop) :
    (Exec.charge cost).Sat (Safe rules) Q a ↔
      (0 ≤ cost ∧ cost < 2 ^ 62) ∧ a.outputSize = 0 ∧
        ∀ g, (rules.metered → 0 ≤ g ∧ g = a.gas - cost) → Q () { a with gas := g } := Iff.rfl

@[simp] theorem sat_checkMemory64 (offset : UInt256) (size : Nat) (Q : Unit → Abs → Prop) :
    (Exec.checkMemory64 offset size).Sat (Safe rules) Q a ↔
      size ≤ maxBufferSize ∧ a.outputSize = 0 ∧
        ∀ m g, a.memory ≤ m → Paid rules a.gas g → offset.toNat ≤ maxBufferSize →
          offset.toNat + size ≤ m → Q () { a with memory := m, gas := g } := Iff.rfl

@[simp] theorem sat_checkMemory (offset size : UInt256) (Q : Unit → Abs → Prop) :
    (Exec.checkMemory offset size).Sat (Safe rules) Q a ↔
      a.outputSize = 0 ∧
        ∀ m g, a.memory ≤ m → Paid rules a.gas g →
          Checked offset size m → Q () { a with memory := m, gas := g } := Iff.rfl

@[simp] theorem sat_load (offset length : Nat) (Q : List Byte → Abs → Prop) :
    (Exec.load offset length).Sat (Safe rules) Q a ↔
      (rules.fits → offset + length ≤ a.memory) ∧ ∀ bytes, bytes.length = length → Q bytes a :=
  Iff.rfl

@[simp] theorem sat_store (offset : Nat) (bytes : List Byte) (Q : Unit → Abs → Prop) :
    (Exec.store offset bytes).Sat (Safe rules) Q a ↔
      (rules.fits → offset + bytes.length ≤ a.memory) ∧ Q () a := Iff.rfl

@[simp] theorem sat_memorySize (Q : Nat → Abs → Prop) :
    Exec.memorySize.Sat (Safe rules) Q a ↔ ∀ n, Q n a := Iff.rfl

@[simp] theorem sat_gasLeft (Q : Int → Abs → Prop) :
    Exec.gasLeft.Sat (Safe rules) Q a ↔
      rules.readsGas ∧ ∀ gas, (rules.metered → gas = a.gas) → Q gas a := Iff.rfl

@[simp] theorem sat_setGasLeft (gas : Int) (Q : Unit → Abs → Prop) :
    (Exec.setGasLeft gas).Sat (Safe rules) Q a ↔
      rules.readsGas ∧ (rules.metered → min a.gas 0 ≤ gas ∧ gas ≤ rules.ceiling) ∧
        Q () { a with gas := gas } := Iff.rfl

@[simp] theorem sat_int64 (x : Int) (Q : Int → Abs → Prop) :
    (Exec.int64 x).Sat (Safe rules) Q a ↔
      rules.readsGas ∧ (rules.metered → InInt64 x) ∧ ∀ y, (rules.metered → y = x) → Q y a :=
  Iff.rfl

@[simp] theorem sat_returnData (Q : Buffer → Abs → Prop) :
    Exec.returnData.Sat (Safe rules) Q a ↔ ∀ data, Q data a := Iff.rfl

@[simp] theorem sat_setReturnData (data : Buffer) (Q : Unit → Abs → Prop) :
    (Exec.setReturnData data).Sat (Safe rules) Q a ↔ Q () a := Iff.rfl

@[simp] theorem sat_setOutputOffset (offset : Nat) (Q : Unit → Abs → Prop) :
    (Exec.setOutputOffset offset).Sat (Safe rules) Q a ↔ Q () { a with outputOffset := offset } :=
  Iff.rfl

@[simp] theorem sat_setOutputSize (size : Nat) (Q : Unit → Abs → Prop) :
    (Exec.setOutputSize size).Sat (Safe rules) Q a ↔ Q () { a with outputSize := size } := Iff.rfl

@[simp] theorem sat_keccak256 (data : List Byte) (Q : UInt256 → Abs → Prop) :
    (Exec.keccak256 data).Sat (Safe rules) Q a ↔ ∀ x, Q x a := Iff.rfl

@[simp] theorem sat_exit (status : StatusCode) (Q : α → Abs → Prop) :
    (Exec.exit status).Sat (Safe rules) Q a ↔ ¬ status.keepsGas ∧ a.outputSize = 0 := Iff.rfl

@[simp] theorem sat_fault (f : Fault) (Q : α → Abs → Prop) :
    (Exec.fault f : Exec α).Sat (Safe rules) Q a ↔ False := Iff.rfl

@[simp] theorem sat_read (buffer : List Byte) (offset length : Nat)
    (Q : List Byte → Abs → Prop) :
    (Exec.read buffer offset length).Sat (Safe rules) Q a ↔
      offset + length ≤ buffer.length ∧ Q ((buffer.drop offset).take length) a := by
  unfold Exec.read
  rw [Program.sat_ite]
  simp only [Program.sat_pure, sat_fault]
  constructor
  · rintro ⟨h1, h2⟩
    have hle := not_not.1 h2
    exact ⟨hle, h1 hle⟩
  · rintro ⟨h1, h2⟩
    exact ⟨fun _ => h2, fun h => h h1⟩

/-! ### Requests

A query changes nothing in the host and is always allowed; an update is not allowed in static
mode. -/

theorem sat_query (q : HostRequest) (hquiet : q.Quiet) (hsolvent : q.Solvent)
    (hfits : ∀ answer, HostCall.Fits ⟨q, answer⟩) (hbounded : ∀ answer,
      HostCall.Bounded ⟨q, answer⟩)
    (Q : q.Response → Abs → Prop) :
    (Exec.request q).Sat (Safe rules) Q a ↔ ∀ answer, Q answer a := by
  constructor
  · intro h answer
    exact h.2.2 answer (fun _ => hfits answer) fun _ => hbounded answer
  · intro h
    exact ⟨fun _ => hquiet, fun _ _ => hsolvent, fun answer _ _ => h answer⟩

theorem sat_update (q : HostRequest) (hquiet : ¬ q.Quiet) (hsolvent : q.Solvent)
    (hfits : ∀ answer, HostCall.Fits ⟨q, answer⟩) (hbounded : ∀ answer,
      HostCall.Bounded ⟨q, answer⟩)
    (Q : q.Response → Abs → Prop) :
    (Exec.request q).Sat (Safe rules) Q a ↔ ¬ rules.isStatic ∧ ∀ answer, Q answer a := by
  constructor
  · intro h
    exact ⟨fun hs => hquiet (h.1 hs),
      fun answer => h.2.2 answer (fun _ => hfits answer) fun _ => hbounded answer⟩
  · intro h
    exact ⟨fun hs => absurd hs h.1, fun _ _ => hsolvent, fun answer _ _ => h.2 answer⟩

@[simp] theorem sat_accountExists (addr : Address) (Q : Bool → Abs → Prop) :
    (Exec.Host.accountExists addr).Sat (Safe rules) Q a ↔ ∀ answer, Q answer a :=
  sat_query (.accountExists addr) trivial trivial (fun _ => trivial) (fun _ => trivial) Q

@[simp] theorem sat_getStorage (addr : Address) (key : UInt256) (Q : UInt256 → Abs → Prop) :
    (Exec.Host.getStorage addr key).Sat (Safe rules) Q a ↔ ∀ answer, Q answer a :=
  sat_query (.getStorage addr key) trivial trivial (fun _ => trivial) (fun _ => trivial) Q

@[simp] theorem sat_getBalance (addr : Address) (Q : UInt256 → Abs → Prop) :
    (Exec.Host.getBalance addr).Sat (Safe rules) Q a ↔ ∀ answer, Q answer a :=
  sat_query (.getBalance addr) trivial trivial (fun _ => trivial) (fun _ => trivial) Q

@[simp] theorem sat_getCodeSize (addr : Address) (Q : BitVec 64 → Abs → Prop) :
    (Exec.Host.getCodeSize addr).Sat (Safe rules) Q a ↔ ∀ answer, Q answer a :=
  sat_query (.getCodeSize addr) trivial trivial (fun _ => trivial) (fun _ => trivial) Q

@[simp] theorem sat_getCodeHash (addr : Address) (Q : UInt256 → Abs → Prop) :
    (Exec.Host.getCodeHash addr).Sat (Safe rules) Q a ↔ ∀ answer, Q answer a :=
  sat_query (.getCodeHash addr) trivial trivial (fun _ => trivial) (fun _ => trivial) Q

@[simp] theorem sat_getTxContext (Q : TxContext → Abs → Prop) :
    Exec.Host.getTxContext.Sat (Safe rules) Q a ↔ ∀ answer, Q answer a :=
  sat_query .getTxContext trivial trivial (fun _ => trivial) (fun _ => trivial) Q

@[simp] theorem sat_getBlockHash (number : Int) (Q : UInt256 → Abs → Prop) :
    (Exec.Host.getBlockHash number).Sat (Safe rules) Q a ↔ ∀ answer, Q answer a :=
  sat_query (.getBlockHash number) trivial trivial (fun _ => trivial) (fun _ => trivial) Q

@[simp] theorem sat_accessAccount (addr : Address) (Q : AccessStatus → Abs → Prop) :
    (Exec.Host.accessAccount addr).Sat (Safe rules) Q a ↔ ∀ answer, Q answer a :=
  sat_query (.accessAccount addr) trivial trivial (fun _ => trivial) (fun _ => trivial) Q

@[simp] theorem sat_accessStorage (addr : Address) (key : UInt256) (Q : AccessStatus → Abs → Prop) :
    (Exec.Host.accessStorage addr key).Sat (Safe rules) Q a ↔ ∀ answer, Q answer a :=
  sat_query (.accessStorage addr key) trivial trivial (fun _ => trivial) (fun _ => trivial) Q

@[simp] theorem sat_setStorage (addr : Address) (key value : UInt256)
    (Q : StorageStatus → Abs → Prop) :
    (Exec.Host.setStorage addr key value).Sat (Safe rules) Q a ↔
      ¬ rules.isStatic ∧ ∀ answer, Q answer a :=
  sat_update (.setStorage addr key value) id trivial (fun _ => trivial) (fun _ => trivial) Q

@[simp] theorem sat_emitLog (addr : Address) (data : List Byte) (topics : List UInt256)
    (Q : Unit → Abs → Prop) :
    (Exec.Host.emitLog addr data topics).Sat (Safe rules) Q a ↔
      ¬ rules.isStatic ∧ ∀ answer, Q answer a :=
  sat_update (.emitLog addr data topics) id trivial (fun _ => trivial) (fun _ => trivial) Q

@[simp] theorem sat_selfdestruct (addr beneficiary : Address)
    (Q : Unit → Abs → Prop) :
    (Exec.Host.selfdestruct addr beneficiary).Sat (Safe rules) Q a ↔
      ¬ rules.isStatic ∧ ∀ answer, Q answer a :=
  sat_update (.selfdestruct addr beneficiary) id trivial (fun _ => trivial) (fun _ => trivial) Q

@[simp] theorem sat_copyCode (addr : Address) (codeOffset bufferSize : Nat)
    (Q : List Byte → Abs → Prop) :
    (Exec.Host.copyCode addr codeOffset bufferSize).Sat (Safe rules) Q a ↔
      ∀ bytes, (rules.fits → bytes.length ≤ bufferSize) → Q bytes a := by
  constructor
  · intro h bytes hfits
    exact h.2.2 bytes hfits fun _ => trivial
  · intro h
    exact ⟨fun _ => trivial, fun _ _ => trivial, fun bytes hfits _ => h bytes hfits⟩

@[simp] theorem sat_call (msg : Message) (Q : CallResult → Abs → Prop) :
    (Exec.Host.call msg).Sat (Safe rules) Q a ↔
      (rules.isStatic → HostRequest.Quiet (.call msg)) ∧
        (rules.metered → 0 ≤ a.gas → 0 ≤ msg.gas) ∧
        ∀ result, (rules.metered → 0 ≤ result.gasLeft ∧ result.gasLeft ≤ msg.gas) → Q result a := by
  constructor
  · intro h
    exact ⟨h.1, h.2.1, fun result hbounded => h.2.2 result (fun _ => trivial) hbounded⟩
  · intro h
    exact ⟨h.1, h.2.1, fun result _ hbounded => h.2.2 result hbounded⟩

end Rules

end Ivmone
