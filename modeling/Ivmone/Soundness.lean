import Ivmone.CallSafety
import Ivmone.MemoryChecks

/-!
# Soundness of the safety logic

A derivation in the logic `Safe` is a fact about the run of the implementation. `Tracks` relates the
abstract state of the logic to the state of the interpreter, and `run_safe` is the rule that every
invariant of whole executions is derived from.
-/

set_option autoImplicit false

namespace Ivmone

open Lib

variable {σ : Type}

/-! ## The operation `checkMemory` -/

/-- The four outcomes of a memory check. -/
inductive CheckResult (s : ExecutionState σ) (offset : UInt256) (size : MemorySize) :
    Result σ Unit → Prop
  | rejected (hend : regionEnd offset size = none) :
      CheckResult s offset size (.exit .outOfGas (s.noteCheck s offset size false))
  | covered (newSize : Nat) (hend : regionEnd offset size = some newSize)
      (hle : newSize ≤ s.memory.size) :
      CheckResult s offset size (.ok () (s.noteCheck s offset size true))
  | unpaid (newSize : Nat) (hend : regionEnd offset size = some newSize)
      (hlt : s.memory.size < newSize)
      (hgas : toInt64 (s.gasLeft - growthCost s.memory.size newSize) < 0) :
      CheckResult s offset size (.exit .outOfGas
        ((s.setGas (s.gasLeft - growthCost s.memory.size newSize)).noteCheck s offset size false))
  | grown (newSize : Nat) (m : Memory) (hend : regionEnd offset size = some newSize)
      (hlt : s.memory.size < newSize)
      (hgas : 0 ≤ toInt64 (s.gasLeft - growthCost s.memory.size newSize))
      (hm : m.size = 32 * ((newSize + 31) / 32))
      (hbytes : m.bytes = s.memory.bytes ++ List.replicate (m.size - s.memory.size) 0) :
      CheckResult s offset size (.ok () (ExecutionState.noteCheck
        { s.setGas (s.gasLeft - growthCost s.memory.size newSize) with memory := m }
        s offset size true))

theorem handle_checkMemory (env : Env σ) (s : ExecutionState σ) (offset : UInt256)
    (size : MemorySize) (hsize : ∀ n, size = .u64 n → n ≤ maxBufferSize) :
    CheckResult s offset size (handle env (.checkMemory offset size) s) := by
  show CheckResult s offset size ((s.checkMemory env.alloc offset size).bind _)
  rw [checkMemory_eq]
  cases hend : regionEnd offset size with
  | none => exact .rejected hend
  | some newSize =>
      by_cases hlt : s.memory.size < newSize
      · obtain ⟨m, hm, hbytes, hgrow⟩ := growMemory_eq s env.alloc hlt (regionEnd_le hsize hend)
        simp only [if_pos hlt, hgrow]
        by_cases hgas : (s.setGas (s.gasLeft - growthCost s.memory.size newSize)).gasLeft < 0
        · rw [if_pos hgas]
          exact .unpaid newSize hend hlt hgas
        · rw [if_neg hgas]
          exact .grown newSize m hend hlt (Int.not_lt.1 hgas) hm hbytes
      · simp only [if_neg hlt]
        exact .covered newSize hend (Nat.le_of_not_lt hlt)

/-- A check that passes leaves the region inside of the memory, which it has only extended by
zeros. -/
theorem checkMemory_ok {env : Env σ} {s t : ExecutionState σ} {offset size : UInt256}
    (h : (Exec.checkMemory offset size).run env s = .ok () t) :
    Checked offset size t.memory.size ∧
      ∃ memory gas ghost n, t = { s with memory := memory, gasLeft := gas, ghost := ghost } ∧
        memory.bytes = s.memory.bytes ++ List.replicate n 0 := by
  rw [Exec.run, Exec.checkMemory, Exec.perform, Program.run_perform] at h
  have hcheck := handle_checkMemory env s offset (.u256 size) fun _ h => by cases h
  rw [h] at hcheck
  cases hcheck with
  | covered newSize hend hle =>
      refine ⟨?_, s.memory, s.gasLeft, _, 0, rfl, by simp⟩
      intro hne
      obtain ⟨h1, h2, rfl⟩ := regionEnd_u256 hend hne
      exact ⟨h1, h2, hle⟩
  | grown newSize m hend hlt hgas hm hbytes =>
      refine ⟨?_, m, _, _, m.size - s.memory.size, rfl, hbytes⟩
      intro hne
      obtain ⟨h1, h2, rfl⟩ := regionEnd_u256 hend hne
      refine ⟨h1, h2, ?_⟩
      show _ ≤ m.size
      omega

/-! ## Tracking -/

/-- `s` comes after `s0` in the run of an implementation. -/
structure Follows (rules : Rules) (s0 s : ExecutionState σ) : Prop where
  context : s.toContext = s0.toContext
  memory : s0.memory.size ≤ s.memory.size
  sized : s.memory.Sized
  calls : ∃ new, s.calls = s0.calls ++ new ∧ (rules.isStatic → ∀ c ∈ new, c.request.Quiet)
  gas : rules.metered → s.gasLeft ≤ rules.ceiling ∧ s.ghost.overflow = false

/-- The abstract state `a` of the logic describes `s`, which comes after `s0`. If the height is
`known`, the stack has `below` items more than the logic knows of. -/
structure Tracks (rules : Rules) (known : Prop) (below : Nat) (s0 : ExecutionState σ) (a : Abs)
    (s : ExecutionState σ) : Prop where
  follows : Follows rules s0 s
  height : known → s.stack.height = a.height + below
  memory : a.memory = s.memory.size
  outputOffset : a.outputOffset = s.outputOffset
  outputSize : a.outputSize = s.outputSize
  gas : rules.metered → a.gas = s.gasLeft ∧ -2 ^ 62 ≤ s.gasLeft ∧ min s0.gasLeft 0 ≤ s.gasLeft

/-- A call was answered with more gas than it was given, or with a negative amount. -/
def Derailed (env : Env σ) (s0 s : ExecutionState σ) : Prop :=
  ∃ (msg : Message) (st : σ), (0 ≤ s0.gasLeft → 0 ≤ msg.gas) ∧
    ⟨.call msg, (env.host (.call msg) st).1⟩ ∈ s.calls ∧
    ¬ HostCall.Bounded ⟨.call msg, (env.host (.call msg) st).1⟩

theorem not_derailed_of_callBounded {env : Env σ} {s0 s : ExecutionState σ}
    (henv : env.host.CallBounded) (h0 : 0 ≤ s0.gasLeft) : ¬ Derailed env s0 s := by
  rintro ⟨msg, st, hmsg, -, hnot⟩
  exact hnot (henv msg st (hmsg h0))

/-- Follow-up states that differ in fields the relation does not mention. -/
theorem Follows.congr {rules : Rules} {s0 s s' : ExecutionState σ} (h : Follows rules s0 s)
    (hctx : s'.toContext = s.toContext) (hmem : s'.memory = s.memory) (hcalls : s'.calls = s.calls)
    (hgas : s'.gasLeft = s.gasLeft) (hghost : s'.ghost.overflow = s.ghost.overflow) :
    Follows rules s0 s' := by
  obtain ⟨h1, h2, h3, h4, h5⟩ := h
  refine ⟨hctx.trans h1, ?_, ?_, ?_, ?_⟩
  · rw [hmem]; exact h2
  · rw [hmem]; exact h3
  · rw [hcalls]; exact h4
  · rw [hgas, hghost]; exact h5

section Handle

variable {env : Env σ} {rules : Rules} {known : Prop} {below : Nat} {s0 s : ExecutionState σ}
  {a : Abs}

/-- What is known of a state in which an implementation has left the loop. -/
structure Exited (rules : Rules) (s0 : ExecutionState σ) (status : StatusCode)
    (s : ExecutionState σ) : Prop where
  follows : Follows rules s0 s
  status : ¬ status.keepsGas
  outputSize : s.outputSize = 0

/-- The faults that the logic does not rule out. -/
def Excused (rules : Rules) (known : Prop) (f : Fault) : Prop :=
  (f = .stack ∧ ¬ known) ∨ (f = .memory ∧ ¬ rules.fits) ∨ rules.metered

/-- The outcomes the logic promises, for a postcondition `Q`. -/
abbrev Promised {α : Type} (env : Env σ) (rules : Rules) (known : Prop) (below : Nat)
    (s0 : ExecutionState σ) (Q : α → Abs → Prop) (r : Result σ α) : Prop :=
  r.Meets
    (fun x s' => (rules.metered ∧ Derailed env s0 s') ∨
      ∃ a', Tracks rules known below s0 a' s' ∧ Q x a')
    (fun status s' => (rules.metered ∧ Derailed env s0 s') ∨ Exited rules s0 status s')
    (Excused rules known)

theorem Tracks.setStack (h : Tracks rules known below s0 a s) {stack : Stack} {height : Nat}
    (hheight : known → stack.height = height + below) :
    Tracks rules known below s0 { a with height := height } { s with stack := stack } :=
  ⟨h.follows.congr rfl rfl rfl rfl rfl, hheight, h.memory, h.outputOffset, h.outputSize, h.gas⟩

theorem promised_pop (hR : Tracks rules known below s0 a s) {Q : UInt256 → Abs → Prop}
    (hT : Safe rules .pop a Q) : Promised env rules known below s0 Q (handle env .pop s) := by
  obtain ⟨h1, hQ⟩ := hT
  by_cases hpos : 0 < s.stack.height
  · obtain ⟨item, stack, hpop, hitems⟩ := Stack.pop?_of_pos hpos
    have hlen : s.stack.height = stack.height + 1 := by
      rw [← Stack.length_items s.stack, hitems, List.length_cons, Stack.length_items]
    simp only [handle, hpop]
    refine .inr ⟨_, hR.setStack fun hk => ?_, hQ item⟩
    have := hR.height hk
    omega
  · simp only [handle, Stack.pop?_of_not_pos hpos]
    refine .inl ⟨rfl, fun hk => hpos ?_⟩
    have := hR.height hk
    omega

theorem promised_push (hlimit : known → rules.limit + below ≤ 1024)
    (hR : Tracks rules known below s0 a s) (item : UInt256) {Q : Unit → Abs → Prop}
    (hT : Safe rules (.push item) a Q) :
    Promised env rules known below s0 Q (handle env (.push item) s) := by
  obtain ⟨h1, hQ⟩ := hT
  by_cases hlt : s.stack.height < Stack.limit
  · obtain ⟨stack, hpush, hitems⟩ := Stack.push?_of_lt hlt item
    have hlen : stack.height = s.stack.height + 1 := by
      rw [← Stack.length_items stack, hitems, List.length_cons, Stack.length_items]
    simp only [handle, hpush]
    refine .inr ⟨_, hR.setStack fun hk => ?_, hQ⟩
    have := hR.height hk
    omega
  · simp only [handle, Stack.push?_of_not_lt hlt]
    refine .inl ⟨rfl, fun hk => hlt ?_⟩
    have h2 := hR.height hk
    have h3 := hlimit hk
    unfold Stack.limit
    omega

theorem promised_peek (hR : Tracks rules known below s0 a s) (index : Nat)
    {Q : UInt256 → Abs → Prop} (hT : Safe rules (.peek index) a Q) :
    Promised env rules known below s0 Q (handle env (.peek index) s) := by
  obtain ⟨h1, hQ⟩ := hT
  by_cases hlt : index < s.stack.height
  · obtain ⟨item, hget⟩ : ∃ item, s.stack.get? index = some item :=
      ⟨_, by rw [Stack.get?_eq, List.getElem?_eq_getElem (by simpa using hlt)]⟩
    simp only [handle, hget]
    exact .inr ⟨a, hR, hQ _⟩
  · have hget : s.stack.get? index = none := if_neg hlt
    simp only [handle, hget]
    refine .inl ⟨rfl, fun hk => hlt ?_⟩
    have := hR.height hk
    omega

theorem promised_poke (hR : Tracks rules known below s0 a s) (index : Nat) (item : UInt256)
    {Q : Unit → Abs → Prop} (hT : Safe rules (.poke index item) a Q) :
    Promised env rules known below s0 Q (handle env (.poke index item) s) := by
  obtain ⟨h1, hQ⟩ := hT
  by_cases hlt : index < s.stack.height
  · obtain ⟨stack, hset, hitems⟩ := Stack.set?_of_lt hlt item
    have hlen : stack.height = s.stack.height := by
      rw [← Stack.length_items stack, hitems, List.length_set, Stack.length_items]
    simp only [handle, hset]
    refine .inr ⟨a, hR.setStack fun hk => ?_, hQ⟩
    rw [hlen]
    exact hR.height hk
  · simp only [handle, Stack.set?_of_not_lt hlt]
    refine .inl ⟨rfl, fun hk => hlt ?_⟩
    have := hR.height hk
    omega

/-- A cost is subtracted from the gas left without overflow. -/
theorem Tracks.inInt64_sub (hR : Tracks rules known below s0 a s) {cost : Int} (h0 : 0 ≤ cost)
    (hc : cost < 2 ^ 62) (hm : rules.metered) : InInt64 (s.gasLeft - cost) := by
  have h1 := hR.gas hm
  have h2 := hR.follows.gas hm
  have h3 := rules.ceiling_lt
  constructor <;> omega

theorem Tracks.setGas_gasLeft (hR : Tracks rules known below s0 a s) {cost : Int} (h0 : 0 ≤ cost)
    (hc : cost < 2 ^ 62) (hm : rules.metered) :
    (s.setGas (s.gasLeft - cost)).gasLeft = s.gasLeft - cost :=
  toInt64_of_inInt64 (hR.inInt64_sub h0 hc hm)

/-- The states after a subtraction of a cost. -/
theorem Tracks.follows_setGas (hR : Tracks rules known below s0 a s) {cost : Int} (h0 : 0 ≤ cost)
    (hc : cost < 2 ^ 62) : Follows rules s0 (s.setGas (s.gasLeft - cost)) := by
  obtain ⟨h1, h2, h3, h4, h5⟩ := hR.follows
  refine ⟨h1, h2, h3, h4, fun hm => ⟨?_, ?_⟩⟩
  · rw [hR.setGas_gasLeft h0 hc hm]
    have := (h5 hm).1
    omega
  · show (s.ghost.overflow || !decide (InInt64 (s.gasLeft - cost))) = false
    rw [(h5 hm).2, decide_eq_true (hR.inInt64_sub h0 hc hm)]
    rfl

theorem promised_charge (hR : Tracks rules known below s0 a s) (cost : Int)
    {Q : Unit → Abs → Prop} (hT : Safe rules (.charge cost) a Q) :
    Promised env rules known below s0 Q (handle env (.charge cost) s) := by
  obtain ⟨⟨h0, hc⟩, hout, hQ⟩ := hT
  have hf := hR.follows_setGas h0 hc
  simp only [handle]
  rw [noteInt64_of_inInt64 ⟨by omega, by omega⟩]
  by_cases hneg : (s.setGas (s.gasLeft - cost)).gasLeft < 0
  · rw [if_pos hneg]
    exact .inr ⟨hf, by decide, hR.outputSize.symm.trans hout⟩
  · rw [if_neg hneg]
    refine .inr ⟨{ a with gas := (s.setGas (s.gasLeft - cost)).gasLeft }, ?_, hQ _ fun hm => ?_⟩
    · refine ⟨hf, hR.height, hR.memory, hR.outputOffset, hR.outputSize, fun hm => ⟨rfl, ?_, ?_⟩⟩
      · omega
      · omega
    · rw [hR.setGas_gasLeft h0 hc hm, (hR.gas hm).1]
      have := hR.setGas_gasLeft h0 hc hm
      omega

/-- A memory check that passes leads to a state the logic allows to continue in. -/
theorem promised_checkMemory_pass (hR : Tracks rules known below s0 a s) {offset : UInt256}
    {size : MemorySize} (hsize : ∀ n, size = .u64 n → n ≤ maxBufferSize)
    (hout : a.outputSize = 0) {Q : Unit → Abs → Prop}
    (hQ : ∀ newSize m g, regionEnd offset size = some newSize → newSize ≤ m → a.memory ≤ m →
      Paid rules a.gas g → Q () { a with memory := m, gas := g }) :
    Promised env rules known below s0 Q (handle env (.checkMemory offset size) s) := by
  have hres := handle_checkMemory env s offset size hsize
  generalize handle env (.checkMemory offset size) s = r at hres
  cases hres with
  | rejected hend =>
      exact .inr ⟨hR.follows.congr rfl rfl rfl rfl rfl, by decide, hR.outputSize.symm.trans hout⟩
  | covered newSize hend hle =>
      refine .inr ⟨a, ?_, ?_⟩
      · exact ⟨hR.follows.congr rfl rfl rfl rfl rfl, hR.height, hR.memory, hR.outputOffset,
          hR.outputSize, hR.gas⟩
      · exact hQ newSize a.memory a.gas hend (hR.memory ▸ hle) le_rfl (Paid.refl _)
  | unpaid newSize hend hlt hgas =>
      have hcost := growthCost_bounds hlt (regionEnd_le hsize hend)
      refine .inr ⟨(hR.follows_setGas hcost.1 hcost.2).congr rfl rfl rfl rfl rfl, by decide, ?_⟩
      exact hR.outputSize.symm.trans hout
  | grown newSize m hend hlt hgas hm hbytes =>
      have hle := regionEnd_le hsize hend
      have hcost := growthCost_bounds hlt hle
      have hf := hR.follows_setGas hcost.1 hcost.2
      have hmem := hR.memory
      have hmemory := hR.follows.memory
      refine .inr ⟨⟨a.height, m.size, a.outputOffset, a.outputSize,
        toInt64 (s.gasLeft - growthCost s.memory.size newSize)⟩, ?_, ?_⟩
      · refine ⟨⟨hf.context, ?_, ?_, hf.calls, hf.gas⟩, hR.height, rfl, hR.outputOffset,
          hR.outputSize, fun hm => ⟨rfl, ?_, ?_⟩⟩
        · show s0.memory.size ≤ m.size
          omega
        · show m.size % 32 = 0 ∧ m.size ≤ 2 ^ 33
          omega
        · show -2 ^ 62 ≤ toInt64 (s.gasLeft - growthCost s.memory.size newSize)
          omega
        · show min s0.gasLeft 0 ≤ toInt64 (s.gasLeft - growthCost s.memory.size newSize)
          omega
      · refine hQ newSize m.size _ hend (by omega) (by omega) fun hm => ?_
        have h1 := hR.setGas_gasLeft hcost.1 hcost.2 hm
        have h2 := (hR.gas hm).1
        have h3 : toInt64 (s.gasLeft - growthCost s.memory.size newSize) =
            s.gasLeft - growthCost s.memory.size newSize := h1
        omega

theorem promised_checkMemory (hR : Tracks rules known below s0 a s) (offset : UInt256)
    (size : MemorySize) {Q : Unit → Abs → Prop} (hT : Safe rules (.checkMemory offset size) a Q) :
    Promised env rules known below s0 Q (handle env (.checkMemory offset size) s) := by
  cases size with
  | u64 size =>
      obtain ⟨hsize, hout, hQ⟩ := hT
      refine promised_checkMemory_pass hR (fun n hn => ?_) hout ?_
      · injection hn with hn
        omega
      · intro newSize m g hend hle hm hg
        obtain ⟨h1, h2⟩ := regionEnd_u64 hsize hend
        exact hQ m g hm hg h1 (by omega)
  | u256 size =>
      obtain ⟨hout, hQ⟩ := hT
      refine promised_checkMemory_pass hR (fun n hn => by cases hn) hout ?_
      intro newSize m g hend hle hm hg
      refine hQ m g hm hg fun hs => ?_
      obtain ⟨h1, h2, h3⟩ := regionEnd_u256 hend hs
      exact ⟨h1, h2, by omega⟩

theorem promised_load (hR : Tracks rules known below s0 a s) (offset length : Nat)
    {Q : List Byte → Abs → Prop} (hT : Safe rules (.load offset length) a Q) :
    Promised env rules known below s0 Q (handle env (.load offset length) s) := by
  obtain ⟨hfits, hQ⟩ := hT
  by_cases hle : offset + length ≤ s.memory.size
  · simp only [handle, Memory.load?_of_le hle]
    refine .inr ⟨a, hR, hQ _ ?_⟩
    rw [List.length_take, List.length_drop, Memory.length_bytes]
    omega
  · simp only [handle, Memory.load?_of_not_le hle]
    refine .inr (.inl ⟨rfl, fun hf => hle ?_⟩)
    rw [← hR.memory]
    exact hfits hf

theorem promised_store (hR : Tracks rules known below s0 a s) (offset : Nat) (bytes : List Byte)
    {Q : Unit → Abs → Prop} (hT : Safe rules (.store offset bytes) a Q) :
    Promised env rules known below s0 Q (handle env (.store offset bytes) s) := by
  obtain ⟨hfits, hQ⟩ := hT
  by_cases hle : offset + bytes.length ≤ s.memory.size
  · obtain ⟨m, hstore, -, hsize⟩ := Memory.store?_of_le hle
    obtain ⟨h1, h2, h3, h4, h5⟩ := hR.follows
    simp only [handle, hstore]
    refine .inr ⟨a, ⟨⟨h1, ?_, ?_, h4, h5⟩, hR.height, ?_, hR.outputOffset,
      hR.outputSize, hR.gas⟩, hQ⟩
    · rw [hsize]; exact h2
    · unfold Memory.Sized
      rw [hsize]; exact h3
    · rw [hsize]; exact hR.memory
  · simp only [handle, Memory.store?_of_not_le hle]
    refine .inr (.inl ⟨rfl, fun hf => hle ?_⟩)
    rw [← hR.memory]
    exact hfits hf

theorem promised_setGasLeft (hR : Tracks rules known below s0 a s) (gas : Int)
    {Q : Unit → Abs → Prop} (hT : Safe rules (.setGasLeft gas) a Q) :
    Promised env rules known below s0 Q (handle env (.setGasLeft gas) s) := by
  obtain ⟨-, hgas, hQ⟩ := hT
  obtain ⟨h1, h2, h3, h4, h5⟩ := hR.follows
  refine .inr ⟨{ a with gas := gas }, ?_, hQ⟩
  refine ⟨⟨h1, h2, h3, h4, fun hm => ⟨(hgas hm).2, (h5 hm).2⟩⟩, hR.height, hR.memory,
    hR.outputOffset, hR.outputSize, fun hm => ⟨rfl, ?_, ?_⟩⟩
  · have h6 := hR.gas hm
    have h7 := hgas hm
    simp only
    omega
  · have h6 := hR.gas hm
    have h7 := hgas hm
    simp only
    omega

theorem promised_int64 (hR : Tracks rules known below s0 a s) (x : Int) {Q : Int → Abs → Prop}
    (hT : Safe rules (.int64 x) a Q) :
    Promised env rules known below s0 Q (handle env (.int64 x) s) := by
  obtain ⟨-, hx, hQ⟩ := hT
  obtain ⟨h1, h2, h3, h4, h5⟩ := hR.follows
  refine .inr ⟨a, ?_, hQ _ fun hm => toInt64_of_inInt64 (hx hm)⟩
  refine ⟨⟨h1, h2, h3, h4, fun hm => ⟨(h5 hm).1, ?_⟩⟩, hR.height, hR.memory, hR.outputOffset,
    hR.outputSize, hR.gas⟩
  show (s.ghost.overflow || !decide (InInt64 x)) = false
  rw [(h5 hm).2, decide_eq_true (hx hm)]
  rfl

/-- An answer of `call()` out of its bounds derails the logic; every other answer is one it has
reckoned with. -/
theorem promised_request (hfits : rules.fits → env.host.CopyFits)
    (hR : Tracks rules known below s0 a s) (q : HostRequest) {Q : q.Response → Abs → Prop}
    (hT : Safe rules (.request q) a Q) :
    Promised env rules known below s0 Q (handle env (.request q) s) := by
  obtain ⟨hquiet, hsolvent, hQ⟩ := hT
  obtain ⟨h1, h2, h3, ⟨new, h4, h4'⟩, h5⟩ := hR.follows
  have hfits' : rules.fits → HostCall.Fits ⟨q, (env.host q s.host).1⟩ := by
    intro hf
    cases q with
    | copyCode addr codeOffset bufferSize => exact hfits hf addr codeOffset bufferSize s.host
    | _ => trivial
  -- an answer to a call that breaks the host's bound derails a metered run; every other
  -- request has no bound to break
  by_cases hbounded : rules.metered → HostCall.Bounded ⟨q, (env.host q s.host).1⟩
  · refine .inr ⟨a, ?_, hQ _ hfits' hbounded⟩
    refine ⟨⟨h1, h2, h3, ⟨new ++ [⟨q, (env.host q s.host).1⟩], ?_, ?_⟩, h5⟩, hR.height, hR.memory,
      hR.outputOffset, hR.outputSize, hR.gas⟩
    · rw [h4, List.append_assoc]
    · intro hs c hc
      rcases List.mem_append.1 hc with hc | hc
      · exact h4' hs c hc
      · rw [List.mem_singleton.1 hc]
        exact hquiet hs
  · obtain ⟨hm, hnot⟩ := Classical.not_imp.1 hbounded
    refine .inl ⟨hm, ?_⟩
    cases q with
    | call msg =>
        refine ⟨msg, s.host, fun h0 => ?_, List.mem_append_right _ (List.mem_singleton.2 rfl), hnot⟩
        have h6 := hR.gas hm
        exact hsolvent hm (by omega)
    | _ => exact absurd trivial hnot

/-- Every operation meets its rule in the logic. -/
theorem handle_safe (hlimit : known → rules.limit + below ≤ 1024)
    (hfits : rules.fits → env.host.CopyFits) (o : Op) (hR : Tracks rules known below s0 a s)
    {Q : o.Res → Abs → Prop} (hT : Safe rules o a Q) :
    Promised env rules known below s0 Q (handle env o s) := by
  have hf := hR.follows
  cases o with
  | pop => exact promised_pop hR hT
  | push item => exact promised_push hlimit hR item hT
  | peek index => exact promised_peek hR index hT
  | poke index item => exact promised_poke hR index item hT
  | charge cost => exact promised_charge hR cost hT
  | checkMemory offset size => exact promised_checkMemory hR offset size hT
  | load offset length => exact promised_load hR offset length hT
  | store offset bytes => exact promised_store hR offset bytes hT
  | memorySize => exact .inr ⟨a, hR, hT _⟩
  | gasLeft => exact .inr ⟨a, hR, hT.2 _ fun hm => (hR.gas hm).1.symm⟩
  | setGasLeft gas => exact promised_setGasLeft hR gas hT
  | int64 x => exact promised_int64 hR x hT
  | returnData => exact .inr ⟨a, hR, hT _⟩
  | setReturnData data =>
      exact .inr ⟨a, ⟨hf.congr rfl rfl rfl rfl rfl, hR.height, hR.memory, hR.outputOffset,
        hR.outputSize, hR.gas⟩, hT⟩
  | setOutputOffset offset =>
      exact .inr ⟨{ a with outputOffset := offset }, ⟨hf.congr rfl rfl rfl rfl rfl, hR.height,
        hR.memory, rfl, hR.outputSize, hR.gas⟩, hT⟩
  | setOutputSize size =>
      exact .inr ⟨{ a with outputSize := size }, ⟨hf.congr rfl rfl rfl rfl rfl, hR.height,
        hR.memory, hR.outputOffset, rfl, hR.gas⟩, hT⟩
  | request q => exact promised_request hfits hR q hT
  | keccak256 data => exact .inr ⟨a, hR, hT _⟩
  | exit status => exact .inr ⟨hf, hT.1, hR.outputSize.symm.trans hT.2⟩
  | fault f => exact hT.elim

@[simp] theorem setGas_calls (s : ExecutionState σ) (x : Int) : (s.setGas x).calls = s.calls := rfl

@[simp] theorem noteInt64_calls (s : ExecutionState σ) (x : Int) :
    (s.noteInt64 x).calls = s.calls := rfl

theorem growMemory_calls (s : ExecutionState σ) (alloc : Allocator) (newSize : Nat) :
    (s.growMemory alloc newSize).Meets (fun _ s' => s'.calls = s.calls) (fun _ _ => False)
      fun _ => True := by
  unfold ExecutionState.growMemory
  dsimp only
  split
  · simp only [Outcome.meets_ok, setGas_calls, noteInt64_calls]
  · split
    · simp only [Outcome.meets_ok, setGas_calls, noteInt64_calls]
    · trivial

theorem checkMemory_calls (s : ExecutionState σ) (alloc : Allocator) (offset : UInt256)
    (size : MemorySize) :
    (s.checkMemory alloc offset size).Meets (fun _ s' => s'.calls = s.calls) (fun _ _ => False)
      fun _ => True := by
  rw [checkMemory_eq]
  split
  · exact rfl
  · split
    · exact growMemory_calls s alloc _
    · exact rfl

/-- Operations never forget a call. -/
theorem handle_calls (env : Env σ) (o : Op) (s : ExecutionState σ) :
    (handle env o s).Meets (fun _ s' => ∀ c ∈ s.calls, c ∈ s'.calls)
      (fun _ s' => ∀ c ∈ s.calls, c ∈ s'.calls) fun _ => True := by
  cases o with
  | pop | push | peek | poke | load | store =>
      simp only [handle]
      split
      · exact fun _ => id
      · trivial
  | charge cost =>
      simp only [handle]
      split <;> exact fun _ => id
  | checkMemory offset size =>
      refine Outcome.Meets.bind (P := fun _ s' => s'.calls = s.calls)
        ((checkMemory_calls s env.alloc offset size).mono (fun _ _ => id) (fun _ _ => False.elim)
          fun _ => id) fun passed s' hs' => ?_
      cases passed with
      | true => exact fun c hc => hs' ▸ hc
      | false => exact fun c hc => hs' ▸ hc
  | request q => exact fun c hc => List.mem_append_left _ hc
  | fault f => trivial
  | _ => exact fun _ => id

/-- Soundness: a derivation in the logic is a fact about the run. -/
theorem run_safe (hlimit : known → rules.limit + below ≤ 1024)
    (hfits : rules.fits → env.host.CopyFits) {α : Type} {p : Exec α} {Q : α → Abs → Prop}
    (hR : Tracks rules known below s0 a s) (hp : p.Sat (Safe rules) Q a) :
    Promised env rules known below s0 Q (p.run env s) := by
  refine Program.run_meets_or ?_ (fun o a s Q hR hT => handle_safe hlimit hfits o hR hT) hR hp
  rintro o s ⟨hm, msg, st, hmsg, hmem, hnot⟩
  refine (handle_calls env o s).mono ?_ ?_ fun _ _ => .inr (.inr hm)
  · exact fun _ s' hcalls => ⟨hm, msg, st, hmsg, hcalls _ hmem, hnot⟩
  · exact fun _ s' hcalls => .inl ⟨hm, msg, st, hmsg, hcalls _ hmem, hnot⟩

end Handle

end Ivmone
