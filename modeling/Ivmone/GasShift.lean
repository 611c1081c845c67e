import Ivmone.PayableRuns

/-!
# Runs with other amounts of gas

Two runs of an implementation that does not read the gas left, from states that differ only in it:
the second run does the same as the first one, with the difference kept, as long as its gas
suffices. When it does not, the second run is out of gas, and the gas of the first one has fallen
below the difference.
-/

set_option autoImplicit false

namespace Ivmone

open Lib Lib.Program Instructions

/-! ## States that differ in their gas -/

/-- The same context but for the gas of the message. -/
def Context.withGas (ctx : Context) (gas : Int) : Context :=
  { ctx with msg := { ctx.msg with gas := gas } }

variable {σ : Type}

/-- The same invocation with another amount of gas. -/
def Invocation.withGas (i : Invocation σ) (gas : Int) : Invocation σ :=
  { i with ctx := i.ctx.withGas gas }

/-- The state with `δ` more gas left, in the context of a message with the gas `gas`. -/
def ExecutionState.shifted (s : ExecutionState σ) (gas δ : Int) (ghost : Ghost) :
    ExecutionState σ :=
  { s with toContext := s.toContext.withGas gas, gasLeft := s.gasLeft + δ, ghost := ghost }

/-- The second state is the first one with `δ` more gas, and both are solvent. -/
structure Apart (gas δ : Int) (s t : ExecutionState σ) : Prop where
  same : ∃ ghost, t = s.shifted gas δ ghost
  solvent : 0 ≤ s.gasLeft
  solvent' : 0 ≤ s.gasLeft + δ

/-- The gas left would be negative with the difference. -/
structure Depleted (δ : Int) (s : ExecutionState σ) : Prop where
  solvent : 0 ≤ s.gasLeft
  short : s.gasLeft + δ < 0

/-- At most `limit` gas is left, and there is no output yet. -/
structure Open (limit : Int) (s : ExecutionState σ) : Prop where
  bound : s.gasLeft ≤ limit
  noOutput : s.outputSize = 0

/-- Two outcomes of an implementation. If the first run goes well, the second one has the same
outcome, or is out of gas. -/
abbrev GasTrails {α : Type} (gas δ limit : Int) (Q : α → Prop) : Result σ α → Result σ α → Prop :=
  Trails (fun x s t => (Apart gas δ s t ∧ Open limit s) ∧ Q x) (fun _ s t => Apart gas δ s t)
    (fun x s => (Depleted δ s ∧ Open limit s) ∧ Q x)
    (fun status s => ¬ status.keepsGas ∨ Depleted δ s) (fun status => ¬ status.keepsGas)
    fun status t => status = .outOfGas ∧ t.outputSize = 0

variable {env : Env σ} {gas δ limit : Int} {s t : ExecutionState σ}

theorem Open.mono {limit' : Int} (h : Open limit s) (hle : limit ≤ limit') : Open limit' s :=
  { h with bound := h.bound.trans hle }

/-- What the states have in common. -/
theorem Apart.fields (h : Apart gas δ s t) :
    t.rev = s.rev ∧ t.stack = s.stack ∧ t.outputSize = s.outputSize ∧
      t.gasLeft = s.gasLeft + δ := by
  obtain ⟨ghost, rfl⟩ := h.same
  exact ⟨rfl, rfl, rfl, rfl⟩

theorem Apart.context (h : Apart gas δ s t) : t.toContext = s.toContext.withGas gas := by
  obtain ⟨ghost, rfl⟩ := h.same
  rfl

/-! ## Operations that take gas -/

/-- The state after a cost has been taken. -/
def ExecutionState.paid (s : ExecutionState σ) (cost : Int) : ExecutionState σ :=
  { s with gasLeft := s.gasLeft - cost }

section Pay

variable {cost : Int}

/-- Both runs take a cost without overflows. -/
theorem Apart.setGas_eq (h : Apart gas δ s t) (hs : Open limit s) (hlimit : limit < 2 ^ 63)
    (hlimit' : limit + δ < 2 ^ 63) (h0 : 0 ≤ cost) (h62 : cost < 2 ^ 62) :
    s.setGas (s.gasLeft - cost) = s.paid cost ∧ t.setGas (t.gasLeft - cost) = t.paid cost := by
  obtain ⟨-, -, -, hgas⟩ := h.fields
  have hsolvent := h.solvent
  have hsolvent' := h.solvent'
  have hbound := hs.bound
  exact ⟨setGas_of_cost hsolvent (by omega) h0 h62,
    setGas_of_cost (by omega) (by omega) h0 h62⟩

theorem toInt64_of_paid (h : s.setGas (s.gasLeft - cost) = s.paid cost) :
    toInt64 (s.gasLeft - cost) = s.gasLeft - cost := congrArg ExecutionState.gasLeft h

theorem Open.pay (h : Open limit s) : Open (limit - cost) (s.paid cost) :=
  ⟨Int.sub_le_sub_right h.bound cost, h.noOutput⟩

theorem Apart.pay (h : Apart gas δ s t) (hs : cost ≤ s.gasLeft) (ht : cost ≤ t.gasLeft) :
    Apart gas δ (s.paid cost) (t.paid cost) := by
  obtain ⟨ghost, rfl⟩ := h.same
  have ht' : cost ≤ s.gasLeft + δ := ht
  have hgas : s.gasLeft + δ - cost = s.gasLeft - cost + δ := by omega
  refine ⟨⟨ghost, ?_⟩, ?_, ?_⟩
  · simp only [ExecutionState.shifted, ExecutionState.paid, hgas]
  · show 0 ≤ s.gasLeft - cost
    omega
  · show 0 ≤ s.gasLeft - cost + δ
    omega

theorem Apart.setMemory (h : Apart gas δ s t) (m : Memory) (ghost ghost' : Ghost) :
    Apart gas δ { s with memory := m, ghost := ghost } { t with memory := m, ghost := ghost' } := by
  obtain ⟨ghost, rfl⟩ := h.same
  exact ⟨⟨ghost', rfl⟩, h.solvent, h.solvent'⟩

/-- Only the first run can pay. -/
theorem Apart.deplete (h : Apart gas δ s t) (hs : cost ≤ s.gasLeft) (ht : t.gasLeft < cost) :
    Depleted δ (s.paid cost) := by
  obtain ⟨-, -, -, hgas⟩ := h.fields
  refine ⟨?_, ?_⟩
  · show 0 ≤ s.gasLeft - cost
    omega
  · show s.gasLeft - cost + δ < 0
    omega

theorem Depleted.pay (h : Depleted δ s) (h0 : 0 ≤ cost) (hs : cost ≤ s.gasLeft) :
    Depleted δ (s.paid cost) := by
  have hshort := h.short
  refine ⟨?_, ?_⟩
  · show 0 ≤ s.gasLeft - cost
    omega
  · show s.gasLeft - cost + δ < 0
    omega

end Pay

/-- The outcome of an operation that takes a cost and leaves a memory. -/
inductive Taken (cost : Int) (m : Memory) (s : ExecutionState σ) : Result σ Unit → Prop
  | paid (ghost : Ghost) (h : cost ≤ s.gasLeft) :
      Taken cost m s (.ok () { s.paid cost with memory := m, ghost := ghost })
  | unpaid (t : ExecutionState σ) (h : s.gasLeft < cost) (ht : t.outputSize = s.outputSize) :
      Taken cost m s (.exit .outOfGas t)

theorem charge_taken (env : Env σ) {cost : Int} (h0 : 0 ≤ cost) (h62 : cost < 2 ^ 62)
    (hs : 0 ≤ s.gasLeft) (h63 : s.gasLeft < 2 ^ 63) :
    Taken cost s.memory s (handle env (.charge cost) s) := by
  have hin : InInt64 cost := ⟨by omega, by omega⟩
  simp only [handle]
  rw [noteInt64_of_inInt64 hin, setGas_of_cost hs h63 h0 h62]
  split
  · rename_i hneg
    have hlt : s.gasLeft - cost < 0 := hneg
    exact .unpaid _ (by omega) rfl
  · rename_i hpos
    have hle : ¬ s.gasLeft - cost < 0 := hpos
    exact .paid s.ghost (by omega)

/-- The size of a region that is not rejected. -/
theorem size_le_of_regionEnd {offset size : UInt256} {newSize : Nat}
    (h : regionEnd offset (.u256 size) = some newSize) : size.toNat ≤ maxBufferSize := by
  by_cases hzero : size.toNat = 0
  · rw [hzero]
    exact Nat.zero_le _
  · exact (regionEnd_u256 h hzero).2.1

/-- What a memory check does depends on the memory, and on the gas left only by whether it
suffices. -/
theorem checkMemory_taken_or (env : Env σ) (memory : Memory) (offset : UInt256) (size : MemorySize)
    (hsize : ∀ n, size = .u64 n → n ≤ maxBufferSize) :
    (∀ s : ExecutionState σ, s.memory = memory →
      ∃ t, handle env (.checkMemory offset size) s = .exit .outOfGas t) ∨
    (∀ n, size = .u256 n → n.toNat ≤ maxBufferSize) ∧
      ∃ cost m, 0 ≤ cost ∧ cost < 2 ^ 62 ∧
        ∀ s : ExecutionState σ, s.memory = memory → 0 ≤ s.gasLeft → s.gasLeft < 2 ^ 63 →
          Taken cost m s (handle env (.checkMemory offset size) s) := by
  have heq : ∀ s : ExecutionState σ, handle env (.checkMemory offset size) s =
      (s.checkMemory env.alloc offset size).bind fun passed s' =>
        if passed then .ok () (s'.noteCheck s offset size passed)
        else .exit .outOfGas (s'.noteCheck s offset size passed) := fun s => rfl
  simp only [checkMemory_eq] at heq
  -- neither the region's end nor the growth depends on the gas: the cost is the same
  -- wherever the memory is
  cases hend : regionEnd offset size with
  | none =>
      refine .inl fun s _ => ⟨s.noteCheck s offset size false, ?_⟩
      rw [heq, hend]
      rfl
  | some newSize =>
      refine .inr ⟨?_, ?_⟩
      · rintro n rfl
        exact size_le_of_regionEnd hend
      by_cases hlt : memory.size < newSize
      · have hle := regionEnd_le hsize hend
        obtain ⟨h0, h62⟩ := growthCost_bounds hlt hle
        obtain ⟨m, hm, -, -⟩ := Memory.grow?_of_lt env.alloc
          (show 32 * ((newSize + 31) / 32) % 32 = 0 by omega)
          (show memory.size < 32 * ((newSize + 31) / 32) by omega)
        refine ⟨growthCost memory.size newSize, m, h0, h62, ?_⟩
        rintro s rfl hs h63
        rw [heq, hend]
        simp only [if_pos hlt, growMemory_of_grow hlt hle hm]
        rw [setGas_of_cost hs h63 h0 h62]
        by_cases hneg : s.gasLeft - growthCost s.memory.size newSize < 0
        · rw [if_pos hneg]
          exact .unpaid _ (by omega) rfl
        · rw [if_neg hneg]
          exact .paid _ (by omega)
      · refine ⟨0, memory, le_rfl, by omega, ?_⟩
        rintro s rfl hs h63
        rw [heq, hend]
        simp only [if_neg hlt]
        have hpaid := Taken.paid (m := s.memory) (s.noteCheck s offset size true).ghost hs
        rwa [ExecutionState.paid, Int.sub_zero] at hpaid

/-- A cost that both runs pay, or only the first one. -/
theorem trails_of_taken {cost : Int} {m : Memory} {r r' : Result σ Unit} {Q : Prop}
    (h : Apart gas δ s t) (hs : Open limit s) (hr : Taken cost m s r) (hr' : Taken cost m t r')
    (hQ : Q) : GasTrails gas δ (limit - cost) (fun _ => Q) r r' := by
  cases hr with
  | unpaid s' hlt hs' => exact .failed _ _ (by decide)
  | paid ghost hle =>
      have hopen : Open (limit - cost) { s.paid cost with memory := m, ghost := ghost } :=
        ⟨hs.pay.bound, hs.noOutput⟩
      cases hr' with
      | paid ghost' hle' => exact .ok ⟨⟨(h.pay hle hle').setMemory m ghost ghost', hopen⟩, hQ⟩
      | unpaid t' hlt ht' =>
          have hdepleted := h.deplete hle hlt
          refine .bail ⟨⟨⟨hdepleted.solvent, hdepleted.short⟩, hopen⟩, hQ⟩ ⟨rfl, ?_⟩
          rw [ht', h.fields.2.2.1, hs.noOutput]

theorem depleted_of_taken {cost : Int} {m : Memory} {r : Result σ Unit} (h : Depleted δ s)
    (hs : Open limit s) (h0 : 0 ≤ cost) (hr : Taken cost m s r) :
    r.Meets (fun _ t => Depleted δ t ∧ Open (limit - cost) t)
      (fun status t => ¬ status.keepsGas ∨ Depleted δ t) fun _ => True := by
  cases hr with
  | unpaid s' hlt hs' => exact .inl (by decide)
  | paid ghost hle =>
      have hdepleted := h.pay h0 hle
      exact ⟨⟨hdepleted.solvent, hdepleted.short⟩, hs.pay.bound, hs.noOutput⟩

theorem charge_trails (env : Env σ) {cost : Int} (h0 : 0 ≤ cost) (h62 : cost < 2 ^ 62)
    (hlimit : limit < 2 ^ 63) (hlimit' : limit + δ < 2 ^ 63) (h : Apart gas δ s t)
    (hs : Open limit s) :
    GasTrails gas δ (limit - cost) (fun _ => True) (handle env (.charge cost) s)
      (handle env (.charge cost) t) := by
  have hsolvent' := h.solvent'
  have hbound := hs.bound
  have hr := charge_taken env h0 h62 h.solvent (by omega)
  obtain ⟨ghost, rfl⟩ := h.same
  have hgas : (s.shifted gas δ ghost).gasLeft = s.gasLeft + δ := rfl
  have hr' := charge_taken (s := s.shifted gas δ ghost) env h0 h62 hsolvent' (by omega)
  exact trails_of_taken h hs hr hr' trivial

/-! ## Implementations that do not read the gas -/

/-- An operation that neither reads nor sets the gas left, and leaves no output. -/
def Op.Oblivious : Op → Prop
  | .gasLeft | .setGasLeft _ | .setOutputSize _ => False
  | _ => True

/-- What is known after an operation that goes well. -/
def Op.Assures : Op → Prop
  | .checkMemory _ (.u256 size) => size.toNat ≤ maxBufferSize
  | _ => True

/-- The operations that do not depend on the gas left, other than by running out of it. -/
def Steady : Transformer Op Op.Res Unit := fun o _ Q =>
  (o.Takes ∧ o.Oblivious) ∧ (o.Assures → ∀ r, Q r ())

theorem GasTrails.weaken {α : Type} {limit' : Int} {Q : α → Prop} {r r' : Result σ α}
    (h : GasTrails gas δ limit Q r r') (hle : limit ≤ limit') : GasTrails gas δ limit' Q r r' :=
  Trails.mono h (fun _ _ _ h => ⟨⟨h.1.1, h.1.2.mono hle⟩, h.2⟩) fun _ _ h =>
    ⟨⟨h.1.1, h.1.2.mono hle⟩, h.2⟩

theorem assures_of_size {offset : UInt256} {size : MemorySize}
    (h : ∀ n, size = .u256 n → n.toNat ≤ maxBufferSize) : (Op.checkMemory offset size).Assures := by
  cases size with
  | u64 n => trivial
  | u256 n => exact h n rfl

theorem handle_trails (env : Env σ) (hlimit : limit < 2 ^ 63)
    (hlimit' : limit + δ < 2 ^ 63) {o : Op}
    (htakes : o.Takes) (hblind : o.Oblivious) (h : Apart gas δ s t) (hs : Open limit s) :
    GasTrails gas δ limit (fun _ => o.Assures) (handle env o s) (handle env o t) := by
  have hsolvent := h.solvent
  have hsolvent' := h.solvent'
  have hbound := hs.bound
  have hout := hs.noOutput
  obtain ⟨-, -, -, hgas⟩ := h.fields
  obtain ⟨ghost, rfl⟩ := h.same
  cases o with
  | gasLeft | setGasLeft | setOutputSize => exact hblind.elim
  | charge cost =>
      obtain ⟨h0, h62⟩ := htakes
      exact GasTrails.weaken (charge_trails env h0 h62 hlimit hlimit' h hs) (by omega)
  | checkMemory offset size =>
      have hsize : ∀ n, size = .u64 n → n ≤ maxBufferSize := by
        rintro n rfl
        exact htakes.2
      rcases checkMemory_taken_or env s.memory offset size hsize with hrejected |
        ⟨hassures, cost, m, h0, -, htaken⟩
      · obtain ⟨s', hs'⟩ := hrejected s rfl
        rw [hs']
        exact .failed _ _ (by decide)
      · have hr := htaken s rfl hsolvent (by omega)
        have hr' := htaken (s.shifted gas δ ghost) rfl (by omega) (by omega)
        exact GasTrails.weaken (trails_of_taken h hs hr hr' (assures_of_size hassures)) (by omega)
  | exit status => exact .exit h
  | fault f => exact .fault f _
  | pop | push | peek | poke | load | store =>
      simp only [handle, ExecutionState.shifted]
      split
      · exact .ok ⟨⟨⟨⟨ghost, rfl⟩, hsolvent, hsolvent'⟩, hbound, hout⟩, trivial⟩
      · exact .fault _ _
  | _ => exact .ok ⟨⟨⟨⟨_, rfl⟩, hsolvent, hsolvent'⟩, hbound, hout⟩, trivial⟩

/-- A run whose follower is out of gas. -/
theorem handle_depleted (env : Env σ) (hlimit : limit < 2 ^ 63) {o : Op} (htakes : o.Takes)
    (hblind : o.Oblivious) (h : Depleted δ s) (hs : Open limit s) :
    (handle env o s).Meets (fun _ t => (Depleted δ t ∧ Open limit t) ∧ o.Assures)
      (fun status t => ¬ status.keepsGas ∨ Depleted δ t) fun _ => True := by
  have hsolvent := h.solvent
  have hshort := h.short
  have hbound := hs.bound
  have hout := hs.noOutput
  cases o with
  | gasLeft | setGasLeft | setOutputSize => exact hblind.elim
  | charge cost =>
      obtain ⟨h0, h62⟩ := htakes
      have hr := charge_taken env h0 h62 hsolvent (by omega)
      refine (depleted_of_taken h hs h0 hr).mono ?_ (fun _ _ => id) fun _ => id
      exact fun _ _ ht => ⟨⟨ht.1, ht.2.mono (by omega)⟩, trivial⟩
  | checkMemory offset size =>
      have hsize : ∀ n, size = .u64 n → n ≤ maxBufferSize := by
        rintro n rfl
        exact htakes.2
      rcases checkMemory_taken_or env s.memory offset size hsize with hrejected |
        ⟨hassures, cost, m, h0, -, htaken⟩
      · obtain ⟨s', hs'⟩ := hrejected s rfl
        rw [hs']
        exact .inl (by decide)
      · have hr := htaken s rfl hsolvent (by omega)
        refine (depleted_of_taken h hs h0 hr).mono ?_ (fun _ _ => id) fun _ => id
        exact fun _ _ ht => ⟨⟨ht.1, ht.2.mono (by omega)⟩, assures_of_size hassures⟩
  | exit status => exact .inr h
  | fault f => trivial
  | pop | push | peek | poke | load | store =>
      simp only [handle]
      split
      · exact ⟨⟨⟨hsolvent, hshort⟩, hbound, hout⟩, trivial⟩
      · trivial
  | _ => exact ⟨⟨⟨hsolvent, hshort⟩, hbound, hout⟩, trivial⟩

/-- An implementation that does not read the gas. -/
theorem run_gasTrails (env : Env σ) (hlimit : limit < 2 ^ 63)
    (hlimit' : limit + δ < 2 ^ 63) {α : Type}
    {p : Exec α} {Q : α → Prop} (hp : p.Sat Steady (fun x _ => Q x) ()) (h : Apart gas δ s t)
    (hs : Open limit s) : GasTrails gas δ limit Q (p.run env s) (p.run env t) := by
  refine (run_trails (R := fun _ : Unit => fun s t => Apart gas δ s t ∧ Open limit s)
    (D := fun _ : Unit => fun s => Depleted δ s ∧ Open limit s) ?_ ?_ ⟨h, hs⟩ hp).mono ?_ ?_
  · rintro o a s t Q ⟨h, hs⟩ ⟨⟨htakes, hblind⟩, hQ⟩
    refine Trails.mono (handle_trails env hlimit hlimit' htakes hblind h hs) ?_ ?_
    · exact fun r _ _ hst => ⟨(), hst.1, hQ hst.2 r⟩
    · exact fun r _ hs => ⟨(), hs.1, hQ hs.2 r⟩
  · rintro o a s Q ⟨h, hs⟩ ⟨⟨htakes, hblind⟩, hQ⟩
    refine (handle_depleted env hlimit htakes hblind h hs).mono ?_ (fun _ _ => id) fun _ => id
    exact fun r _ hs => ⟨(), hs.1, hQ hs.2 r⟩
  · rintro r s t ⟨-, hst, hr⟩
    exact ⟨hst, hr⟩
  · rintro r s ⟨-, hs, hr⟩
    exact ⟨hs, hr⟩

theorem run_depleted (env : Env σ) (hlimit : limit < 2 ^ 63) {α : Type} {p : Exec α} {Q : α → Prop}
    (hp : p.Sat Steady (fun x _ => Q x) ()) (h : Depleted δ s) (hs : Open limit s) :
    (p.run env s).Meets (fun x t => (Depleted δ t ∧ Open limit t) ∧ Q x)
      (fun status t => ¬ status.keepsGas ∨ Depleted δ t) fun _ => True := by
  refine (run_meets (R := fun _ : Unit => fun s => Depleted δ s ∧ Open limit s) ?_
    ⟨h, hs⟩ hp).mono ?_ (fun _ _ => id) fun _ => id
  · rintro o a s Q ⟨h, hs⟩ ⟨⟨htakes, hblind⟩, hQ⟩
    refine (handle_depleted env hlimit htakes hblind h hs).mono ?_ (fun _ _ => id) fun _ => id
    exact fun r _ hs => ⟨(), hs.1, hQ hs.2 r⟩
  · rintro r s ⟨-, hs, hr⟩
    exact ⟨hs, hr⟩

/-! ## Instructions -/

/-- The instructions that have access to the gas left: GAS, calls, creations, and SSTORE from
Istanbul on. -/
def Opcode.seesGas (rev : Revision) : Opcode → Bool
  | .gas | .call | .callcode | .delegatecall | .staticcall | .create | .create2 => true
  | .sstore => decide (Revision.istanbul ≤ rev)
  | _ => false

theorem steady_monotone : Monotone Steady :=
  fun _ _ _ _ hQ h => ⟨h.1, fun hassures r => hQ r () (h.2 hassures r)⟩

theorem steady_exit {α : Type} (status : StatusCode) :
    (Exec.exit status : Exec α).Sat Steady (fun _ _ => True) () :=
      ⟨⟨trivial, trivial⟩, fun _ => nofun⟩

/-- An implementation whose operations all take gas at most, and do not read it. -/
theorem steady_of_uses {α : Type} {p : Exec α} (htakes : p.Uses Op.Takes)
    (hblind : p.Uses Op.Oblivious) : p.Sat Steady (fun _ _ => True) () := by
  induction p with
  | done => trivial
  | call o next ih =>
      refine ⟨⟨htakes.1, hblind.1⟩, fun _ r => ?_⟩
      exact ih r (htakes.2 r) (hblind.2 r)

section Oblivious

attribute [local simp] Uses Footprint Op.Oblivious Exec.perform Exec.pop Exec.push
  Exec.peek Exec.poke
  Exec.top Exec.setTop Exec.charge Exec.checkMemory Exec.checkMemory64 Exec.load Exec.store
  Exec.memorySize Exec.returnData Exec.setReturnData Exec.request Exec.keccak256 Exec.read
  Exec.Host.accountExists Exec.Host.getStorage Exec.Host.setStorage Exec.Host.getBalance
  Exec.Host.getCodeSize Exec.Host.getCodeHash Exec.Host.copyCode Exec.Host.selfdestruct
  Exec.Host.getTxContext Exec.Host.getBlockHash Exec.Host.emitLog Exec.Host.accessAccount
  Exec.Host.accessStorage

attribute [local simp] footprint_exit footprint_fault

theorem oblivious_popTopics (n : Nat) : (popTopics n).Uses Op.Oblivious := by
  induction n with
  | zero => trivial
  | succ n ih =>
      unfold popTopics
      exact Uses.bind (by simp) fun topic => Uses.bind ih fun topics => trivial

theorem oblivious_sstore {ctx : Context} (h : ¬ Revision.istanbul ≤ ctx.rev) :
    (sstore ctx).Uses Op.Oblivious := by
  simp [sstore, h]

theorem oblivious_basic {op : Opcode} {f : Context → Exec Unit} {ctx : Context}
    (hop : Baseline.op2fn op = .basic f) (hlog : ∀ n, op ≠ .log n)
    (hgas : op.seesGas ctx.rev = false) :
    (f ctx).Uses Op.Oblivious := by
  cases op with
  | stop | jump | jumpi | pc | push | return_ | revert | invalid | selfdestruct => cases hop
  | gas | call | callcode | delegatecall | staticcall | create | create2 => cases hgas
  | log n => exact absurd rfl (hlog n)
  | sstore =>
      cases hop
      exact oblivious_sstore (of_decide_eq_false hgas)
  | add | mul | signextend | lt | gt | slt | sgt | and_ | or_ | xor_ | byte | shl | shr | sar =>
      cases hop
      simp [add, mul, signextend, lt, gt, slt, sgt, and_, or_, xor_, byte, shl, shr,
        sar, popIntoTop]
  | sub | div | sdiv | mod | smod | eq =>
      cases hop
      simp [sub, div, sdiv, mod, smod, eq, intoSecond]
  | addmod | mulmod =>
      cases hop
      simp [addmod, mulmod, popTwoIntoTop]
  | iszero | not_ =>
      cases hop
      simp [iszero, not_, mapTop]
  | origin | gasprice | coinbase | timestamp | number | difficulty | gaslimit | chainid | basefee =>
      cases hop
      simp [origin, gasprice, coinbase, timestamp, number, difficulty, gaslimit, chainid, basefee,
        pushTxContext]
  | calldatacopy | codecopy | keccak256 | returndatacopy | extcodecopy =>
      cases hop
      simp [calldatacopy, codecopy, copyWindow, Instructions.keccak256, returndatacopy, extcodecopy,
        chargeColdAccount]
  | balance | extcodesize | extcodehash =>
      cases hop
      simp [balance, extcodesize, extcodehash, accountQuery, chargeColdAccount]
  | exp | sload =>
      cases hop
      simp [exp, sload]
  | calldataload | blockhash | address | caller | callvalue | calldatasize | codesize | returndatasize
  | selfbalance | pop | mload | mstore | mstore8 | msize | jumpdest | dup | swap =>
      cases hop
      simp [calldataload, blockhash, address, caller, callvalue, calldatasize, codesize,
        returndatasize, selfbalance, Instructions.pop, mload, mstore, mstore8, msize,
          jumpdest, dup, swap]

/-- LOG takes the cost of its data after the check, when its size is known to be small. -/
theorem steady_log (numTopics : Fin 5) (ctx : Context) :
    (log numTopics ctx).Sat Steady (fun _ _ => True) () := by
  unfold log
  split
  · exact ⟨⟨trivial, trivial⟩, fun _ => nofun⟩
  · refine ⟨⟨trivial, trivial⟩, fun _ offset => ⟨⟨trivial, trivial⟩, fun _ size => ?_⟩⟩
    refine ⟨⟨trivial, trivial⟩, fun hsize _ => ?_⟩
    apply steady_of_uses (takes_logRest numTopics ctx offset hsize)
    exact Uses.bind (by simp) fun _ => Uses.bind (oblivious_popTopics _) fun topics => by simp

/-- The implementations of Baseline that do not read the gas. -/
theorem steady_basic {op : Opcode} {f : Context → Exec Unit} {ctx : Context}
    (hop : Baseline.op2fn op = .basic f) (hgas : op.seesGas ctx.rev = false) :
    (f ctx).Sat Steady (fun _ _ => True) () := by
  by_cases hlog : ∃ n, op = .log n
  · obtain ⟨n, rfl⟩ := hlog
    cases hop
    exact steady_log n ctx
  · have hlog' : ∀ n, op ≠ .log n := fun n hn => hlog ⟨n, hn⟩
    have hcall : op.isCall = false := by
      cases op with
      | call | callcode | delegatecall | staticcall | create | create2 => cases hgas
      | _ => rfl
    exact steady_of_uses (takes_basic hop hlog' hcall) (oblivious_basic hop hlog' hgas)

theorem steady_terminating {op : Opcode} {f : Context → Exec StatusCode} {ctx : Context}
    (hop : Baseline.op2fn op = .terminating f) (hreturn : op ≠ .return_) (hrevert : op ≠ .revert) :
    (f ctx).Sat Steady (fun _ _ => True) () := by
  refine steady_of_uses (takes_terminating hop) ?_
  cases op with
  | return_ => exact absurd rfl hreturn
  | revert => exact absurd rfl hrevert
  | stop | invalid | selfdestruct =>
      cases hop
      simp [stop, invalid, selfdestruct, chargeColdAccount, chargeNewBeneficiary]
  | _ => cases hop

theorem Op.OnStack.oblivious {o : Op} (h : o.OnStack) : o.Oblivious := by
  cases o with
  | gasLeft | setGasLeft | setOutputSize => exact h.elim
  | _ => trivial

theorem steady_codePosition {op : Opcode} {f : Baseline.CodeAnalysis → Nat → Exec Nat}
    (hop : Baseline.op2fn op = .codePosition f) (analysis : Baseline.CodeAnalysis) (pos : Nat) :
    (f analysis pos).Sat Steady (fun _ _ => True) () := by
  have hstack := onStack_codePosition hop analysis pos
  exact steady_of_uses (hstack.mono fun _ h => h.takes) (hstack.mono fun _ h => h.oblivious)

end Oblivious

/-- No implementation reads the gas of the message. -/
theorem basic_withGas {op : Opcode} {f : Context → Exec Unit} (hop : Baseline.op2fn op = .basic f)
    (ctx : Context) (gas : Int) : f (ctx.withGas gas) = f ctx := by
  cases op with
  | stop | jump | jumpi | pc | push | return_ | revert | invalid | selfdestruct => cases hop
  | _ =>
      cases hop
      rfl

theorem terminating_withGas {op : Opcode} {f : Context → Exec StatusCode}
    (hop : Baseline.op2fn op = .terminating f) (ctx : Context) (gas : Int) :
    f (ctx.withGas gas) = f ctx := by
  cases op with
  | stop | return_ | revert | invalid | selfdestruct =>
      cases hop
      rfl
  | _ => cases hop

/-- An implementation that does not read the gas, or one that does so up to its last part, which
leaves the output and exits. -/
inductive Settled (env : Env σ) {β : Type} : Exec β → Prop
  | steady {p : Exec β} (hp : p.Sat Steady (fun _ _ => True) ()) : Settled env p
  | leaves {α : Type} {p : Exec α} {k : α → Exec β} (hp : p.Sat Steady (fun _ _ => True) ())
      (hk : ∀ x, ∃ status size, ∃ f : Nat → Nat, ∀ s, (k x).run env s =
        .exit status { s with outputOffset := f s.outputOffset, outputSize := size }) :
      Settled env (p >>= k)

theorem Settled.trails {β : Type} {p : Exec β} (hp : Settled env p) (hlimit : limit < 2 ^ 63)
    (hlimit' : limit + δ < 2 ^ 63) (h : Apart gas δ s t) (hs : Open limit s) :
    GasTrails gas δ limit (fun _ => True) (p.run env s) (p.run env t) := by
  cases hp with
  | steady hp => exact run_gasTrails env hlimit hlimit' hp h hs
  | leaves hp hk =>
      rw [Exec.run, run_bind, Exec.run, run_bind]
      refine (run_gasTrails (Q := fun _ => True) env hlimit hlimit' hp h hs).bind ?_ ?_
      · rintro x s t ⟨⟨h, -⟩, -⟩
        obtain ⟨status, size, f, hrun⟩ := hk x
        obtain ⟨ghost, rfl⟩ := h.same
        rw [← Exec.run, ← Exec.run, hrun, hrun]
        exact .exit ⟨⟨ghost, rfl⟩, h.solvent, h.solvent'⟩
      · rintro x s ⟨⟨h, -⟩, -⟩
        obtain ⟨status, size, f, hrun⟩ := hk x
        rw [← Exec.run, hrun]
        exact .inr ⟨h.solvent, h.short⟩

theorem Settled.depleted {β : Type} {p : Exec β} (hp : Settled env p) (hlimit : limit < 2 ^ 63)
    (h : Depleted δ s) (hs : Open limit s) :
    (p.run env s).Meets (fun _ t => Depleted δ t ∧ Open limit t)
      (fun status t => ¬ status.keepsGas ∨ Depleted δ t) fun _ => True := by
  cases hp with
  | steady hp =>
      exact (run_depleted (Q := fun _ => True) env hlimit hp h hs).mono (fun _ _ => And.left)
        (fun _ _ => id) fun _ => id
  | leaves hp hk =>
      rw [Exec.run, run_bind]
      refine (run_depleted (Q := fun _ => True) env hlimit hp h hs).bind ?_
      rintro x s ⟨⟨h, -⟩, -⟩
      obtain ⟨status, size, f, hrun⟩ := hk x
      rw [← Exec.run, hrun]
      exact .inr ⟨h.solvent, h.short⟩

/-- The region of RETURN and REVERT. -/
def checkedRegion : Exec (UInt256 × UInt256) := do
  let offset ← Exec.peek 0
  let size ← Exec.peek 1
  Exec.checkMemory offset size
  pure (offset, size)

theorem steady_checkedRegion : checkedRegion.Sat Steady (fun _ _ => True) () :=
  ⟨⟨trivial, trivial⟩, fun _ _ => ⟨⟨trivial, trivial⟩, fun _ _ =>
    ⟨⟨trivial, trivial⟩, fun _ _ => trivial⟩⟩⟩

/-- A terminating instruction that ends with the exit from the loop. -/
theorem settled_terminating {op : Opcode} {f : Context → Exec StatusCode} {β : Type} (env : Env σ)
    (ctx : Context) (hop : Baseline.op2fn op = .terminating f) :
    Settled env (f ctx >>= fun status => (Exec.exit status : Exec β)) := by
  by_cases hreturn : op = .return_ ∨ op = .revert
  · obtain ⟨status, rfl⟩ : ∃ status, f = return_ status := by
      rcases hreturn with rfl | rfl
      · cases hop
        exact ⟨_, rfl⟩
      · cases hop
        exact ⟨_, rfl⟩
    exact .leaves (p := checkedRegion)
      (k := fun x => do
        Exec.setOutputOffset x.1.toSize
        Exec.setOutputSize x.2.toSize
        Exec.exit status)
      steady_checkedRegion fun x => ⟨status, x.2.toSize, fun _ => x.1.toSize, fun _ => rfl⟩
  · push Not at hreturn
    refine .steady ?_
    rw [Program.sat_bind]
    exact Sat.mono steady_monotone (steady_terminating hop hreturn.1 hreturn.2)
      fun status _ _ => steady_exit status

/-- An instruction in Baseline that does not see the gas. -/
theorem settled_invoke {op : Opcode} (env : Env σ) (analysis : Baseline.CodeAnalysis)
    (ctx : Context) (pos : Nat) (hgas : op.seesGas ctx.rev = false) :
    Settled env (Baseline.invoke (Baseline.op2fn op) analysis ctx pos) := by
  cases hop : Baseline.op2fn op with
  | basic f =>
      refine .steady ?_
      rw [Baseline.invoke, Program.sat_bind]
      exact steady_basic hop hgas
  | terminating f => exact settled_terminating env ctx hop
  | codePosition f => exact .steady (steady_codePosition hop analysis pos)

theorem invoke_withGas (op : Opcode) (analysis : Baseline.CodeAnalysis) (ctx : Context) (gas : Int)
    (pos : Nat) : Baseline.invoke (Baseline.op2fn op) analysis (ctx.withGas gas) pos =
      Baseline.invoke (Baseline.op2fn op) analysis ctx pos := by
  cases hop : Baseline.op2fn op with
  | basic f => rw [Baseline.invoke, Baseline.invoke, basic_withGas hop]
  | terminating f => rw [Baseline.invoke, Baseline.invoke, terminating_withGas hop]
  | codePosition f => rfl

/-! ## Entries of Advanced -/

namespace Advanced

/-- The entries that neither run an implementation of Baseline nor correct the gas. -/
theorem steady_exec {fn : ExecFn} (analysis : AdvancedCodeAnalysis) (cost : Nat) (ctx : Context)
    (arg : Argument) (ip : Nat)
    (hfn : fn = .opJump ∨ fn = .opJumpi ∨ fn = .opPc ∨ fn = .opPushSmall ∨ fn = .opPushFull ∨
      fn = .opUndefined) :
    (exec analysis cost ctx fn arg ip).Sat Steady (fun _ _ => True) () := by
  have hstack := onStack_exec analysis cost ctx arg ip hfn
  exact steady_of_uses (hstack.mono fun _ h => h.takes) (hstack.mono fun _ h => h.oblivious)

/-- RETURN and REVERT. -/
theorem settled_opReturn (env : Env σ) (status : StatusCode) :
    Settled env (exitWith (opReturn status)) := by
  refine .leaves (p := checkedRegion)
    (k := fun x => exitWith do
      Exec.setOutputSize x.2.toSize
      if x.2.toSize ≠ 0 then
        Exec.setOutputOffset x.1.toSize
      pure status)
    steady_checkedRegion fun x => ?_
  by_cases hsize : x.2.toSize ≠ 0
  · refine ⟨status, x.2.toSize, fun _ => x.1.toSize, fun s => ?_⟩
    rw [if_pos hsize]
    rfl
  · refine ⟨status, x.2.toSize, id, fun s => ?_⟩
    rw [if_neg hsize]
    rfl

/-- An entry that does not see the gas, other than SSTORE. -/
theorem settled_exec {op : Opcode} (env : Env σ) (analysis : AdvancedCodeAnalysis) (cost : Nat)
    (ctx : Context) (arg : Argument) (ip : Nat) (hgas : op.seesGas ctx.rev = false)
    (hsstore : op ≠ .sstore) :
    Settled env (exec analysis cost ctx (instructionImplementations op) arg ip) := by
  -- of the instructions with a correction only SSTORE does not see the gas
  have hreads : op.readsGas = false := by
    cases op with
    | sstore => exact absurd rfl hsstore
    | gas | call | callcode | delegatecall | staticcall | create | create2 => cases hgas
    | _ => rfl
  have himpl := implemented op
  generalize hbase : Baseline.op2fn op = base at himpl
  generalize hfn : instructionImplementations op = fn at himpl
  cases himpl with
  | plain =>
      refine .steady ?_
      rw [exec, next, Program.sat_bind]
      exact steady_basic hbase hgas
  | corrected _ hreads' =>
      rw [hreads] at hreads'
      cases hreads'
  | gas => cases hreads
  | jumpdest => exact .steady ⟨⟨trivial, trivial⟩, fun _ r => r.elim⟩
  | jump | jumpi | pc | pushSmall | pushFull =>
      exact .steady (steady_exec analysis cost ctx arg ip (by simp))
  | return_ => exact settled_opReturn env _
  | terminating hexec =>
      rw [hexec]
      exact settled_terminating env ctx hbase

theorem exec_withGas (op : Opcode) (analysis : AdvancedCodeAnalysis) (cost : Nat) (ctx : Context)
    (gas : Int) (arg : Argument) (ip : Nat) :
    exec analysis cost (ctx.withGas gas) (instructionImplementations op) arg ip =
      exec analysis cost ctx (instructionImplementations op) arg ip := by
  cases op with
  | push n =>
      simp only [instructionImplementations]
      split
      · rfl
      · rfl
  | _ => rfl

/-! ### SSTORE -/

section Sstore

variable {cost : Nat} {n : Int}

/-- The gas lent to SSTORE. -/
theorem lend_eq (h0 : 0 ≤ n) (hn : n ≤ cost) (hcost : (cost : Int) ≤ 2 ^ 32 - 1)
    (hs : 0 ≤ s.gasLeft) (hbound : s.gasLeft + cost < 2 ^ 63) :
    lend s (cost - n) = s.paid (-(cost - n)) := by
  have hin : InInt64 (cost - n) := ⟨by omega, by omega⟩
  have hin' : InInt64 (s.gasLeft + (cost - n)) := ⟨by omega, by omega⟩
  rw [lend, noteInt64_of_inInt64 hin, toInt64_of_inInt64 hin, ExecutionState.setGas,
    toInt64_of_inInt64 hin', decide_eq_true hin', Bool.not_true, Bool.or_false, ExecutionState.paid,
    Int.sub_neg]

theorem takes_correction (h0 : 0 ≤ n) (hn : n ≤ cost) (hcost : (cost : Int) ≤ 2 ^ 32 - 1) :
    toInt64 (cost - n) = cost - n ∧ 0 ≤ (cost : Int) - n ∧ (cost : Int) - n < 2 ^ 62 :=
  ⟨toInt64_of_inInt64 ⟨by omega, by omega⟩, by omega, by omega⟩

theorem steady_sstore {ctx : Context} (h : ¬ Revision.istanbul ≤ ctx.rev) :
    (sstore ctx).Sat Steady (fun _ _ => True) () :=
  steady_of_uses (takes_sstore ctx) (oblivious_sstore h)

/-- SSTORE before Istanbul, if the correction is not negative: it can only run out of gas when the
gas without what it was lent does not suffice either. -/
theorem sstore_trails (env : Env σ) {ctx : Context}
    (hrev : ¬ Revision.istanbul ≤ ctx.rev) (ip : Nat)
    (h0 : 0 ≤ n) (hn : n ≤ cost) (hcost : (cost : Int) ≤ 2 ^ 32 - 1)
    (hlimit : limit + cost < 2 ^ 63)
    (hlimit' : limit + cost + δ < 2 ^ 63) (h : Apart gas δ s t) (hs : Open limit s) :
    GasTrails gas δ limit (fun _ => True)
      ((next ip (corrected cost (.number n) (sstore ctx))).run env s)
      ((next ip (corrected cost (.number n) (sstore ctx))).run env t) := by
  have hsolvent := h.solvent
  have hsolvent' := h.solvent'
  have hbound := hs.bound
  obtain ⟨-, -, -, hgas⟩ := h.fields
  obtain ⟨hexact, hc, hc'⟩ := takes_correction h0 hn hcost
  -- the correction lends both the same, so they stay as far apart while it runs
  have hlent : Apart gas δ (s.paid (-((cost : Int) - n))) (t.paid (-((cost : Int) - n))) :=
    h.pay (by omega) (by omega)
  have hcorrected : GasTrails gas δ limit (fun _ => True)
      ((corrected cost (.number n) (sstore ctx)).run env s)
      ((corrected cost (.number n) (sstore ctx)).run env t) := by
    rw [run_corrected, run_corrected, lend_eq h0 hn hcost hsolvent (by omega),
      lend_eq h0 hn hcost (by omega) (by omega), hexact]
    refine (run_gasTrails (Q := fun _ => True) env (by omega) (by omega) (steady_sstore hrev) hlent
      hs.pay).bind ?_ ?_
    · rintro _ s' t' ⟨⟨h', hs'⟩, -⟩
      exact GasTrails.weaken (charge_trails env hc hc' (by omega) (by omega) h' hs') (by omega)
    · rintro _ s' ⟨⟨h', hs'⟩, -⟩
      have hbound' := hs'.bound
      have hr := charge_taken env hc hc' h'.solvent (by omega)
      refine (depleted_of_taken h' hs' hc hr).mono ?_ (fun _ _ => id) fun _ => id
      exact fun _ _ ht => ⟨⟨ht.1, ht.2.mono (by omega)⟩, trivial⟩
  rw [next, Exec.run, run_bind, Exec.run, run_bind]
  refine hcorrected.bind ?_ ?_
  · exact fun _ s t h => .ok h
  · exact fun _ s h => h

/-- An operation that exits with a failure at most. Memory checks are left out. -/
def exitsFailed : Op → Prop
  | .exit status => ¬ status.keepsGas
  | .checkMemory _ _ => False
  | _ => True

theorem handle_exitsFailed (env : Env σ) {o : Op} (ho : exitsFailed o) (s : ExecutionState σ) :
    (handle env o s).Meets (fun _ _ => True) (fun status _ => ¬ status.keepsGas) fun _ => True := by
  cases o with
  | exit => exact ho
  | checkMemory => exact ho.elim
  | pop | push | peek | poke | load | store =>
      simp only [handle]
      split <;> trivial
  | charge cost =>
      simp only [handle]
      split
      · exact (by decide : ¬ StatusCode.outOfGas.keepsGas)
      · trivial
  | _ => trivial

section ExitsFailed

attribute [local simp] Uses Footprint exitsFailed Exec.perform Exec.pop Exec.charge
  Exec.gasLeft Exec.request Exec.Host.accessStorage Exec.Host.setStorage

attribute [local simp] footprint_exit

theorem exitsFailed_sstore (ctx : Context) : (sstore ctx).Uses exitsFailed := by
  have hstatic : ¬ StatusCode.staticModeViolation.keepsGas := by decide
  have hgas : ¬ StatusCode.outOfGas.keepsGas := by decide
  simp [sstore, hstatic, hgas]

end ExitsFailed

/-- SSTORE in a run whose follower is out of gas. -/
theorem sstore_depleted (env : Env σ) {ctx : Context}
    (hrev : ¬ Revision.istanbul ≤ ctx.rev) (ip : Nat)
    (h0 : 0 ≤ n) (hn : n ≤ cost) (hcost : (cost : Int) ≤ 2 ^ 32 - 1)
    (hlimit : limit + cost < 2 ^ 63)
    (h : Depleted δ s) (hs : Open limit s) :
    ((next ip (corrected cost (.number n) (sstore ctx))).run env s).Meets
      (fun _ t => Depleted δ t ∧ Open limit t) (fun status t => ¬ status.keepsGas ∨ Depleted δ t)
      fun _ => True := by
  have hsolvent := h.solvent
  have hshort := h.short
  have hbound := hs.bound
  obtain ⟨hexact, hc, hc'⟩ := takes_correction h0 hn hcost
  -- What is lent is part of the difference meanwhile.
  have hlent : Depleted (δ - (cost - n)) (s.paid (-((cost : Int) - n))) := by
    refine ⟨?_, ?_⟩
    · show 0 ≤ s.gasLeft - -((cost : Int) - n)
      omega
    · show s.gasLeft - -((cost : Int) - n) + (δ - (cost - n)) < 0
      omega
  have hrun := run_depleted (Q := fun _ => True) env (by omega) (steady_sstore hrev) hlent hs.pay
  have hexits := run_of_uses (fun o s ho _ => handle_exitsFailed env ho s) (exitsFailed_sstore ctx)
    (R := fun _ => True) (s := s.paid (-((cost : Int) - n))) trivial
  rw [next, Exec.run, run_bind, ← Exec.run, run_corrected,
    lend_eq h0 hn hcost hsolvent (by omega), hexact]
  rw [← Exec.run] at hexits
  cases hsstore : (sstore ctx).run env (s.paid (-((cost : Int) - n))) with
  | fault f => trivial
  | exit status t =>
      rw [hsstore] at hexits
      exact .inl hexits
  | ok _ t =>
      rw [hsstore] at hrun
      obtain ⟨⟨h', hs'⟩, -⟩ := hrun
      have hshort' := h'.short
      have hbound' := hs'.bound
      have hr := charge_taken env hc hc' h'.solvent (by omega)
      show ((handle env (.charge (cost - n)) t).bind fun _ t' => .ok (ip + 1) t').Meets _ _ _
      generalize handle env (.charge (cost - n)) t = r at hr
      cases hr with
      | unpaid t' hlt ht' => exact .inl (by decide)
      | paid ghost hle =>
          refine ⟨⟨?_, ?_⟩, ?_, hs'.noOutput⟩
          · show 0 ≤ t.gasLeft - (cost - n)
            omega
          · show t.gasLeft - (cost - n) + δ < 0
            omega
          · show t.gasLeft - (cost - n) ≤ limit
            omega

end Sstore

end Advanced

end Ivmone
