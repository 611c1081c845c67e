import Ivmone.Soundness

/-!
# Two runs of one implementation

The two interpreters run the same implementations in states that differ in a few ways: one has more
gas left, more items at the bottom of its stack, or other bytes in memory that it does not own. Two
runs of an implementation from such states go in lockstep, unless the one with less gas runs out of
it; then the other one has less than the difference left.
-/

set_option autoImplicit false

namespace Ivmone

open Lib

variable {σ : Type}

/-- The states agree on everything an implementation can see, except that `s` has `δ` more gas left
and the items `deep` below the stack of `t`. If the gas differs, none of it is owed. -/
structure Agree (δ : Int) (deep : List UInt256) (s t : ExecutionState σ) : Prop where
  context : s.toContext = t.toContext
  gas : s.gasLeft = t.gasLeft + δ
  solvent : δ ≠ 0 → 0 ≤ t.gasLeft
  stack : s.stack.items = t.stack.items ++ deep
  memory : s.memory.bytes = t.memory.bytes
  returnData : s.returnData = t.returnData
  outputOffset : s.outputOffset = t.outputOffset
  outputSize : s.outputSize = t.outputSize
  host : s.host = t.host
  calls : s.calls = t.calls

/-- Environments that differ at most in the allocator. -/
structure Env.Same (env env' : Env σ) : Prop where
  host : env.host = env'.host
  keccak256 : env.keccak256 = env'.keccak256

/-- The outcomes of one operation in two states. -/
inductive Paired {α : Type} (δ : Int) (deep : List UInt256) : Result σ α → Result σ α → Prop
  | ok {x : α} {s t : ExecutionState σ} (h : Agree δ deep s t) : Paired δ deep (.ok x s) (.ok x t)
  | exit {status : StatusCode} {s t : ExecutionState σ} (h : δ = 0 → Agree δ deep s t)
      (ht : t.outputSize = s.outputSize) : Paired δ deep (.exit status s) (.exit status t)
  | fault (f : Fault) : Paired δ deep (.fault f) (.fault f)
  | bail {r : Result σ α} {t : ExecutionState σ} (hδ : δ ≠ 0)
      (hr : r.Meets (fun _ s => s.gasLeft < δ) (fun _ _ => True) fun _ => True)
      (ht : t.outputSize = 0) : Paired δ deep r (.exit .outOfGas t)

section Paired

variable {env env' : Env σ} {rules : Rules} {δ : Int} {deep : List UInt256}
  {s0 s t : ExecutionState σ} {a : Abs}

theorem Agree.height (h : Agree δ deep s t) : s.stack.height = t.stack.height + deep.length := by
  rw [← Stack.length_items s.stack, h.stack, List.length_append, Stack.length_items]

theorem Agree.memorySize (h : Agree δ deep s t) : s.memory.size = t.memory.size := by
  rw [← Memory.length_bytes s.memory, h.memory, Memory.length_bytes]

/-- The heights the logic knows are those of the smaller stack. -/
theorem Agree.height_eq (h : Agree δ deep s t) (hR : Tracks rules True deep.length s0 a s) :
    t.stack.height = a.height := by
  have h1 := h.height
  have h2 := hR.height trivial
  omega

theorem Agree.setStack (h : Agree δ deep s t) {stack stack' : Stack}
    (hstack : stack.items = stack'.items ++ deep) :
    Agree δ deep { s with stack := stack } { t with stack := stack' } :=
  { h with stack := hstack }

theorem paired_pop (h : Agree δ deep s t) (hR : Tracks rules True deep.length s0 a s)
    (h1 : 1 ≤ a.height) : Paired δ deep (handle env .pop s) (handle env' .pop t) := by
  have ht := h.height_eq hR
  have hs := h.height
  obtain ⟨x, stack, hpop, hitems⟩ := Stack.pop?_of_pos (show 0 < s.stack.height by omega)
  obtain ⟨y, stack', hpop', hitems'⟩ := Stack.pop?_of_pos (show 0 < t.stack.height by omega)
  have heq := h.stack
  rw [hitems, hitems', List.cons_append] at heq
  injection heq with hxy hrest
  subst hxy
  simp only [handle, hpop, hpop']
  exact .ok (h.setStack hrest)

theorem paired_push (hlimit : rules.limit + deep.length ≤ 1024) (h : Agree δ deep s t)
    (hR : Tracks rules True deep.length s0 a s) (item : UInt256) (h1 : a.height < rules.limit) :
    Paired δ deep (handle env (.push item) s) (handle env' (.push item) t) := by
  have ht := h.height_eq hR
  have hs := h.height
  obtain ⟨stack, hpush, hitems⟩ :=
    Stack.push?_of_lt (show s.stack.height < Stack.limit by unfold Stack.limit; omega) item
  obtain ⟨stack', hpush', hitems'⟩ :=
    Stack.push?_of_lt (show t.stack.height < Stack.limit by unfold Stack.limit; omega) item
  simp only [handle, hpush, hpush']
  refine .ok (h.setStack ?_)
  rw [hitems, hitems', h.stack, List.cons_append]

theorem paired_peek (h : Agree δ deep s t) (hR : Tracks rules True deep.length s0 a s)
    (index : Nat) (h1 : index < a.height) :
    Paired δ deep (handle env (.peek index) s) (handle env' (.peek index) t) := by
  have ht := h.height_eq hR
  have hlen : index < t.stack.items.length := by
    rw [Stack.length_items]
    omega
  have hget : s.stack.get? index = t.stack.get? index := by
    rw [Stack.get?_eq, Stack.get?_eq, h.stack, List.getElem?_append_left hlen]
  simp only [handle, hget]
  split
  · exact .ok h
  · exact .fault _

theorem paired_poke (h : Agree δ deep s t) (hR : Tracks rules True deep.length s0 a s)
    (index : Nat) (item : UInt256) (h1 : index < a.height) :
    Paired δ deep (handle env (.poke index item) s) (handle env' (.poke index item) t) := by
  have ht := h.height_eq hR
  have hs := h.height
  obtain ⟨stack, hset, hitems⟩ := Stack.set?_of_lt (show index < s.stack.height by omega) item
  obtain ⟨stack', hset', hitems'⟩ := Stack.set?_of_lt (show index < t.stack.height by omega) item
  have hlen : index < t.stack.items.length := by
    rw [Stack.length_items]
    omega
  simp only [handle, hset, hset']
  refine .ok (h.setStack ?_)
  rw [hitems, hitems', h.stack, List.set_append_left index item hlen]

/-- The two ways in which the gas left may differ: not at all, or by an amount that the
implementation does not notice before one of the runs is out of gas. -/
def Regime (env : Env σ) (rules : Rules) (s0 : ExecutionState σ) (δ : Int) : Prop :=
  (δ = 0 ∧ ¬ rules.metered) ∨
    (0 ≤ δ ∧ rules.metered ∧ ¬ rules.readsGas ∧ env.host.CallBounded ∧ 0 ≤ s0.gasLeft)

theorem Regime.not_derailed (hδ : Regime env rules s0 δ) :
    ¬ (rules.metered ∧ Derailed env s0 s) := by
  rintro ⟨hm, hd⟩
  rcases hδ with ⟨-, hnm⟩ | ⟨-, -, -, hcall, h0⟩
  · exact hnm hm
  · exact not_derailed_of_callBounded hcall h0 hd

theorem Agree.setGas (h : Agree δ deep s t) {x y : Int} (hgas : toInt64 x = toInt64 y + δ)
    (hsolvent : δ ≠ 0 → 0 ≤ toInt64 y) : Agree δ deep (s.setGas x) (t.setGas y) :=
  { h with gas := hgas, solvent := hsolvent }

/-- A cost is subtracted from the gas left of both states: both or neither can pay it, or only the
one with more gas can, which is then left with less than the difference. -/
theorem Agree.sub_cases (hδ : Regime env rules s0 δ) (h : Agree δ deep s t)
    (hR : Tracks rules True deep.length s0 a s) {cost : Int} (h0 : 0 ≤ cost) (hc : cost < 2 ^ 62) :
    (toInt64 (s.gasLeft - cost) < 0 ∧ toInt64 (t.gasLeft - cost) < 0 ∧
        (δ = 0 → Agree δ deep (s.setGas (s.gasLeft - cost)) (t.setGas (t.gasLeft - cost)))) ∨
      (0 ≤ toInt64 (s.gasLeft - cost) ∧ 0 ≤ toInt64 (t.gasLeft - cost) ∧
        Agree δ deep (s.setGas (s.gasLeft - cost)) (t.setGas (t.gasLeft - cost))) ∨
      (δ ≠ 0 ∧ toInt64 (s.gasLeft - cost) < δ ∧ toInt64 (t.gasLeft - cost) < 0) := by
  -- with the same gas the two fail together; else the second, which is behind, fails first
  by_cases hzero : δ = 0
  · subst hzero
    have heq : s.gasLeft = t.gasLeft := by rw [h.gas, Int.add_zero]
    have hagree : Agree 0 deep (s.setGas (s.gasLeft - cost)) (t.setGas (t.gasLeft - cost)) :=
      h.setGas (by rw [heq, Int.add_zero]) fun hne => absurd rfl hne
    by_cases hneg : toInt64 (t.gasLeft - cost) < 0
    · exact .inl ⟨by rw [heq]; exact hneg, hneg, fun _ => hagree⟩
    · exact .inr (.inl ⟨by rw [heq]; omega, by omega, hagree⟩)
  · obtain ⟨hδ0, hm⟩ : 0 ≤ δ ∧ rules.metered := by
      rcases hδ with ⟨hz, -⟩ | ⟨h1, h2, -⟩
      · exact absurd hz hzero
      · exact ⟨h1, h2⟩
    have hin := hR.inInt64_sub h0 hc hm
    have h1 := hin.1
    have h2 := hin.2
    have hgas := h.gas
    have hsolvent := h.solvent hzero
    have hs : toInt64 (s.gasLeft - cost) = s.gasLeft - cost := toInt64_of_inInt64 hin
    have ht : toInt64 (t.gasLeft - cost) = t.gasLeft - cost :=
      toInt64_of_inInt64 ⟨by omega, by omega⟩
    by_cases hneg : t.gasLeft - cost < 0
    · exact .inr (.inr ⟨hzero, by omega, by omega⟩)
    · exact .inr (.inl ⟨by omega, by omega, h.setGas (by omega) fun _ => by omega⟩)

theorem paired_charge (hδ : Regime env rules s0 δ) (h : Agree δ deep s t)
    (hR : Tracks rules True deep.length s0 a s) {cost : Int} (h0 : 0 ≤ cost) (hc : cost < 2 ^ 62)
    (hout : a.outputSize = 0) :
    Paired δ deep (handle env (.charge cost) s) (handle env' (.charge cost) t) := by
  have hout' : t.outputSize = 0 := h.outputSize.symm.trans (hR.outputSize.symm.trans hout)
  have hnote : InInt64 cost := ⟨by omega, by omega⟩
  simp only [handle, noteInt64_of_inInt64 hnote]
  show Paired δ deep (if toInt64 (s.gasLeft - cost) < 0 then _ else _)
    (if toInt64 (t.gasLeft - cost) < 0 then _ else _)
  rcases h.sub_cases hδ hR h0 hc with ⟨hs, ht, hagree⟩ | ⟨hs, ht, hagree⟩ | ⟨hne, hs, ht⟩
  · rw [if_pos hs, if_pos ht]
    exact .exit hagree h.outputSize.symm
  · rw [if_neg (Int.not_lt.2 hs), if_neg (Int.not_lt.2 ht)]
    exact .ok hagree
  · rw [if_pos ht]
    refine .bail hne ?_ hout'
    split
    · trivial
    · exact hs

theorem Agree.noteCheck (h : Agree δ deep s t) {s' t' : ExecutionState σ} {offset : UInt256}
    {size : MemorySize} {passed : Bool} :
    Agree δ deep (s.noteCheck s' offset size passed) (t.noteCheck t' offset size passed) :=
  { h with }

theorem Agree.setMemory (h : Agree δ deep s t) {m m' : Memory} (hm : m.bytes = m'.bytes) :
    Agree δ deep { s with memory := m } { t with memory := m' } :=
  { h with memory := hm }

theorem paired_checkMemory (hδ : Regime env rules s0 δ) (h : Agree δ deep s t)
    (hR : Tracks rules True deep.length s0 a s) {offset : UInt256} {size : MemorySize}
    (hsize : ∀ n, size = .u64 n → n ≤ maxBufferSize) (hout : a.outputSize = 0) :
    Paired δ deep (handle env (.checkMemory offset size) s)
      (handle env' (.checkMemory offset size) t) := by
  have hout' : t.outputSize = 0 := h.outputSize.symm.trans (hR.outputSize.symm.trans hout)
  have hmem := h.memorySize
  have hs := handle_checkMemory env s offset size hsize
  have ht := handle_checkMemory env' t offset size hsize
  generalize handle env (.checkMemory offset size) s = r at hs
  generalize handle env' (.checkMemory offset size) t = r' at ht
  have hsub : ∀ newSize, s.memory.size < newSize → regionEnd offset size = some newSize → _ :=
    fun newSize hlt hend =>
      h.sub_cases hδ hR (growthCost_bounds hlt (regionEnd_le hsize hend)).1
        (growthCost_bounds hlt (regionEnd_le hsize hend)).2
  -- the region and the memory's size are the same, so the two check results can only differ
  -- in whether the gas is enough
  cases hs with
  | rejected hend =>
      cases ht with
      | rejected => exact .exit (fun _ => h.noteCheck) h.outputSize.symm
      | covered _ hend' | unpaid _ hend' | grown _ _ hend' => cases hend.symm.trans hend'
  | covered newSize hend hle =>
      cases ht with
      | rejected hend' => cases hend.symm.trans hend'
      | covered newSize' hend' hle' => exact .ok h.noteCheck
      | unpaid newSize' hend' hlt' | grown newSize' _ hend' hlt' =>
          cases hend.symm.trans hend'
          omega
  | unpaid newSize hend hlt hgas =>
      cases ht with
      | rejected hend' => cases hend.symm.trans hend'
      | covered newSize' hend' hle' =>
          cases hend.symm.trans hend'
          omega
      | unpaid newSize' hend' hlt' hgas' =>
          cases hend.symm.trans hend'
          rw [← hmem] at hgas' ⊢
          rcases hsub _ hlt hend with ⟨h1, h2, hagree⟩ | ⟨h1, h2, hagree⟩ | ⟨hne, h1, h2⟩
          · exact .exit (fun hz => (hagree hz).noteCheck) h.outputSize.symm
          · omega
          · exact .bail hne trivial hout'
      | grown newSize' m' hend' hlt' hgas' hm' hbytes' =>
          cases hend.symm.trans hend'
          rw [← hmem] at hgas'
          rcases hsub _ hlt hend with ⟨h1, h2, -⟩ | ⟨h1, h2, -⟩ | ⟨-, h1, h2⟩ <;> omega
  | grown newSize m hend hlt hgas hm hbytes =>
      cases ht with
      | rejected hend' => cases hend.symm.trans hend'
      | covered newSize' hend' hle' =>
          cases hend.symm.trans hend'
          omega
      | unpaid newSize' hend' hlt' hgas' =>
          cases hend.symm.trans hend'
          rw [← hmem] at hgas' ⊢
          rcases hsub _ hlt hend with ⟨h1, h2, -⟩ | ⟨h1, h2, -⟩ | ⟨hne, h1, h2⟩
          · omega
          · omega
          · exact .bail hne h1 hout'
      | grown newSize' m' hend' hlt' hgas' hm' hbytes' =>
          cases hend.symm.trans hend'
          rw [← hmem] at hgas' hbytes' ⊢
          rcases hsub _ hlt hend with ⟨h1, h2, -⟩ | ⟨h1, h2, hagree⟩ | ⟨hne, h1, h2⟩
          · omega
          · refine .ok (hagree.setMemory ?_).noteCheck
            rw [hbytes, hbytes', h.memory, hm, hm']
          · omega

theorem paired_load (h : Agree δ deep s t) (offset length : Nat) :
    Paired δ deep (handle env (.load offset length) s) (handle env' (.load offset length) t) := by
  have hmem := h.memorySize
  by_cases hle : offset + length ≤ s.memory.size
  · simp only [handle, Memory.load?_of_le hle, Memory.load?_of_le (hmem ▸ hle), h.memory]
    exact .ok h
  · simp only [handle, Memory.load?_of_not_le hle, Memory.load?_of_not_le (hmem ▸ hle)]
    exact .fault _

theorem paired_store (h : Agree δ deep s t) (offset : Nat) (bytes : List Byte) :
    Paired δ deep (handle env (.store offset bytes) s) (handle env' (.store offset bytes) t) := by
  have hmem := h.memorySize
  by_cases hle : offset + bytes.length ≤ s.memory.size
  · obtain ⟨m, hstore, hbytes, -⟩ := Memory.store?_of_le hle
    obtain ⟨m', hstore', hbytes', -⟩ := Memory.store?_of_le (hmem ▸ hle)
    simp only [handle, hstore, hstore']
    refine .ok (h.setMemory ?_)
    rw [hbytes, hbytes', h.memory]
  · simp only [handle, Memory.store?_of_not_le hle, Memory.store?_of_not_le (hmem ▸ hle)]
    exact .fault _

theorem paired_request (henv : env.Same env') (h : Agree δ deep s t) (q : HostRequest) :
    Paired δ deep (handle env (.request q) s) (handle env' (.request q) t) := by
  have hanswer : env.host q s.host = env'.host q t.host := by rw [henv.host, h.host]
  simp only [handle, hanswer]
  exact .ok { h with host := rfl, calls := by rw [h.calls] }

/-- The gas left is the same if an implementation reads it. -/
theorem Regime.eq_zero_of_reads (hδ : Regime env rules s0 δ) (hreads : rules.readsGas) : δ = 0 := by
  rcases hδ with ⟨hz, -⟩ | ⟨-, -, hno, -⟩
  · exact hz
  · exact absurd hreads hno

/-- Every operation that the logic allows has paired outcomes. -/
theorem handle_paired (hlimit : rules.limit + deep.length ≤ 1024) (henv : env.Same env')
    (hδ : Regime env rules s0 δ) (h : Agree δ deep s t)
    (hR : Tracks rules True deep.length s0 a s) (o : Op) {Q : o.Res → Abs → Prop}
    (hT : Safe rules o a Q) : Paired δ deep (handle env o s) (handle env' o t) := by
  cases o with
  | pop => exact paired_pop h hR hT.1
  | push item => exact paired_push hlimit h hR item hT.1
  | peek index => exact paired_peek h hR index hT.1
  | poke index item => exact paired_poke h hR index item hT.1
  | charge cost => exact paired_charge hδ h hR hT.1.1 hT.1.2 hT.2.1
  | checkMemory offset size =>
      cases size with
      | u64 size =>
          refine paired_checkMemory hδ h hR (fun n hn => ?_) hT.2.1
          injection hn with hn
          exact hn ▸ hT.1
      | u256 size => exact paired_checkMemory hδ h hR (fun n hn => by cases hn) hT.1
  | load offset length => exact paired_load h offset length
  | store offset bytes => exact paired_store h offset bytes
  | memorySize =>
      simp only [handle, h.memorySize]
      exact .ok h
  | gasLeft =>
      -- the gas may only be looked at where the two have the same
      have hgas := h.gas
      rw [hδ.eq_zero_of_reads hT.1, Int.add_zero] at hgas
      simp only [handle, hgas]
      exact .ok h
  | setGasLeft gas =>
      have hz := hδ.eq_zero_of_reads hT.1
      exact .ok { h with
        gas := by simp only [hz, Int.add_zero]
        solvent := fun hne => absurd hz hne }
  | int64 x => exact .ok { h with }
  | returnData =>
      simp only [handle, h.returnData]
      exact .ok h
  | setReturnData data => exact .ok { h with returnData := rfl }
  | setOutputOffset offset => exact .ok { h with outputOffset := rfl }
  | setOutputSize size => exact .ok { h with outputSize := rfl }
  | request q => exact paired_request henv h q
  | keccak256 data =>
      simp only [handle, henv.keccak256]
      exact .ok h
  | exit status => exact .exit (fun _ => h) h.outputSize.symm
  | fault f => exact .fault f

/-- An implementation that does not touch the gas counter directly only spends gas. -/
theorem safe_gas_le (hm : rules.metered) (hreads : ¬ rules.readsGas) (o : Op)
    {Q : o.Res → Abs → Prop} (hT : Safe rules o a Q) :
    Safe rules o a fun r a' => Q r a' ∧ a'.gas ≤ a.gas := by
  cases o with
  | pop | peek => exact ⟨hT.1, fun x => ⟨hT.2 x, le_rfl⟩⟩
  | push | poke | store => exact ⟨hT.1, hT.2, le_rfl⟩
  | charge cost =>
      refine ⟨hT.1, hT.2.1, fun g hg => ⟨hT.2.2 g hg, ?_⟩⟩
      have h1 := hg hm
      have h2 := hT.1.1
      show g ≤ a.gas
      omega
  | checkMemory offset size =>
      cases size with
      | u64 size =>
          exact ⟨hT.1, hT.2.1, fun m g h1 h2 h3 h4 => ⟨hT.2.2 m g h1 h2 h3 h4, (h2 hm).2⟩⟩
      | u256 size => exact ⟨hT.1, fun m g h1 h2 h3 => ⟨hT.2 m g h1 h2 h3, (h2 hm).2⟩⟩
  | load => exact ⟨hT.1, fun bytes h => ⟨hT.2 bytes h, le_rfl⟩⟩
  | gasLeft | setGasLeft | int64 => exact absurd hT.1 hreads
  | memorySize | returnData | keccak256 => exact fun x => ⟨hT x, le_rfl⟩
  | setReturnData | setOutputOffset | setOutputSize => exact ⟨hT, le_rfl⟩
  | request q => exact ⟨hT.1, hT.2.1, fun answer h1 h2 => ⟨hT.2.2 answer h1 h2, le_rfl⟩⟩
  | exit | fault => exact hT

/-- The outcomes of one implementation in two states. Either the runs end alike, or the run with
less gas is out of it and the other one has less than the difference left. -/
abbrev InLockstep {α : Type} (rules : Rules) (δ : Int) (deep : List UInt256)
    (s0 : ExecutionState σ) (Q : α → Abs → Prop) : Result σ α → Result σ α → Prop :=
  Program.Lockstep
    (fun x s t => ∃ a, (Tracks rules True deep.length s0 a s ∧ Agree δ deep s t) ∧ Q x a)
    (fun status s t => Exited rules s0 status s ∧ t.outputSize = 0 ∧ (δ = 0 → Agree δ deep s t))
    (fun x s => ∃ a, (Tracks rules True deep.length s0 a s ∧ δ ≠ 0 ∧ s.gasLeft < δ) ∧ Q x a)
    (fun status s => Exited rules s0 status s)
    (fun status t => status = .outOfGas ∧ t.outputSize = 0)

theorem inLockstep_of_paired {α : Type} {Q : α → Abs → Prop} {r r' : Result σ α}
    (hδ : Regime env rules s0 δ)
    (hr : Promised env rules True deep.length s0 Q r) (h : Paired δ deep r r') :
    InLockstep rules δ deep s0 Q r r' := by
  cases h with
  | ok hagree =>
      obtain ⟨a, ha, hQ⟩ := hr.resolve_left hδ.not_derailed
      exact .ok ⟨a, ⟨ha, hagree⟩, hQ⟩
  | exit hagree ht =>
      have hexit := hr.resolve_left hδ.not_derailed
      exact .exit ⟨hexit, ht.trans hexit.outputSize, hagree⟩
  | fault f => exact .fault f
  | bail hne hgas ht =>
      refine .bail ?_ ⟨rfl, ht⟩
      cases r with
      | ok x s =>
          obtain ⟨a, ha, hQ⟩ := hr.resolve_left hδ.not_derailed
          exact ⟨a, ⟨ha, hne, hgas⟩, hQ⟩
      | exit status s => exact hr.resolve_left hδ.not_derailed
      | fault f => trivial

/-- Two runs of one implementation are in lockstep. -/
theorem run_inLockstep (hlimit : rules.limit + deep.length ≤ 1024) (henv : env.Same env')
    (hfits : rules.fits → env.host.CopyFits) (hδ : Regime env rules s0 δ) {α : Type} {p : Exec α}
    {Q : α → Abs → Prop} (hR : Tracks rules True deep.length s0 a s) (h : Agree δ deep s t)
    (hp : p.Sat (Safe rules) Q a) :
    InLockstep rules δ deep s0 Q (p.run env s) (p.run env' t) := by
  refine Program.run_lockstep (R := fun a s t => Tracks rules True deep.length s0 a s ∧
    Agree δ deep s t) (D := fun a s => Tracks rules True deep.length s0 a s ∧ δ ≠ 0 ∧ s.gasLeft < δ)
    ?_ ?_ ⟨hR, h⟩ hp
  · rintro o a s t Q ⟨hR, h⟩ hT
    exact inLockstep_of_paired hδ (handle_safe (fun _ => hlimit) hfits o hR hT)
      (handle_paired hlimit henv hδ h hR o hT)
  · rintro o a s Q ⟨hR, hne, hgas⟩ hT
    obtain ⟨hm, hreads⟩ : rules.metered ∧ ¬ rules.readsGas := by
      rcases hδ with ⟨hz, -⟩ | ⟨-, hm, hreads, -⟩
      · exact absurd hz hne
      · exact ⟨hm, hreads⟩
    have hsafe : Promised env rules True deep.length s0 _ (handle env o s) :=
      handle_safe (fun _ => hlimit) hfits o hR (safe_gas_le hm hreads o hT)
    refine hsafe.mono ?_ (fun _ _ h => h.resolve_left hδ.not_derailed) fun _ _ => trivial
    intro r s' h
    obtain ⟨a', ha', hQ, hle⟩ := h.resolve_left hδ.not_derailed
    refine ⟨a', ⟨ha', hne, ?_⟩, hQ⟩
    have h1 := (ha'.gas hm).1
    have h2 := (hR.gas hm).1
    omega

end Paired

end Ivmone
