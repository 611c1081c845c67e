import Ivmone.Baseline
import Ivmone.Advanced
import Ivmone.Lib.Footprint
import Ivmone.Lib.Simulation

/-!
# States that an execution cannot tell apart

The slots of a stack above its top item and the bytes of a memory block beyond its size are never
read. States that differ only there, and in what is recorded about them, are related by `SameView`.
Every operation keeps them related, with any allocator, so every implementation and every round of
the two loops does.
-/

set_option autoImplicit false

namespace Ivmone

open Lib Program

variable {σ : Type}

/-- The states agree on everything that an execution can see. -/
structure SameView (s t : ExecutionState σ) : Prop where
  context : s.toContext = t.toContext
  gas : s.gasLeft = t.gasLeft
  stack : s.stack.items = t.stack.items
  memory : s.memory.bytes = t.memory.bytes
  returnData : s.returnData = t.returnData
  status : s.status = t.status
  outputOffset : s.outputOffset = t.outputOffset
  outputSize : s.outputSize = t.outputSize
  host : s.host = t.host
  calls : s.calls = t.calls

namespace SameView

variable {s t : ExecutionState σ}

theorem height (h : SameView s t) : s.stack.height = t.stack.height := by
  rw [← Stack.length_items s.stack, h.stack, Stack.length_items]

theorem memorySize (h : SameView s t) : s.memory.size = t.memory.size := by
  rw [← Memory.length_bytes s.memory, h.memory, Memory.length_bytes]

theorem setGas (h : SameView s t) {x y : Int} (hxy : x = y) :
    SameView (s.setGas x) (t.setGas y) :=
  { h with gas := congrArg toInt64 hxy }

theorem noteInt64 (h : SameView s t) (x : Int) : SameView (s.noteInt64 x) (t.noteInt64 x) :=
  { h with }

theorem noteCheck (h : SameView s t) {s' t' : ExecutionState σ} {offset : UInt256}
    {size : MemorySize} {passed : Bool} :
    SameView (s.noteCheck s' offset size passed) (t.noteCheck t' offset size passed) :=
  { h with }

theorem setStack (h : SameView s t) {stack stack' : Stack} (hstack : stack.items = stack'.items) :
    SameView { s with stack := stack } { t with stack := stack' } :=
  { h with stack := hstack }

theorem setMemory (h : SameView s t) {m m' : Memory} (hm : m.bytes = m'.bytes) :
    SameView { s with memory := m } { t with memory := m' } :=
  { h with memory := hm }

theorem setStatus (h : SameView s t) (status : StatusCode) :
    SameView { s with status := status } { t with status := status } :=
  { h with status := rfl }

theorem pop (h : SameView s t) (env env' : Env σ) :
    Alike SameView (handle env .pop s) (handle env' .pop t) := by
  by_cases hpos : 0 < s.stack.height
  · obtain ⟨x, stack, hpop, hitems⟩ := Stack.pop?_of_pos hpos
    obtain ⟨y, stack', hpop', hitems'⟩ := Stack.pop?_of_pos (h.height ▸ hpos)
    have heq := h.stack
    rw [hitems, hitems'] at heq
    injection heq with hxy hrest
    subst hxy
    simp only [handle, hpop, hpop']
    exact .ok (h.setStack hrest)
  · simp only [handle, Stack.pop?_of_not_pos hpos, Stack.pop?_of_not_pos (h.height ▸ hpos)]
    exact .fault _

theorem push (h : SameView s t) (env env' : Env σ) (item : UInt256) :
    Alike SameView (handle env (.push item) s) (handle env' (.push item) t) := by
  by_cases hlt : s.stack.height < Stack.limit
  · obtain ⟨stack, hpush, hitems⟩ := Stack.push?_of_lt hlt item
    obtain ⟨stack', hpush', hitems'⟩ := Stack.push?_of_lt (h.height ▸ hlt) item
    simp only [handle, hpush, hpush']
    refine .ok (h.setStack ?_)
    rw [hitems, hitems', h.stack]
  · simp only [handle, Stack.push?_of_not_lt hlt, Stack.push?_of_not_lt (h.height ▸ hlt)]
    exact .fault _

theorem peek (h : SameView s t) (env env' : Env σ) (index : Nat) :
    Alike SameView (handle env (.peek index) s) (handle env' (.peek index) t) := by
  have hget : s.stack.get? index = t.stack.get? index := by
    rw [Stack.get?_eq, Stack.get?_eq, h.stack]
  simp only [handle, hget]
  split
  · exact .ok h
  · exact .fault _

theorem poke (h : SameView s t) (env env' : Env σ) (index : Nat) (item : UInt256) :
    Alike SameView (handle env (.poke index item) s) (handle env' (.poke index item) t) := by
  by_cases hlt : index < s.stack.height
  · obtain ⟨stack, hset, hitems⟩ := Stack.set?_of_lt hlt item
    obtain ⟨stack', hset', hitems'⟩ := Stack.set?_of_lt (h.height ▸ hlt) item
    simp only [handle, hset, hset']
    refine .ok (h.setStack ?_)
    rw [hitems, hitems', h.stack]
  · simp only [handle, Stack.set?_of_not_lt hlt, Stack.set?_of_not_lt (h.height ▸ hlt)]
    exact .fault _

theorem charge (h : SameView s t) (env env' : Env σ) (cost : Int) :
    Alike SameView (handle env (.charge cost) s) (handle env' (.charge cost) t) := by
  have hs : SameView ((s.noteInt64 cost).setGas (s.gasLeft - cost))
      ((t.noteInt64 cost).setGas (t.gasLeft - cost)) :=
    (h.noteInt64 cost).setGas (congrArg (· - cost) h.gas)
  simp only [handle, hs.gas]
  split
  · exact .exit hs
  · exact .ok hs

/-- The extension of a memory has the same bytes, whatever its block had there. -/
theorem grow (h : SameView s t) (alloc alloc' : Allocator) (newSize : Nat) :
    (s.memory.grow? alloc newSize = none ∧ t.memory.grow? alloc' newSize = none) ∨
      ∃ m m', s.memory.grow? alloc newSize = some m ∧ t.memory.grow? alloc' newSize = some m' ∧
        m.bytes = m'.bytes := by
  by_cases hgrow : newSize % 32 = 0 ∧ s.memory.size < newSize
  · obtain ⟨m, hm, -, hbytes⟩ := Memory.grow?_of_lt alloc hgrow.1 hgrow.2
    obtain ⟨m', hm', -, hbytes'⟩ := Memory.grow?_of_lt alloc' hgrow.1 (h.memorySize ▸ hgrow.2)
    refine .inr ⟨m, m', hm, hm', ?_⟩
    rw [hbytes, hbytes', h.memory, h.memorySize]
  · exact .inl ⟨dif_neg hgrow, dif_neg (h.memorySize ▸ hgrow)⟩

/-- The end of `grow_memory`, where the cost has been subtracted. -/
theorem growPaid (h : SameView s t) (alloc alloc' : Allocator) (newSize : Nat) :
    Alike SameView
      (if s.gasLeft < 0 then .ok false s
      else
        match s.memory.grow? alloc newSize with
        | some memory => .ok true { s with memory := memory }
        | none => .fault .growth : Result σ Bool)
      (if t.gasLeft < 0 then .ok false t
      else
        match t.memory.grow? alloc' newSize with
        | some memory => .ok true { t with memory := memory }
        | none => .fault .growth : Result σ Bool) := by
  by_cases hneg : s.gasLeft < 0
  · rw [if_pos hneg, if_pos (h.gas ▸ hneg)]
    exact .ok h
  · rw [if_neg hneg, if_neg (h.gas ▸ hneg)]
    rcases h.grow alloc alloc' newSize with ⟨hm, hm'⟩ | ⟨m, m', hm, hm', hbytes⟩
    · rw [hm, hm']
      exact .fault _
    · rw [hm, hm']
      exact .ok (h.setMemory hbytes)

theorem growMemory (h : SameView s t) (alloc alloc' : Allocator) (newSize : Nat) :
    Alike SameView (s.growMemory alloc newSize) (t.growMemory alloc' newSize) := by
  unfold ExecutionState.growMemory
  simp only [h.memorySize]
  apply growPaid
  -- What is recorded about the computation of the cost plays no role.
  have hnoted := (((h.noteInt64 (numWords newSize * numWords newSize)).noteInt64
    (memoryCost (numWords newSize))).noteInt64
    (t.memory.size / wordSize * (t.memory.size / wordSize))).noteInt64
    (memoryCost (t.memory.size / wordSize))
  exact (hnoted.noteInt64 _).setGas (congrArg (· - _) hnoted.gas)

theorem checkMemory64 (h : SameView s t) (alloc alloc' : Allocator) (offset : UInt256)
    (size : Nat) :
    Alike SameView (s.checkMemory64 alloc offset size) (t.checkMemory64 alloc' offset size) := by
  unfold ExecutionState.checkMemory64
  simp only [h.memorySize]
  split
  · exact .ok h
  · split
    · exact h.growMemory alloc alloc' _
    · exact .ok h

theorem checkMemory (h : SameView s t) (env env' : Env σ) (offset : UInt256) (size : MemorySize) :
    Alike SameView (handle env (.checkMemory offset size) s)
      (handle env' (.checkMemory offset size) t) := by
  have hcheck : Alike SameView (s.checkMemory env.alloc offset size)
      (t.checkMemory env'.alloc offset size) := by
    cases size with
    | u64 size => exact h.checkMemory64 env.alloc env'.alloc offset size
    | u256 size =>
        show Alike SameView (s.checkMemory256 _ _ _) (t.checkMemory256 _ _ _)
        unfold ExecutionState.checkMemory256
        split
        · exact .ok h
        · split
          · exact .ok h
          · exact h.checkMemory64 env.alloc env'.alloc offset _
  apply hcheck.bind
  intro passed s' t' h'
  split
  · exact .ok h'.noteCheck
  · exact .exit h'.noteCheck

theorem load (h : SameView s t) (env env' : Env σ) (offset length : Nat) :
    Alike SameView (handle env (.load offset length) s) (handle env' (.load offset length) t) := by
  have hmem := h.memorySize
  by_cases hle : offset + length ≤ s.memory.size
  · simp only [handle, Memory.load?_of_le hle, Memory.load?_of_le (hmem ▸ hle), h.memory]
    exact .ok h
  · simp only [handle, Memory.load?_of_not_le hle, Memory.load?_of_not_le (hmem ▸ hle)]
    exact .fault _

theorem store (h : SameView s t) (env env' : Env σ) (offset : Nat) (bytes : List Byte) :
    Alike SameView (handle env (.store offset bytes) s) (handle env' (.store offset bytes) t) := by
  have hmem := h.memorySize
  by_cases hle : offset + bytes.length ≤ s.memory.size
  · obtain ⟨m, hstore, hbytes, -⟩ := Memory.store?_of_le hle
    obtain ⟨m', hstore', hbytes', -⟩ := Memory.store?_of_le (hmem ▸ hle)
    simp only [handle, hstore, hstore']
    refine .ok (h.setMemory ?_)
    rw [hbytes, hbytes', h.memory]
  · simp only [handle, Memory.store?_of_not_le hle, Memory.store?_of_not_le (hmem ▸ hle)]
    exact .fault _

/-- Every operation keeps the states alike. -/
theorem handle {env env' : Env σ} (hhost : env.host = env'.host)
    (hkeccak : env.keccak256 = env'.keccak256) (h : SameView s t) (o : Op) :
    Alike SameView (Ivmone.handle env o s) (Ivmone.handle env' o t) := by
  cases o with
  | pop => exact h.pop env env'
  | push item => exact h.push env env' item
  | peek index => exact h.peek env env' index
  | poke index item => exact h.poke env env' index item
  | charge cost => exact h.charge env env' cost
  | checkMemory offset size => exact h.checkMemory env env' offset size
  | load offset length => exact h.load env env' offset length
  | store offset bytes => exact h.store env env' offset bytes
  | memorySize =>
      simp only [Ivmone.handle, h.memorySize]
      exact .ok h
  | gasLeft =>
      simp only [Ivmone.handle, h.gas]
      exact .ok h
  | setGasLeft gas => exact .ok { h with gas := rfl }
  | int64 x => exact .ok { h with }
  | returnData =>
      simp only [Ivmone.handle, h.returnData]
      exact .ok h
  | setReturnData data => exact .ok { h with returnData := rfl }
  | setOutputOffset offset => exact .ok { h with outputOffset := rfl }
  | setOutputSize size => exact .ok { h with outputSize := rfl }
  | request q =>
      have hanswer : env.host q s.host = env'.host q t.host := by rw [hhost, h.host]
      simp only [Ivmone.handle, hanswer]
      exact .ok { h with host := rfl, calls := by rw [h.calls] }
  | keccak256 data =>
      simp only [Ivmone.handle, hkeccak]
      exact .ok h
  | exit status => exact .exit h
  | fault f => exact .fault f

/-- Every implementation does. -/
theorem run {α : Type} {env env' : Env σ} (hhost : env.host = env'.host)
    (hkeccak : env.keccak256 = env'.keccak256) (h : SameView s t) (p : Exec α) :
    Alike SameView (p.run env s) (p.run env' t) :=
  run_related (fun o _ _ hst => hst.handle hhost hkeccak o) p h

theorem rev (h : SameView s t) : s.rev = t.rev := congrArg Context.rev h.context

theorem makeResult (h : SameView s t) : Ivmone.makeResult s = Ivmone.makeResult t := by
  unfold Ivmone.makeResult
  rw [h.status, h.gas, h.outputSize, h.outputOffset]
  have hload : s.memory.load? t.outputOffset t.outputSize =
      t.memory.load? t.outputOffset t.outputSize := by
    by_cases hle : t.outputOffset + t.outputSize ≤ s.memory.size
    · rw [Memory.load?_of_le hle, Memory.load?_of_le (h.memorySize ▸ hle), h.memory]
    · rw [Memory.load?_of_not_le hle, Memory.load?_of_not_le (h.memorySize ▸ hle)]
  rw [hload]

end SameView

/-! ## The rounds of the loops -/

/-- Configurations at the same position with related states. -/
inductive Config.Rel {S S' : Type} (R : S → S' → Prop) : Config S → Config S' → Prop
  | running {pos : Nat} {s : S} {t : S'} (h : R s t) : Rel R (.running pos s) (.running pos t)
  | halted {s : S} {t : S'} (h : R s t) : Rel R (.halted s) (.halted t)
  | fault (f : Fault) : Rel R (.fault f) (.fault f)

section Rounds

variable {env env' : Env σ} {s t : ExecutionState σ}

theorem SameView.checkRequirements (h : SameView s t) (op : Byte) :
    ∃ status s' t', Baseline.checkRequirements s op = (status, s') ∧
      Baseline.checkRequirements t op = (status, t') ∧ SameView s' t' := by
  have hpaid := h.setGas (congrArg (· - (Baseline.instructionTable t.rev op).gasCost) h.gas)
  have hsize : s.stack.size = t.stack.size := h.height
  unfold Baseline.checkRequirements
  rw [h.rev]
  generalize Baseline.instructionTable t.rev op = metrics at hpaid
  by_cases hundefined : metrics.gasCost = instr.undefined
  · exact ⟨_, s, t, if_pos hundefined, if_pos hundefined, h⟩
  · simp only [if_neg hundefined, hpaid.gas]
    show ∃ status s' t', ite _ _ (ite (s.stack.size = _) _
        (ite ((s.stack.size : Int) < _) _ _)) = _ ∧
      ite _ _ (ite (t.stack.size = _) _ (ite ((t.stack.size : Int) < _) _ _)) = _ ∧ _
    rw [hsize]
    split
    · exact ⟨_, _, _, rfl, rfl, hpaid⟩
    · split
      · split <;> exact ⟨_, _, _, rfl, rfl, hpaid⟩
      · split <;> exact ⟨_, _, _, rfl, rfl, hpaid⟩

theorem Config.rel_ofResult {r r' : Result σ Nat} (h : Alike SameView r r') :
    (Config.ofResult r).Rel SameView (Config.ofResult r') := by
  cases h with
  | ok hst => exact .running hst
  | exit hst => exact .halted (hst.setStatus _)
  | fault f => exact .fault f

/-- One round of the Baseline loop, for analyses that give the same instruction at the position. -/
theorem SameView.baseline_step (hhost : env.host = env'.host)
    (hkeccak : env.keccak256 = env'.keccak256) (h : SameView s t)
    {analysis analysis' : Baseline.CodeAnalysis} {pos : Nat}
    (hbyte : analysis.paddedCode[pos]? = analysis'.paddedCode[pos]?)
    (hinvoke : ∀ op opcode ctx, analysis.paddedCode[pos]? = some op →
      (Baseline.checkRequirements s op).1 = .success → Opcode.ofByte op = some opcode →
      Baseline.invoke (Baseline.op2fn opcode) analysis ctx pos =
        Baseline.invoke (Baseline.op2fn opcode) analysis' ctx pos) :
    ∃ c c', Baseline.step env analysis (.running pos s) = some c ∧
      Baseline.step env' analysis' (.running pos t) = some c' ∧ c.Rel SameView c' := by
  refine ⟨_, _, rfl, rfl, ?_⟩
  rw [← hbyte]
  cases hop : analysis.paddedCode[pos]? with
  | none => exact .fault _
  | some op =>
      obtain ⟨status, s', t', hs, ht, hst⟩ := h.checkRequirements op
      simp only [hs, ht]
      cases status with
      | success =>
          show Config.Rel SameView (Baseline.dispatch env analysis pos op s')
            (Baseline.dispatch env' analysis' pos op t')
          unfold Baseline.dispatch
          cases hopcode : Opcode.ofByte op with
          | none => exact .fault _
          | some opcode =>
              have hrun := hst.run hhost hkeccak
                (Baseline.invoke (Baseline.op2fn opcode) analysis' t'.toContext pos)
              simp only [hst.context, hinvoke op opcode t'.toContext hop (by rw [hs]) hopcode]
              exact Config.rel_ofResult hrun
      | _ => exact .halted (hst.setStatus _)

/-- States of the Advanced interpreter that it cannot tell apart. -/
structure SameBlockView (s t : Advanced.AdvancedExecutionState σ) : Prop where
  state : SameView s.toExecutionState t.toExecutionState
  currentBlockCost : s.currentBlockCost = t.currentBlockCost

theorem SameBlockView.opxBeginblock {s t : Advanced.AdvancedExecutionState σ}
    (h : SameBlockView s t) (block : Advanced.BlockInfo) (ip : Nat) :
    (Advanced.opxBeginblock block ip s).Rel SameBlockView
      (Advanced.opxBeginblock block ip t) := by
  have hpaid := h.state.setGas (congrArg (· - (block.gasCost : Int)) h.state.gas)
  have hsize : s.stack.size = t.stack.size := h.state.height
  have hexit : ∀ status, Config.Rel SameBlockView
      (.halted ⟨{ s.setGas (s.gasLeft - block.gasCost) with status := status },
        s.currentBlockCost⟩)
      (.halted ⟨{ t.setGas (t.gasLeft - block.gasCost) with status := status },
        t.currentBlockCost⟩) :=
    fun status => .halted ⟨hpaid.setStatus status, h.currentBlockCost⟩
  show Config.Rel _
    (if (s.setGas (s.gasLeft - block.gasCost)).gasLeft < 0 then _
    else if (s.stack.size : Int) < _ then _ else if _ < (s.stack.size : Int) + _ then _ else _)
    (if (t.setGas (t.gasLeft - block.gasCost)).gasLeft < 0 then _
    else if (t.stack.size : Int) < _ then _ else if _ < (t.stack.size : Int) + _ then _ else _)
  rw [hsize]
  by_cases hneg : (t.setGas (t.gasLeft - block.gasCost)).gasLeft < 0
  · rw [if_pos (hpaid.gas ▸ hneg), if_pos hneg]
    exact hexit .outOfGas
  · rw [if_neg (hpaid.gas ▸ hneg), if_neg hneg]
    split
    · exact hexit .stackUnderflow
    · split
      · exact hexit .stackOverflow
      · exact .running ⟨hpaid, rfl⟩

theorem Advanced.rel_ofResult {cost : Nat} {r r' : Result σ Nat} (h : Alike SameView r r') :
    (Advanced.ofResult cost r).Rel SameBlockView (Advanced.ofResult cost r') := by
  cases h with
  | ok hst => exact .running ⟨hst, rfl⟩
  | exit hst => exact .halted ⟨hst.setStatus _, rfl⟩
  | fault f => exact .fault f

/-- One round of the Advanced loop. -/
theorem SameBlockView.step {s t : Advanced.AdvancedExecutionState σ}
    (hhost : env.host = env'.host) (hkeccak : env.keccak256 = env'.keccak256)
    (h : SameBlockView s t) (analysis : Advanced.AdvancedCodeAnalysis) (ip : Nat) :
    ∃ c c', Advanced.step env analysis (.running ip s) = some c ∧
      Advanced.step env' analysis (.running ip t) = some c' ∧ c.Rel SameBlockView c' := by
  refine ⟨_, _, rfl, rfl, ?_⟩
  cases analysis.instrs[ip]? with
  | none => exact .fault _
  | some instr =>
      show Config.Rel _ (Advanced.dispatch env analysis instr ip s)
        (Advanced.dispatch env' analysis instr ip t)
      unfold Advanced.dispatch
      split
      · exact .fault _
      · exact h.opxBeginblock _ ip
      · exact .fault _
      · rw [h.currentBlockCost, h.state.context]
        exact Advanced.rel_ofResult (h.state.run hhost hkeccak _)

end Rounds

/-! ## Observations -/

/-- What is seen of an execution that has ended: its result and the calls it has made. There is none
if its behaviour is undefined. -/
def Config.observed : Config (ExecutionState σ) → Option (ExecutionResult × List HostCall)
  | .halted s => (makeResult s).map fun r => (r, s.calls)
  | _ => none

/-- What is seen of an execution of the Advanced interpreter. -/
def Advanced.observed :
    Config (Advanced.AdvancedExecutionState σ) → Option (ExecutionResult × List HostCall)
  | .halted s => (makeResult s.toExecutionState).map fun r => (r, s.calls)
  | _ => none

theorem Config.Rel.observed {c c' : Config (ExecutionState σ)} (h : c.Rel SameView c') :
    c.observed = c'.observed := by
  cases h with
  | running hst => rfl
  | halted hst => simp only [Config.observed, hst.makeResult, hst.calls]
  | fault f => rfl

theorem Config.Rel.advanced_observed {c c' : Config (Advanced.AdvancedExecutionState σ)}
    (h : c.Rel SameBlockView c') : Advanced.observed c = Advanced.observed c' := by
  cases h with
  | running hst => rfl
  | halted hst => simp only [Advanced.observed, hst.state.makeResult, hst.state.calls]
  | fault f => rfl

end Ivmone
