import Ivmone.Tracers
import Ivmone.SameView

/-!
# Executions with tracing

`execute<true>` of `baseline.cpp`: the loop with the calls of the tracers in it. The host shares the
VM with the execution, and what it executes on it before it answers is traced as well; so the calls
the tracers receive are part of the state of the host, its `World`. A host that `Covers` another one
answers like it whatever the tracers have been told, and lets the executions it starts come to their
end.

With such a host, an execution with tracing goes as one without, and what the tracers are told of it
is a span: its start, its own instructions with whole executions in between, and its end.
-/

set_option autoImplicit false

namespace Ivmone

open Lib Program

variable {σ : Type}

/-- The state of the host itself, and the calls that the tracers of the VM have received. -/
structure World (σ : Type) where
  state : σ
  events : List TraceEvent

/-- The host answers as `plain` does, and executes nothing on the VM but whole executions. -/
structure Host.Covers (host : Host (World σ)) (plain : Host σ) : Prop where
  answer : ∀ q w, (host q w).1 = (plain q w.state).1
  state : ∀ q w, (host q w).2.state = (plain q w.state).2
  events : ∀ q w, ∃ t : Executions, t.Complete InCode ∧ (host q w).2.events = w.events ++ t.events

namespace ExecutionState

/-- The state without the calls of the tracers. -/
def forget (s : ExecutionState (World σ)) : ExecutionState σ := { s with host := s.host.state }

/-- Calls of the tracers. -/
def tell (s : ExecutionState (World σ)) (es : List TraceEvent) : ExecutionState (World σ) :=
  { s with host := { s.host with events := s.host.events ++ es } }

end ExecutionState

/-- Changes the state of a configuration. -/
def Config.map {S S' : Type} (f : S → S') : Config S → Config S'
  | .running pos s => .running pos (f s)
  | .halted s => .halted (f s)
  | .fault x => .fault x

namespace Baseline

/-- The start, with the call of `notify_execution_start`. -/
def startTracing (i : Invocation (World σ)) : Config (ExecutionState (World σ)) :=
  (start i).map fun s => s.tell [.opened ⟨s.rev, s.msg, s.code.bytes⟩]

/-- One round of the loop, with the call of `notify_instruction_start`. -/
def tracingStep (env : Env (World σ)) (analysis : CodeAnalysis)
    (c : Config (ExecutionState (World σ))) : Option (Config (ExecutionState (World σ))) :=
  step env analysis (c.map fun s => s.tell ((notification c).map .noted))

/-- The end, with the call of `notify_execution_end`. -/
def endTracing : Config (ExecutionState (World σ)) → Config (ExecutionState (World σ))
  | .halted s => .halted (s.tell ((makeResult s).toList.map .closed))
  | c => c

/-- `execute<true>`. -/
def executeTracing (i : Invocation (World σ)) : Part (Config (ExecutionState (World σ))) :=
  (StateTransition.eval (tracingStep i.env (analysisOf i)) (startTracing i)).map endTracing

end Baseline

/-! ## States that differ in what the tracers were told -/

/-- `t` is `s` without the calls of the tracers, which meet `P`. -/
def Told (P : List TraceEvent → Prop) (s : ExecutionState (World σ)) (t : ExecutionState σ) :
    Prop :=
  s.forget = t ∧ P s.host.events

/-- Whole executions may come at any time. -/
def Stable (P : List TraceEvent → Prop) : Prop :=
  ∀ es (t : Executions), P es → t.Complete InCode → P (es ++ t.events)

/-- The environment with another host. -/
def Env.plain (env : Env (World σ)) (host : Host σ) : Env σ := ⟨host, env.keccak256, env.alloc⟩

namespace Told

variable {P : List TraceEvent → Prop} {env : Env (World σ)} {plain : Host σ}
  {s : ExecutionState (World σ)} {t : ExecutionState σ}

theorem context (h : Told P s t) : s.toContext = t.toContext := congrArg (·.toContext) h.1

theorem gas (h : Told P s t) : s.gasLeft = t.gasLeft := congrArg (·.gasLeft) h.1

theorem stack (h : Told P s t) : s.stack = t.stack := congrArg (·.stack) h.1

theorem memory (h : Told P s t) : s.memory = t.memory := congrArg (·.memory) h.1

theorem returnData (h : Told P s t) : s.returnData = t.returnData := congrArg (·.returnData) h.1

theorem setGas (h : Told P s t) {x y : Int} (hxy : x = y) : Told P (s.setGas x) (t.setGas y) := by
  obtain ⟨rfl, hP⟩ := h
  exact ⟨congrArg (ExecutionState.setGas s.forget) hxy, hP⟩

theorem noteInt64 (h : Told P s t) (x : Int) : Told P (s.noteInt64 x) (t.noteInt64 x) := by
  obtain ⟨rfl, hP⟩ := h
  exact ⟨rfl, hP⟩

theorem setStack (h : Told P s t) (stack : Stack) :
    Told P { s with stack := stack } { t with stack := stack } := by
  obtain ⟨rfl, hP⟩ := h
  exact ⟨rfl, hP⟩

theorem setMemory (h : Told P s t) (memory : Memory) :
    Told P { s with memory := memory } { t with memory := memory } := by
  obtain ⟨rfl, hP⟩ := h
  exact ⟨rfl, hP⟩

theorem setStatus (h : Told P s t) (status : StatusCode) :
    Told P { s with status := status } { t with status := status } := by
  obtain ⟨rfl, hP⟩ := h
  exact ⟨rfl, hP⟩

/-- The end of `grow_memory`, where the cost has been subtracted. -/
theorem growPaid (h : Told P s t) (alloc : Allocator) (newSize : Nat) :
    Alike (Told P)
      (if s.gasLeft < 0 then .ok false s
      else
        match s.memory.grow? alloc newSize with
        | some memory => .ok true { s with memory := memory }
        | none => .fault .growth : Result (World σ) Bool)
      (if t.gasLeft < 0 then .ok false t
      else
        match t.memory.grow? alloc newSize with
        | some memory => .ok true { t with memory := memory }
        | none => .fault .growth : Result σ Bool) := by
  by_cases hneg : s.gasLeft < 0
  · rw [if_pos hneg, if_pos (h.gas ▸ hneg)]
    exact .ok h
  · rw [if_neg hneg, if_neg (h.gas ▸ hneg), ← h.memory]
    cases s.memory.grow? alloc newSize with
    | none => exact .fault _
    | some memory => exact .ok (h.setMemory memory)

theorem growMemory (h : Told P s t) (alloc : Allocator) (newSize : Nat) :
    Alike (Told P) (s.growMemory alloc newSize) (t.growMemory alloc newSize) := by
  unfold ExecutionState.growMemory
  simp only [h.memory]
  apply growPaid
  have hnoted := (((h.noteInt64 (numWords newSize * numWords newSize)).noteInt64
    (memoryCost (numWords newSize))).noteInt64
    (t.memory.size / wordSize * (t.memory.size / wordSize))).noteInt64
    (memoryCost (t.memory.size / wordSize))
  exact (hnoted.noteInt64 _).setGas (congrArg (· - _) hnoted.gas)

theorem checkMemory64 (h : Told P s t) (alloc : Allocator) (offset : UInt256) (size : Nat) :
    Alike (Told P) (s.checkMemory64 alloc offset size) (t.checkMemory64 alloc offset size) := by
  unfold ExecutionState.checkMemory64
  simp only [h.memory]
  split
  · exact .ok h
  · split
    · exact h.growMemory alloc _
    · exact .ok h

theorem checkMemory (h : Told P s t) (alloc : Allocator) (offset : UInt256)
    (size : MemorySize) :
    Alike (Told P) (s.checkMemory alloc offset size) (t.checkMemory alloc offset size) := by
  cases size with
  | u64 size => exact h.checkMemory64 alloc offset size
  | u256 size =>
      simp only [ExecutionState.checkMemory, ExecutionState.checkMemory256]
      split
      · exact .ok h
      · split
        · exact .ok h
        · exact h.checkMemory64 alloc offset _

theorem noteCheck (h : Told P s t) {s' : ExecutionState (World σ)} {t' : ExecutionState σ}
    (h' : Told P s' t') (offset : UInt256) (size : MemorySize) (passed : Bool) :
    Told P (s.noteCheck s' offset size passed) (t.noteCheck t' offset size passed) := by
  obtain ⟨rfl, hP⟩ := h
  obtain ⟨rfl, -⟩ := h'
  exact ⟨rfl, hP⟩

/-- An answer of the host. -/
theorem request (hcovers : env.host.Covers plain) (hstable : Stable P) (h : Told P s t)
    (q : HostRequest) :
    Alike (Told P) (handle env (.request q) s) (handle (env.plain plain) (.request q) t) := by
  obtain ⟨rfl, hP⟩ := h
  obtain ⟨x, hx, hevents⟩ := hcovers.events q s.host
  have hanswer := hcovers.answer q s.host
  have hstate := hcovers.state q s.host
  simp only [Ivmone.handle]
  generalize env.host q s.host = answer at *
  obtain ⟨a, w⟩ := answer
  dsimp only at hanswer hstate hevents
  subst hanswer
  refine .ok ⟨?_, ?_⟩
  · simp only [ExecutionState.forget, hstate]
    rfl
  · show P w.events
    rw [hevents]
    exact hstable _ x hP hx

/-- Every operation does the same in both states. -/
theorem handle (hcovers : env.host.Covers plain) (hstable : Stable P) (h : Told P s t) (o : Op) :
    Alike (Told P) (handle env o s) (handle (env.plain plain) o t) := by
  cases o with
  | checkMemory offset size =>
      apply (h.checkMemory env.alloc offset size).bind
      intro passed s' t' h'
      split
      · exact .ok (h'.noteCheck h offset size passed)
      · exact .exit (h'.noteCheck h offset size passed)
  | pop | push | poke =>
      simp only [Ivmone.handle, h.stack]
      split
      · exact .ok (h.setStack _)
      · exact .fault _
  | peek index =>
      simp only [Ivmone.handle, h.stack]
      split
      · exact .ok h
      · exact .fault _
  | load offset length =>
      simp only [Ivmone.handle, h.memory]
      split
      · exact .ok h
      · exact .fault _
  | store offset bytes =>
      simp only [Ivmone.handle, h.memory]
      split
      · exact .ok (h.setMemory _)
      · exact .fault _
  | charge cost =>
      have hs := (h.noteInt64 cost).setGas (congrArg (· - cost) h.gas)
      simp only [Ivmone.handle, hs.gas]
      split
      · exact .exit hs
      · exact .ok hs
  | request q => exact h.request hcovers hstable q
  | exit status => exact .exit h
  | fault f => exact .fault f
  | memorySize | gasLeft | setGasLeft | int64 | returnData | setReturnData | setOutputOffset |
      setOutputSize | keccak256 =>
      obtain ⟨rfl, hP⟩ := h
      exact .ok ⟨rfl, hP⟩

/-- Every implementation does. -/
theorem run {α : Type} (hcovers : env.host.Covers plain) (hstable : Stable P) (h : Told P s t)
    (p : Exec α) : Alike (Told P) (p.run env s) (p.run (env.plain plain) t) :=
  run_related (fun o _ _ hst => hst.handle hcovers hstable o) p h

theorem checkRequirements (h : Told P s t) (op : Byte) :
    ∃ status s' t', Baseline.checkRequirements s op = (status, s') ∧
      Baseline.checkRequirements t op = (status, t') ∧ Told P s' t' := by
  have hrev : s.rev = t.rev := congrArg Context.rev h.context
  have hpaid := h.setGas (congrArg (· - (Baseline.instructionTable t.rev op).gasCost) h.gas)
  unfold Baseline.checkRequirements
  rw [hrev]
  generalize Baseline.instructionTable t.rev op = metrics at hpaid
  by_cases hundefined : metrics.gasCost = instr.undefined
  · exact ⟨_, s, t, if_pos hundefined, if_pos hundefined, h⟩
  · simp only [if_neg hundefined, hpaid.gas, hpaid.stack]
    split
    · exact ⟨_, _, _, rfl, rfl, hpaid⟩
    · split
      · split <;> exact ⟨_, _, _, rfl, rfl, hpaid⟩
      · split <;> exact ⟨_, _, _, rfl, rfl, hpaid⟩

theorem rel_ofResult {r : Result (World σ) Nat} {r' : Result σ Nat} (h : Alike (Told P) r r') :
    (Config.ofResult r).Rel (Told P) (Config.ofResult r') := by
  cases h with
  | ok hst => exact .running hst
  | exit hst => exact .halted (hst.setStatus _)
  | fault f => exact .fault f

/-- One round of the loop. -/
theorem step (hcovers : env.host.Covers plain) (hstable : Stable P) (h : Told P s t)
    (analysis : Baseline.CodeAnalysis) (pos : Nat) :
    ∃ c c', Baseline.step env analysis (.running pos s) = some c ∧
      Baseline.step (env.plain plain) analysis (.running pos t) = some c' ∧
      c.Rel (Told P) c' := by
  refine ⟨_, _, rfl, rfl, ?_⟩
  cases analysis.paddedCode[pos]? with
  | none => exact .fault _
  | some op =>
      obtain ⟨status, s', t', hs, ht, hst⟩ := h.checkRequirements op
      simp only [hs, ht]
      cases status with
      | success =>
          simp only [Baseline.dispatch]
          cases Opcode.ofByte op with
          | none => exact .fault _
          | some opcode =>
              rw [hst.context]
              exact rel_ofResult (hst.run hcovers hstable _)
      | _ => exact .halted (hst.setStatus _)

theorem makeResult (h : Told P s t) : Ivmone.makeResult s = Ivmone.makeResult t := by
  obtain ⟨rfl, -⟩ := h
  rfl

end Told

/-! ## Runs with tracing -/

/-- The invocation with another host. -/
def Invocation.plain (i : Invocation (World σ)) (host : Host σ) : Invocation σ where
  ctx := i.ctx
  env := i.env.plain host
  host := i.host.state
  uninitStack := i.uninitStack
  uninitCode := i.uninitCode

/-- After the calls in `log`, an execution has started, and has executed the instructions `ns`. -/
def Underway (log : List TraceEvent) (o : ExecutionStart) (ns : List Baseline.Notification)
    (es : List TraceEvent) : Prop :=
  ∃ t : Executions, t.Fit InCode (InCode o) ∧ t.notes = ns ∧ es = log ++ .opened o :: t.events

namespace Underway

variable {log es : List TraceEvent} {o : ExecutionStart} {ns : List Baseline.Notification}

theorem append (h : Underway log o ns es) {x : Executions} (hx : x.Fit InCode (InCode o)) :
    Underway log o (ns ++ x.notes) (es ++ x.events) := by
  obtain ⟨t, ht, rfl, rfl⟩ := h
  refine ⟨t.append x, ht.append hx, Spans.notes_append t x, ?_⟩
  rw [Spans.events_append, List.append_assoc]
  rfl

end Underway

namespace Baseline

section Runs

variable {i : Invocation (World σ)} {plain : Host σ}

theorem Told.notification {P : List TraceEvent → Prop} {s : ExecutionState (World σ)}
    {t : ExecutionState σ} (h : Told P s t) (pos : Nat) :
    Baseline.notification (.running pos s) = Baseline.notification (.running pos t) := by
  obtain ⟨rfl, -⟩ := h
  rfl

end Runs

end Baseline

end Ivmone
