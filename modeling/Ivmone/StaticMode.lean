import Ivmone.MemorySafety

/-!
# Static mode

A frame whose message carries `IVMC_STATIC` makes no request that changes the state of the host, and
every message it sends carries the flag, so the same holds for all the frames that are run for these
messages.
-/

set_option autoImplicit false

namespace Ivmone

open Lib Instructions

variable {σ : Type}

/-- The rules of an execution in static mode. -/
def static : Rules := { lenient with isStatic := True }

theorem premises_static {i : Invocation σ} (h : i.ctx.msg.isStatic = true) : Premises i static :=
  ⟨rfl, trivial, False.elim, fun _ => h, False.elim⟩

/-- Every request that was made is allowed in static mode. -/
def ExecutionState.Quiet (s : ExecutionState σ) : Prop := ∀ x ∈ s.calls, x.request.Quiet

theorem Follows.quiet {i : Invocation σ} {s : ExecutionState σ} (h : Follows static i.newState s) :
    s.Quiet := by
  obtain ⟨new, hnew, hquiet⟩ := h.calls
  intro x hx
  rw [hnew] at hx
  exact hquiet trivial x hx

/-- The runs of both interpreters are quiet. -/
def Invocation.Quiet (i : Invocation σ) : Prop :=
  (∀ c, StateTransition.Reaches (Baseline.step i.env (Baseline.analysisOf i)) (Baseline.start i) c →
    c.StateMeets ExecutionState.Quiet) ∧
  (∀ c, StateTransition.Reaches (Advanced.step i.env (Advanced.analysisOf i)) (Advanced.start i) c →
    c.StateMeets fun s => s.toExecutionState.Quiet)

theorem Invocation.quiet_of_isStatic {i : Invocation σ} (h : i.ctx.msg.isStatic = true) :
    i.Quiet := by
  have hp := premises_static h
  constructor
  · intro c hc
    have hvalid := Baseline.valid_of_reaches hp hc
    cases c with
    | running pos s =>
        obtain ⟨-, hs⟩ := hvalid.resolve_left fun h => h.1
        exact hs.follows.quiet
    | halted s =>
        have hhalted : Halted i static s := hvalid.resolve_left fun h => h.1
        exact hhalted.follows.quiet
    | fault f => trivial
  · intro c hc
    have hvalid := Advanced.valid_of_reaches hp False.elim hc
    cases c with
    | running ip s =>
        obtain ⟨hs, -⟩ := hvalid.resolve_left fun h => h.1
        exact hs.follows.quiet
    | halted s =>
        have hhalted := hvalid.resolve_left fun h => h.1
        exact hhalted.follows.quiet
    | fault f => trivial

/-! ## Nested frames -/

/-- The state of a configuration that has one. -/
def Config.state? {S : Type} : Config S → Option S
  | .running _ s => some s
  | .halted s => some s
  | .fault _ => none

theorem Config.StateMeets.of_state? {S : Type} {P : S → Prop} {c : Config S} (h : c.StateMeets P)
    {s : S} (hs : c.state? = some s) : P s := by
  cases c with
  | running pos s' =>
      injection hs with hs
      exact hs ▸ h
  | halted s' =>
      injection hs with hs
      exact hs ▸ h
  | fault f => cases hs

/-- A run of `i`, in either interpreter, has passed the message of the frame `j` to `call()`. -/
def Invocation.Spawns (i j : Invocation σ) : Prop :=
  (∃ c s, StateTransition.Reaches (Baseline.step i.env (Baseline.analysisOf i))
    (Baseline.start i) c ∧ c.state? = some s ∧ ∃ x ∈ s.calls, x.request = .call j.ctx.msg) ∨
  (∃ c s, StateTransition.Reaches (Advanced.step i.env (Advanced.analysisOf i))
    (Advanced.start i) c ∧ c.state? = some s ∧ ∃ x ∈ s.calls, x.request = .call j.ctx.msg)

theorem Invocation.Spawns.isStatic {i j : Invocation σ} (h : i.Spawns j)
    (hi : i.ctx.msg.isStatic = true) : j.ctx.msg.isStatic = true := by
  obtain ⟨hbaseline, hadvanced⟩ := Invocation.quiet_of_isStatic hi
  rcases h with ⟨c, s, hc, hs, x, hx, hmsg⟩ | ⟨c, s, hc, hs, x, hx, hmsg⟩
  · have hquiet := (hbaseline c hc).of_state? hs x hx
    rw [hmsg] at hquiet
    exact hquiet.1
  · have hquiet := (hadvanced c hc).of_state? hs x hx
    rw [hmsg] at hquiet
    exact hquiet.1

/-! ## STATICCALL -/

/-- All messages passed to `call()` from the state `s` on carry the flag. -/
def SendsStatic (s : ExecutionState σ) (r : Result σ Nat) : Prop :=
  let new (s' : ExecutionState σ) : Prop := ∃ calls, s'.calls = s.calls ++ calls ∧
    ∀ x ∈ calls, ∀ msg, x.request = .call msg → msg.isStatic = true
  r.Meets (fun _ => new) (fun _ => new) fun _ => True

theorem sendsStatic_of_steps {env : Env σ} {known : Prop} {change : Int} {next : Nat → Prop}
    {t s : ExecutionState σ} {r : Result σ Nat}
    (h : StepsFrom env static known change next t s r) : SendsStatic s r := by
  have hnew : ∀ s', Follows static s s' → ∃ calls, s'.calls = s.calls ++ calls ∧
      ∀ x ∈ calls, ∀ msg, x.request = .call msg → msg.isStatic = true := by
    intro s' hfollows
    obtain ⟨calls, hcalls, hquiet⟩ := hfollows.calls
    refine ⟨calls, hcalls, fun x hx msg hmsg => ?_⟩
    have hx' := hquiet trivial x hx
    rw [hmsg] at hx'
    exact hx'.1
  refine h.mono ?_ ?_ fun _ _ => trivial
  · rintro pos s' (⟨hm, -⟩ | ⟨-, hcont⟩)
    · exact hm.elim
    · exact hnew s' hcont.follows
  · rintro status s' (⟨hm, -⟩ | hleaves)
    · exact hm.elim
    · exact hnew s' hleaves.follows

/-- STATICCALL is quiet also in frames that are not static. -/
theorem spec_staticcall (ctx : Context) :
    Spec static (instr.traits .staticcall).stackHeightRequired
      (instr.traits .staticcall).stackHeightChange (call .call true ctx) :=
  spec_call .call true (by decide) (fun _ => .inl rfl) trivial

theorem sendsStatic_baseline (env : Env σ) (analysis : Baseline.CodeAnalysis) (pos : Nat)
    {s : ExecutionState σ} (hs : Startable static s) :
    SendsStatic s
      ((Baseline.invoke (Baseline.op2fn .staticcall) analysis s.toContext pos).run env s) := by
  have hsuits : Suits False .staticcall s := False.elim
  exact sendsStatic_of_steps
    (steps_of_spec rfl False.elim hs hsuits (spec_staticcall s.toContext) (pos + 1))

theorem sendsStatic_advanced (env : Env σ) (analysis : Advanced.AdvancedCodeAnalysis) (cost : Nat)
    (arg : Advanced.Argument) (ip : Nat) {s : ExecutionState σ} (hs : Startable static s) :
    SendsStatic s
      ((Advanced.exec analysis cost s.toContext (Advanced.instructionImplementations
        .staticcall) arg ip).run env s) := by
  cases arg with
  | number n =>
      have hsuits : Suits False .staticcall s := False.elim
      exact sendsStatic_of_steps (t := s)
        (Advanced.steps_corrected rfl False.elim hs (spec_staticcall s.toContext) hsuits
          ⟨False.elim, False.elim, False.elim, False.elim⟩ False.elim ip)
  | _ => trivial

/-- Static mode is never violated. A static frame, and every frame run for a message it or such a
frame has sent, makes only quiet requests: no storage is set, no log is emitted, nothing is
destructed or created, no value is sent, and every message carries the flag. In any frame, what a
STATICCALL sends carries the flag. -/
theorem static_mode (i : Invocation σ) :
    (i.ctx.msg.isStatic = true → ∀ j, Relation.ReflTransGen Invocation.Spawns i j →
      j.ctx.msg.isStatic = true ∧ j.Quiet) ∧
    (∀ c, StateTransition.Reaches (Baseline.step i.env (Baseline.analysisOf i))
      (Baseline.start i) c → c.Meets
        (fun pos s => ∀ stack gas, SendsStatic (s.anyOperands stack gas)
          ((Baseline.invoke (Baseline.op2fn .staticcall) (Baseline.analysisOf i)
            s.toContext pos).run i.env (s.anyOperands stack gas)))
        (fun _ => True) fun _ => True) ∧
    (∀ c, StateTransition.Reaches (Advanced.step i.env (Advanced.analysisOf i))
      (Advanced.start i) c → c.Meets
        (fun ip s => ∀ arg stack gas, SendsStatic (s.toExecutionState.anyOperands stack gas)
          ((Advanced.exec (Advanced.analysisOf i) s.currentBlockCost s.toContext
            (Advanced.instructionImplementations .staticcall) arg ip).run i.env
            (s.toExecutionState.anyOperands stack gas)))
        (fun _ => True) fun _ => True) := by
  refine ⟨fun hi j hj => ?_, fun c hc => ?_, fun c hc => ?_⟩
  · have hj' : j.ctx.msg.isStatic = true := by
      induction hj with
      | refl => exact hi
      | tail _ hspawns ih => exact hspawns.isStatic ih
    exact ⟨hj', Invocation.quiet_of_isStatic hj'⟩
  · have hvalid := Baseline.valid_of_reaches (premises_lenient i) hc
    cases c with
    | running pos s =>
        obtain ⟨-, hs⟩ := hvalid.resolve_left fun h => h.1
        exact fun stack gas => sendsStatic_baseline i.env _ pos
          (s := s.anyOperands stack gas) ⟨hs.follows.sized, hs.outputSize, False.elim⟩
    | halted s => trivial
    | fault f => trivial
  · have hvalid := Advanced.valid_of_reaches (premises_lenient i) False.elim hc
    cases c with
    | running ip s =>
        obtain ⟨hs, -⟩ := hvalid.resolve_left fun h => h.1
        exact fun arg stack gas => sendsStatic_advanced i.env _ _ arg ip
          (s := s.toExecutionState.anyOperands stack gas)
            ⟨hs.follows.sized, hs.outputSize, False.elim⟩
    | halted s => trivial
    | fault f => trivial

/-- A static frame, in the revision where STATICCALL was introduced. -/
def staticFrame : Invocation Unit := simpleInvocation .byzantium .empty 100 ivmcStatic

theorem static_mode_staticFrame : staticFrame.ctx.msg.isStatic = true ∧ staticFrame.Quiet := by
  have hstatic : staticFrame.ctx.msg.isStatic = true := by decide
  exact (static_mode staticFrame).1 hstatic staticFrame Relation.ReflTransGen.refl

end Ivmone
