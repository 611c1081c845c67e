import Ivmone.OpcodeSafety
import Ivmone.Soundness

/-!
# One instruction

What the run of an implementation does to the state of an interpreter, in the two ways it can end:
execution continues, or it leaves the loop. The facts hold for every opcode; the invariants of both
interpreters are derived from them.
-/

set_option autoImplicit false

namespace Ivmone

open Lib Instructions

variable {σ : Type}

theorem Follows.refl {rules : Rules} {s : ExecutionState σ} (hsized : s.memory.Sized)
    (hgas : rules.metered → s.gasLeft ≤ rules.ceiling ∧ s.ghost.overflow = false) :
    Follows rules s s :=
  ⟨rfl, le_rfl, hsized, ⟨[], by simp, fun _ _ h => by cases h⟩, hgas⟩

theorem Follows.trans {rules : Rules} {s1 s2 s3 : ExecutionState σ} (h12 : Follows rules s1 s2)
    (h23 : Follows rules s2 s3) : Follows rules s1 s3 := by
  obtain ⟨new, hnew, hquiet⟩ := h12.calls
  obtain ⟨new', hnew', hquiet'⟩ := h23.calls
  refine ⟨h23.context.trans h12.context, Nat.le_trans h12.memory h23.memory, h23.sized,
    ⟨new ++ new', ?_, fun hs c hc => ?_⟩, h23.gas⟩
  · rw [hnew', hnew, List.append_assoc]
  · rcases List.mem_append.1 hc with hc | hc
    · exact hquiet hs c hc
    · exact hquiet' hs c hc

/-- Execution continues in `s'` after an instruction that started in `s`. -/
structure Continues (rules : Rules) (known : Prop) (change : Int) (s s' : ExecutionState σ) :
    Prop where
  follows : Follows rules s s'
  outputSize : s'.outputSize = 0
  height : known → (s'.stack.height : Int) = s.stack.height + change
  gas : Paid rules s.gasLeft s'.gasLeft

/-- Execution leaves the loop in `s'` with a status, after an instruction that started in `s`. -/
structure Leaves (rules : Rules) (s : ExecutionState σ) (status : StatusCode)
    (s' : ExecutionState σ) : Prop where
  follows : Follows rules s s'
  output : s'.outputSize ≠ 0 →
    status.keepsGas ∧ s'.outputOffset + s'.outputSize ≤ s'.memory.size
  gas : status.keepsGas → Paid rules s.gasLeft s'.gasLeft

/-- The outcomes of one instruction that started in `s`, with what is known of the next position.
Calls that derail it are judged by the gas left in `t`. -/
abbrev StepsFrom (env : Env σ) (rules : Rules) (known : Prop) (change : Int) (next : Nat → Prop)
    (t s : ExecutionState σ) (r : Result σ Nat) : Prop :=
  r.Meets
    (fun pos s' => (rules.metered ∧ Derailed env t s') ∨
      (next pos ∧ Continues rules known change s s'))
    (fun status s' => (rules.metered ∧ Derailed env t s') ∨ Leaves rules s status s')
    (Excused rules known)

/-- The outcomes of one instruction that started in `s`. -/
abbrev Steps (env : Env σ) (rules : Rules) (known : Prop) (change : Int) (next : Nat → Prop)
    (s : ExecutionState σ) (r : Result σ Nat) : Prop :=
  StepsFrom env rules known change next s s r

/-- A state in which an instruction may start, apart from its stack. -/
structure Startable (rules : Rules) (s : ExecutionState σ) : Prop where
  sized : s.memory.Sized
  outputSize : s.outputSize = 0
  gas : rules.metered →
    -2 ^ 62 ≤ s.gasLeft ∧ s.gasLeft ≤ rules.ceiling ∧ s.ghost.overflow = false

/-- The stack is high enough for an instruction and has room for it; nothing is asked if the height
is not `known`. -/
def Suits (known : Prop) (op : Opcode) (s : ExecutionState σ) : Prop :=
  known → (instr.traits op).stackHeightRequired ≤ s.stack.height ∧
    s.stack.height + (instr.traits op).stackHeightChange ≤ 1024

section Run

variable {env : Env σ} {rules : Rules} {known : Prop} {s : ExecutionState σ}

/-- The abstract state of the logic at the start of an instruction. -/
def Abs.of (height : Nat) (s : ExecutionState σ) : Abs :=
  ⟨height, s.memory.size, s.outputOffset, s.outputSize, s.gasLeft⟩

theorem Startable.tracks (h : Startable rules s) {height below : Nat}
    (hheight : known → s.stack.height = height + below) :
    Tracks rules known below s (.of height s) s := by
  refine ⟨.refl h.sized fun hm => (h.gas hm).2, hheight, rfl, rfl, rfl, fun hm => ⟨rfl, ?_, ?_⟩⟩
  · exact (h.gas hm).1
  · exact min_le_left _ _

/-- The logic starts with the height of the stack if it is known, and with a height that suits every
instruction if it is not. -/
theorem Startable.exists_ready (h : Startable rules s) (hlimit : rules.limit = 1024) {op : Opcode}
    (hsuits : Suits known op s) :
    ∃ a : Abs, Tracks rules known 0 s a s ∧ a.gas = s.gasLeft ∧
      (known → (s.stack.height : Int) = a.height) ∧ a.height ≤ rules.limit ∧
      a.Ready rules (instr.traits op).stackHeightRequired (instr.traits op).stackHeightChange := by
  obtain ⟨-, h17, hchange, -⟩ := traits_range op
  have hgas : rules.metered → -2 ^ 62 ≤ s.gasLeft ∧ s.gasLeft ≤ rules.ceiling :=
    fun hm => ⟨(h.gas hm).1, (h.gas hm).2.1⟩
  by_cases hk : known
  · obtain ⟨h1, h2⟩ := hsuits hk
    have hle := s.stack.height_le
    refine ⟨.of s.stack.height s, h.tracks fun _ => rfl, rfl, fun _ => rfl, ?_, h1, ?_,
      h.outputSize, hgas⟩
    · rw [hlimit]
      exact hle
    · rw [hlimit]
      exact h2
  · refine ⟨.of 17 s, h.tracks fun hk' => absurd hk' hk, rfl, fun hk' => absurd hk' hk, ?_, h17, ?_,
      h.outputSize, hgas⟩
    · simp only [Abs.of]
      omega
    · simp only [Abs.of]
      omega

theorem Tracks.continues {a a' : Abs} {s' : ExecutionState σ} {change : Int}
    (hR : Tracks rules known 0 s a' s') (hgas : a.gas = s.gasLeft)
    (hheight : known → (s.stack.height : Int) = a.height) (hleads : a.Leads rules change a') :
    Continues rules known change s s' := by
  refine ⟨hR.follows, hR.outputSize.symm.trans hleads.outputSize, fun hk => ?_, fun hm => ?_⟩
  · have h1 := hR.height hk
    have h2 := hleads.height
    have h3 := hheight hk
    omega
  · have h1 := (hR.gas hm).1
    have h2 := hleads.gas hm
    omega

theorem Exited.leaves {status : StatusCode} {s' : ExecutionState σ}
    (h : Exited rules s status s') : Leaves rules s status s' :=
  ⟨h.follows, fun hne => absurd h.outputSize hne, fun hkeeps => absurd hkeeps h.status⟩

/-- A program that meets the specification of an opcode. -/
theorem run_spec (hlimit : rules.limit = 1024) (hfits : rules.fits → env.host.CopyFits)
    (hs : Startable rules s) {op : Opcode} (hsuits : Suits known op s) {p : Exec Unit}
    (hp : Spec rules (instr.traits op).stackHeightRequired (instr.traits op).stackHeightChange p) :
    (p.run env s).Meets
      (fun _ s' => (rules.metered ∧ Derailed env s s') ∨
        Continues rules known (instr.traits op).stackHeightChange s s')
      (fun status s' => (rules.metered ∧ Derailed env s s') ∨ Exited rules s status s')
      (Excused rules known) := by
  obtain ⟨a, hR, hgas, hheight, -, hready⟩ := hs.exists_ready hlimit hsuits
  refine (run_safe (fun _ => by omega) hfits hR (hp a hready)).mono ?_ (fun _ _ => id) fun _ => id
  rintro _ s' (hd | ⟨a', hR', hleads⟩)
  · exact .inl hd
  · exact .inr (hR'.continues hgas hheight hleads)

/-- A program that meets a specification, with what is known of its result. It leaves the loop only
with a failure. -/
theorem run_goes (hlimit : rules.limit = 1024) (hfits : rules.fits → env.host.CopyFits)
    (hs : Startable rules s) {op : Opcode} (hsuits : Suits known op s) {p : Exec Nat}
    {next : Nat → Prop}
    (hp : ∀ a : Abs, a.gas = s.gasLeft →
      a.Ready rules (instr.traits op).stackHeightRequired (instr.traits op).stackHeightChange →
      p.Sat (Safe rules)
        (fun pos a' => next pos ∧ a.Leads rules (instr.traits op).stackHeightChange a') a) :
    (p.run env s).Meets
      (fun pos s' => (rules.metered ∧ Derailed env s s') ∨
        (next pos ∧ Continues rules known (instr.traits op).stackHeightChange s s'))
      (fun status s' => (rules.metered ∧ Derailed env s s') ∨ Exited rules s status s')
      (Excused rules known) := by
  obtain ⟨a, hR, hgas, hheight, -, hready⟩ := hs.exists_ready hlimit hsuits
  refine (run_safe (fun _ => by omega) hfits hR (hp a hgas hready)).mono ?_ (fun _ _ => id)
    fun _ => id
  rintro pos s' (hd | ⟨a', hR', hnext, hleads⟩)
  · exact .inl hd
  · exact .inr ⟨hnext, hR'.continues hgas hheight hleads⟩

theorem run_steps (hlimit : rules.limit = 1024) (hfits : rules.fits → env.host.CopyFits)
    (hs : Startable rules s) {op : Opcode} (hsuits : Suits known op s) {p : Exec Nat}
    {next : Nat → Prop}
    (hp : ∀ a : Abs, a.gas = s.gasLeft →
      a.Ready rules (instr.traits op).stackHeightRequired (instr.traits op).stackHeightChange →
      p.Sat (Safe rules)
        (fun pos a' => next pos ∧ a.Leads rules (instr.traits op).stackHeightChange a') a) :
    Steps env rules known (instr.traits op).stackHeightChange next s (p.run env s) := by
  refine (run_goes hlimit hfits hs hsuits hp).mono (fun _ _ => id) ?_ fun _ => id
  rintro status s' (hd | hexit)
  · exact .inl hd
  · exact .inr hexit.leaves

/-- A program that meets the specification of an opcode, after which execution continues at a fixed
position. -/
theorem steps_of_spec (hlimit : rules.limit = 1024) (hfits : rules.fits → env.host.CopyFits)
    (hs : Startable rules s) {op : Opcode} (hsuits : Suits known op s) {p : Exec Unit}
    (hp : Spec rules (instr.traits op).stackHeightRequired (instr.traits op).stackHeightChange p)
    (pos : Nat) :
    Steps env rules known (instr.traits op).stackHeightChange (· = pos) s
      (Exec.run env (do p; pure pos) s) := by
  have hrun := run_spec hlimit hfits hs hsuits hp
  show Outcome.Meets _ _ _ (Program.run (handle env) (p >>= fun _ => pure pos) s)
  rw [Program.run_bind]
  refine Outcome.Meets.bind (hrun.mono (fun _ _ => id) ?_ fun _ => id) ?_
  · rintro status s' (hd | hexit)
    · exact .inl hd
    · exact .inr hexit.leaves
  · rintro _ s' (hd | hcont)
    · exact .inl hd
    · exact .inr ⟨rfl, hcont⟩

/-- A basic instruction. -/
theorem run_basic (hlimit : rules.limit = 1024) (hreads : rules.readsGas)
    (hfits : rules.fits → env.host.CopyFits) (hstatic : rules.isStatic → s.msg.isStatic = true)
    (hs : Startable rules s) {op : Opcode} {f : Context → Exec Unit}
    (hop : Baseline.op2fn op = .basic f) (hsuits : Suits known op s) (pos : Nat) :
    Steps env rules known (instr.traits op).stackHeightChange (· = pos) s
      (Exec.run env (do f s.toContext; pure pos) s) :=
  steps_of_spec hlimit hfits hs hsuits (spec_basic hop hstatic fun _ => hreads) pos

/-- A terminating instruction. -/
theorem run_terminating (hlimit : rules.limit = 1024) (hfits : rules.fits → env.host.CopyFits)
    (hs : Startable rules s) {op : Opcode} (hsuits : Suits known op s) {p : Exec StatusCode}
    (hp : TerminatingSpec rules (instr.traits op).stackHeightRequired p) {next : Nat → Prop} :
    Steps env rules known (instr.traits op).stackHeightChange next s
      (Exec.run env (do let status ← p; Exec.exit status) s) := by
  obtain ⟨a, hR, hgas, -, hroom, hready⟩ := hs.exists_ready hlimit hsuits
  have hrun := run_safe (fun _ => by omega) hfits hR
    (hp a ⟨hready.required, by omega, hready.outputSize, hready.gas⟩)
  show Outcome.Meets _ _ _ (Program.run (handle env) (p >>= Exec.exit) s)
  rw [Program.run_bind]
  refine Outcome.Meets.bind (hrun.mono (fun _ _ => id) ?_ fun _ => id) ?_
  · rintro status s' (hd | hexit)
    · exact .inl hd
    · exact .inr hexit.leaves
  · rintro status s' (hd | ⟨a', hR', -, hpaid, houtput⟩)
    · exact .inl hd
    · refine .inr ⟨hR'.follows, fun hne => ?_, fun _ hm => ?_⟩
      · rw [← hR'.outputOffset, ← hR'.outputSize, ← hR'.memory]
        exact houtput (by rw [hR'.outputSize]; exact hne)
      · have h1 := (hR'.gas hm).1
        have h2 := hpaid hm
        omega

end Run

/-! ## Executions -/

/-- What an execution is given, for the rules it is considered under. -/
structure Premises (i : Invocation σ) (rules : Rules) : Prop where
  limit : rules.limit = 1024
  reads : rules.readsGas
  fits : rules.fits → i.env.host.CopyFits
  static : rules.isStatic → i.ctx.msg.isStatic = true
  gas : rules.metered → 0 ≤ i.ctx.msg.gas ∧ i.ctx.msg.gas ≤ rules.ceiling

/-- The state of a loop that is running. -/
structure Running (i : Invocation σ) (rules : Rules) (s : ExecutionState σ) : Prop where
  follows : Follows rules i.newState s
  outputSize : s.outputSize = 0
  gas : rules.metered → 0 ≤ s.gasLeft

/-- The final state of an execution. -/
structure Halted (i : Invocation σ) (rules : Rules) (s : ExecutionState σ) : Prop where
  follows : Follows rules i.newState s
  output : s.outputSize ≠ 0 →
    s.status.keepsGas ∧ s.outputOffset + s.outputSize ≤ s.memory.size
  gas : s.status.keepsGas → rules.metered → 0 ≤ s.gasLeft

section Executions

variable {i : Invocation σ} {rules : Rules} {s s' : ExecutionState σ}

theorem Premises.running (hp : Premises i rules) : Running i rules i.newState := by
  refine ⟨.refl ⟨rfl, by simp [Invocation.newState, Memory.new]⟩ fun hm =>
    ⟨(hp.gas hm).2, rfl⟩, rfl, ?_⟩
  exact fun hm => (hp.gas hm).1

theorem Running.static (hp : Premises i rules) (h : Running i rules s) :
    rules.isStatic → s.msg.isStatic = true := by
  have hctx : s.toContext = i.ctx := h.follows.context
  rw [hctx]
  exact hp.static

theorem Running.startable (h : Running i rules s) : Startable rules s := by
  refine ⟨h.follows.sized, h.outputSize, fun hm => ⟨?_, h.follows.gas hm⟩⟩
  have := h.gas hm
  omega

/-- A small cost is subtracted from the gas left. -/
theorem Running.follows_setGas (h : Running i rules s) {cost : Int} (h0 : 0 ≤ cost)
    (hc : cost < 2 ^ 62) : Follows rules s (s.setGas (s.gasLeft - cost)) :=
  have hR : Tracks rules True 0 s (.of s.stack.height s) s := h.startable.tracks fun _ => rfl
  hR.follows_setGas h0 hc

theorem Running.setGas_gasLeft (h : Running i rules s) {cost : Int} (h0 : 0 ≤ cost)
    (hc : cost < 2 ^ 62) (hm : rules.metered) : toInt64 (s.gasLeft - cost) = s.gasLeft - cost :=
  have hR : Tracks rules True 0 s (.of s.stack.height s) s := h.startable.tracks fun _ => rfl
  hR.setGas_gasLeft h0 hc hm

/-- The state after a charge that was covered is again one of a running loop. -/
theorem Running.setGas (h : Running i rules s) {cost : Int} (h0 : 0 ≤ cost) (hc : cost < 2 ^ 62)
    (hgas : 0 ≤ toInt64 (s.gasLeft - cost)) : Running i rules (s.setGas (s.gasLeft - cost)) :=
  ⟨h.follows.trans (h.follows_setGas h0 hc), h.outputSize, fun _ => hgas⟩

theorem Running.continues (h : Running i rules s) {known : Prop} {change : Int}
    (hc : Continues rules known change s s') : Running i rules s' := by
  refine ⟨h.follows.trans hc.follows, hc.outputSize, fun hm => ?_⟩
  have h1 := h.gas hm
  have h2 := hc.gas hm
  omega

theorem Running.leaves (h : Running i rules s) {status : StatusCode}
    (hl : Leaves rules s status s') : Halted i rules { s' with status := status } := by
  refine ⟨(h.follows.trans hl.follows).congr rfl rfl rfl rfl rfl, hl.output, fun hkeeps hm => ?_⟩
  have h1 := h.gas hm
  have h2 := hl.gas hkeeps hm
  show 0 ≤ s'.gasLeft
  omega

/-- A running loop may be left with any status. -/
theorem Running.halted (h : Running i rules s) (status : StatusCode) :
    Halted i rules { s with status := status } :=
  ⟨h.follows.congr rfl rfl rfl rfl rfl, fun hne => absurd h.outputSize hne, fun _ => h.gas⟩

/-- A state that was derailed after some instruction was derailed in the execution. -/
theorem Running.derailed (h : Running i rules s) {env : Env σ} (hm : rules.metered)
    (hd : Derailed env s s') : Derailed env i.newState s' := by
  obtain ⟨msg, st, hmsg, hrest⟩ := hd
  exact ⟨msg, st, fun _ => hmsg (h.gas hm), hrest⟩

/-- A derailed state stays so. -/
theorem Derailed.mono {env : Env σ} {s0 : ExecutionState σ} (h : Derailed env s0 s)
    (hcalls : ∀ c ∈ s.calls, c ∈ s'.calls) : Derailed env s0 s' := by
  obtain ⟨msg, st, hmsg, hmem, hnot⟩ := h
  exact ⟨msg, st, hmsg, hcalls _ hmem, hnot⟩

/-- A running configuration meets `P`, a final state `H` and a fault `G`. -/
def Config.Meets {S : Type} (P : Nat → S → Prop) (H : S → Prop) (G : Fault → Prop) :
    Config S → Prop
  | .running pos s => P pos s
  | .halted s => H s
  | .fault f => G f

theorem Config.Meets.mono {S : Type} {P P' : Nat → S → Prop} {H H' : S → Prop} {G G' : Fault → Prop}
    {c : Config S} (h : c.Meets P H G) (hP : ∀ pos s, P pos s → P' pos s) (hH : ∀ s, H s → H' s)
    (hG : ∀ f, G f → G' f) : c.Meets P' H' G' := by
  cases c with
  | running pos s => exact hP pos s h
  | halted s => exact hH s h
  | fault f => exact hG f h

/-- The state of a configuration, if it has one, meets `P`. -/
def Config.StateMeets {S : Type} (P : S → Prop) : Config S → Prop
  | .running _ s => P s
  | .halted s => P s
  | .fault _ => True

theorem run_calls (env : Env σ) {α : Type} (p : Exec α) (s : ExecutionState σ) :
    (p.run env s).Meets (fun _ s' => ∀ c ∈ s.calls, c ∈ s'.calls)
      (fun _ s' => ∀ c ∈ s.calls, c ∈ s'.calls) fun _ => True := by
  refine Program.run_meets_given_up (D := fun s' : ExecutionState σ => ∀ c ∈ s.calls, c ∈ s'.calls)
    ?_ p fun _ => id
  intro o s1 hs1
  refine (handle_calls env o s1).mono ?_ ?_ fun _ => id
  · exact fun _ s' h c hc => h c (hs1 c hc)
  · exact fun _ s' h c hc => h c (hs1 c hc)

end Executions

end Ivmone
