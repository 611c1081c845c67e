import Ivmone.StepSafety
import Ivmone.Lib.Runs
import Ivmone.PaddedCode
import Ivmone.GasCosts

/-!
# Invariants of Baseline executions

The code iterator is always at an offset that the decoding of the code arrives at, and the state
follows from the initial one by instructions that meet their specifications. One round of the loop
keeps the invariant, so every configuration of an execution has it.
-/

set_option autoImplicit false

namespace Ivmone.Baseline

open Lib Instructions

variable {σ : Type}

/-! ## Requirements -/

/-- `check_requirements` fails, or everything the instruction needs is there. -/
theorem checkRequirements_cases (s : ExecutionState σ) (b : Byte) :
    (∃ status s', checkRequirements s b = (status, s') ∧ ¬ status.keepsGas ∧
      (s' = s ∨ (0 ≤ instr.gasCost s.rev b ∧ instr.gasCost s.rev b ≤ 32000 ∧
        s' = s.setGas (s.gasLeft - instr.gasCost s.rev b)))) ∨
    ∃ op, Opcode.ofByte b = some op ∧ instr.gasCosts s.rev op ≠ instr.undefined ∧
      checkRequirements s b = (.success, s.setGas (s.gasLeft - instr.gasCosts s.rev op)) ∧
      0 ≤ toInt64 (s.gasLeft - instr.gasCosts s.rev op) ∧ Suits True op s := by
  unfold checkRequirements instructionTable
  dsimp only
  by_cases hdef : instr.gasCost s.rev b = instr.undefined
  · rw [if_pos hdef]
    exact .inl ⟨_, s, rfl, by decide, .inl rfl⟩
  · obtain ⟨op, hop, hcost, hne⟩ := instr.exists_opcode hdef
    have hrange := instr.gasCosts_range hne
    rw [if_neg hdef, hcost, instr.traitsOf_of_ofByte hop]
    obtain ⟨h0, h17, hchange, -⟩ := traits_range op
    have hle := s.stack.height_le
    have hsame : (s.setGas (s.gasLeft - instr.gasCosts s.rev op)).stack.size = s.stack.height := rfl
    rw [hsame]
    by_cases hgas : (s.setGas (s.gasLeft - instr.gasCosts s.rev op)).gasLeft < 0
    · rw [if_pos hgas]
      exact .inl ⟨_, _, rfl, by decide, .inr ⟨hrange.1, hrange.2, rfl⟩⟩
    · rw [if_neg hgas]
      have hgas' : 0 ≤ toInt64 (s.gasLeft - instr.gasCosts s.rev op) := Int.not_lt.1 hgas
      -- the source asks about underflow only below the limit: a full stack has more items than
      -- any instruction takes
      by_cases hfull : s.stack.height = Stack.limit
      · rw [if_pos hfull]
        unfold Stack.limit at hfull
        by_cases hgrow : 0 < (instr.traits op).stackHeightChange
        · rw [if_pos (decide_eq_true hgrow)]
          exact .inl ⟨_, _, rfl, by decide, .inr ⟨hrange.1, hrange.2, rfl⟩⟩
        · rw [if_neg (by simpa using hgrow)]
          exact .inr ⟨op, hop, hne, rfl, hgas', fun _ => ⟨by omega, by omega⟩⟩
      · rw [if_neg hfull]
        unfold Stack.limit at hfull
        by_cases hunder : (s.stack.height : Int) < (instr.traits op).stackHeightRequired
        · rw [if_pos hunder]
          exact .inl ⟨_, _, rfl, by decide, .inr ⟨hrange.1, hrange.2, rfl⟩⟩
        · rw [if_neg hunder]
          exact .inr ⟨op, hop, hne, rfl, hgas', fun _ => ⟨by omega, by omega⟩⟩

/-- `check_requirements` passes if everything the instruction needs is there. -/
theorem checkRequirements_of_suits {s : ExecutionState σ} {b : Byte} {op : Opcode}
    (hop : Opcode.ofByte b = some op) (hne : instr.gasCosts s.rev op ≠ instr.undefined)
    (hgas : 0 ≤ toInt64 (s.gasLeft - instr.gasCosts s.rev op)) (hsuits : Suits True op s) :
    checkRequirements s b = (.success, s.setGas (s.gasLeft - instr.gasCosts s.rev op)) := by
  obtain ⟨hrequired, hroom⟩ := hsuits trivial
  have hleft : ¬ (s.setGas (s.gasLeft - instr.gasCosts s.rev op)).gasLeft < 0 := Int.not_lt.2 hgas
  have hsame : (s.setGas (s.gasLeft - instr.gasCosts s.rev op)).stack.size = s.stack.height := rfl
  unfold checkRequirements instructionTable
  dsimp only
  rw [instr.gasCost_of_ofByte hop, if_neg hne, if_neg hleft, hsame, instr.traitsOf_of_ofByte hop]
  by_cases hfull : s.stack.height = Stack.limit
  · have hgrow : ¬ 0 < (instr.traits op).stackHeightChange := by
      unfold Stack.limit at hfull
      omega
    rw [if_pos hfull, if_neg (by simpa using hgrow)]
  · rw [if_neg hfull, if_neg (Int.not_lt.2 hrequired)]

theorem checkRequirements_of_undefined {s : ExecutionState σ} {b : Byte}
    (h : instr.gasCost s.rev b = instr.undefined) :
    checkRequirements s b = (.undefinedInstruction, s) := if_pos h

/-! ## Instructions that need the code position -/

/-- `d` is a valid jump destination: an instruction of the code that is a JUMPDEST. -/
def JumpTarget (code : List Byte) (d : Nat) : Prop :=
  IsStart code d ∧ code[d]? = some Opcode.jumpdest.toByte

/-- `jump_impl` accepts the valid jump destinations. -/
theorem jumpImpl_eq (uninit : Nat → Byte) {code : List Byte} (hlt : code.length < 2 ^ 63)
    (dst : UInt256) :
    (JumpTarget code dst.toNat ∧ jumpImpl (analyze uninit code) dst = pure dst.toNat) ∨
      (¬ JumpTarget code dst.toNat ∧
        jumpImpl (analyze uninit code) dst = Exec.exit .badJumpDestination) := by
  unfold jumpImpl
  rw [length_jumpdestMap]
  by_cases hin : code.length ≤ dst.toNat
  · refine .inr ⟨fun h => ?_, if_pos (.inl hin)⟩
    exact absurd h.1.2 (Nat.not_lt.2 hin)
  · have hsize : dst.toSize = dst.toNat := UInt256.toSize_of_lt (by omega)
    rw [hsize]
    have hmap := jumpdestMap_iff uninit code dst.toNat
    by_cases hmark : (analyze uninit code).jumpdestMap.getD dst.toNat false = true
    · refine .inl ⟨hmap.1 hmark, if_neg ?_⟩
      rintro (h | h)
      · exact hin h
      · rw [hmark] at h
        cases h
    · refine .inr ⟨fun h => hmark (hmap.2 h), if_pos (.inr ?_)⟩
      exact Bool.eq_false_iff.2 hmark

section Position

variable {rules : Rules} {a : Abs} {uninit : Nat → Byte} {code : List Byte} {pos : Nat}

theorem sat_jumpImpl (hlt : code.length < 2 ^ 63) (hout : a.outputSize = 0) (dst : UInt256)
    {Q : Nat → Abs → Prop} (hQ : ∀ d, JumpTarget code d → Q d a) :
    (jumpImpl (analyze uninit code) dst).Sat (Safe rules) Q a := by
  rcases jumpImpl_eq uninit hlt dst with ⟨htarget, heq⟩ | ⟨-, heq⟩
  · rw [heq]
    exact hQ _ htarget
  · rw [heq]
    exact ⟨by decide, hout⟩

theorem sat_jump (hlt : code.length < 2 ^ 63) (hready : a.Ready rules 1 (-1)) :
    (jump (analyze uninit code) pos).Sat (Safe rules)
      (fun d a' => JumpTarget code d ∧ a.Leads rules (-1) a') a := by
  obtain ⟨hreq, hroom, hout, hgas⟩ := hready
  simp only [jump, Program.sat_bind, sat_pop]
  refine ⟨by omega, fun dst => ?_⟩
  refine sat_jumpImpl hlt (by exact hout) dst fun d hd => ⟨hd, ?_⟩
  exact ⟨by simp only; omega, le_rfl, hout, Paid.refl _⟩

theorem sat_jumpi (hlt : code.length < 2 ^ 63) (hready : a.Ready rules 2 (-2)) :
    (jumpi (analyze uninit code) pos).Sat (Safe rules)
      (fun d a' => (JumpTarget code d ∨ d = pos + 1) ∧ a.Leads rules (-2) a') a := by
  obtain ⟨hreq, hroom, hout, hgas⟩ := hready
  simp only [jumpi, Program.sat_bind, Program.sat_ite, Program.sat_pure, sat_pop]
  refine ⟨by omega, fun dst => ⟨by omega, fun cond => ⟨fun _ => ?_, fun _ => ⟨.inr trivial, ?_⟩⟩⟩⟩
  · refine sat_jumpImpl hlt (by exact hout) dst fun d hd => ⟨.inl hd, ?_⟩
    exact ⟨by simp only; omega, le_rfl, hout, Paid.refl _⟩
  · exact ⟨by simp only; omega, le_rfl, hout, Paid.refl _⟩

theorem sat_pc (analysis : CodeAnalysis) (hready : a.Ready rules 0 1) :
    (pc analysis pos).Sat (Safe rules) (fun d a' => d = pos + 1 ∧ a.Leads rules 1 a') a := by
  obtain ⟨hreq, hroom, hout, hgas⟩ := hready
  simp only [pc, Program.sat_bind, Program.sat_pure, sat_push]
  exact ⟨by omega, trivial, by simp only; omega, le_rfl, hout, Paid.refl _⟩

/-- The whole data of a PUSH is in the buffer, as the loop of the analysis has gone past it. -/
theorem push_data_in_code {n : Fin 32} {b : Byte} (harrives : Arrives code 0 pos)
    (hb : code[pos]? = some b) (hop : Opcode.ofByte b = some (.push n)) :
    pos + 1 + (n.val + 1) < (analyze uninit code).paddedCode.length := by
  have hle := le_codeEnd (harrives.next hb)
  rw [length_paddedCode, ← pushSize_eq hop]
  omega

/-- The run of a PUSH. -/
theorem run_push (env : Env σ) (s : ExecutionState σ) {n : Fin 32} {b : Byte}
    (harrives : Arrives code 0 pos) (hb : code[pos]? = some b)
    (hop : Opcode.ofByte b = some (.push n)) :
    (push n (analyze uninit code) pos).run env s =
      (handle env (.push (beLoad
        (((analyze uninit code).paddedCode.drop (pos + 1)).take (n.val + 1)))) s).bind
        fun _ s' => .ok (pos + (n.val + 1 + 1)) s' := by
  have hlt : pos + 1 + (n.val + 1) < (analyze uninit code).paddedCode.length :=
    push_data_in_code harrives hb hop
  unfold push
  rw [if_neg (by omega)]
  rfl

theorem sat_pushData {n : Fin 32} {b : Byte} (harrives : Arrives code 0 pos)
    (hb : code[pos]? = some b) (hop : Opcode.ofByte b = some (.push n))
    (hready : a.Ready rules 0 1) :
    (push n (analyze uninit code) pos).Sat (Safe rules)
      (fun d a' => d = pos + (n.val + 1 + 1) ∧ a.Leads rules 1 a') a := by
  obtain ⟨hreq, hroom, hout, hgas⟩ := hready
  have hlt : pos + 1 + (n.val + 1) < (analyze uninit code).paddedCode.length :=
    push_data_in_code harrives hb hop
  simp only [push, Program.sat_bind, Program.sat_ite, Program.sat_pure, sat_fault, sat_push]
  refine ⟨fun h => absurd h (by omega), fun _ => ⟨by omega, trivial, ?_⟩⟩
  exact ⟨by simp only; omega, le_rfl, hout, Paid.refl _⟩

end Position

/-! ## One instruction -/

/-- The offsets at which execution can continue after the instruction at `pos`. -/
def Next (code : List Byte) (pos : Nat) (op : Opcode) (d : Nat) : Prop :=
  (∃ b, code[pos]? = some b ∧ d = pos + 1 + pushSize b) ∨
    ((op = .jump ∨ op = .jumpi) ∧ JumpTarget code d)

theorem Next.arrives {code : List Byte} {pos d : Nat} {op : Opcode} (h : Next code pos op d)
    (hpos : Arrives code 0 pos) : Arrives code 0 d := by
  rcases h with ⟨b, hb, rfl⟩ | ⟨-, htarget⟩
  · exact hpos.next hb
  · exact htarget.1.1

/-- `op` is the instruction at `pos`, or the STOP after the code. -/
def Fetched (code : List Byte) (pos : Nat) (op : Opcode) : Prop :=
  Opcode.ofByte ((code[pos]?).getD Opcode.stop.toByte) = some op

theorem fetched_iff {code : List Byte} {pos : Nat} {b : Byte} {op : Opcode}
    (hb : code[pos]? = some b) : Fetched code pos op ↔ Opcode.ofByte b = some op := by
  rw [Fetched, hb, Option.getD_some]

theorem Fetched.of_ne_stop {code : List Byte} {pos : Nat} {op : Opcode} (h : Fetched code pos op)
    (hop : op ≠ .stop) : ∃ b, code[pos]? = some b ∧ Opcode.ofByte b = some op := by
  cases hb : code[pos]? with
  | none =>
      rw [Fetched, hb, Option.getD_none, ofByte_toByte] at h
      injection h with h
      exact absurd h.symm hop
  | some b => exact ⟨b, rfl, (fetched_iff hb).1 h⟩

section Invoke

variable {env : Env σ} {rules : Rules} {known : Prop} {s : ExecutionState σ} {uninit : Nat → Byte}
  {code : List Byte} {pos : Nat} {op : Opcode}

theorem sat_codePosition (hlt : code.length < 2 ^ 63) (harrives : Arrives code 0 pos)
    (hfetched : Fetched code pos op) {f : CodeAnalysis → Nat → Exec Nat}
    (hop : op2fn op = .codePosition f) {a : Abs}
    (hready : a.Ready rules (instr.traits op).stackHeightRequired
      (instr.traits op).stackHeightChange) :
    (f (analyze uninit code) pos).Sat (Safe rules)
      (fun d a' => Next code pos op d ∧ a.Leads rules
        (instr.traits op).stackHeightChange a') a := by
  have hb : op ≠ .stop → ∃ b, code[pos]? = some b ∧ Opcode.ofByte b = some op :=
    hfetched.of_ne_stop
  cases op with
  | jump =>
      -- a jump lands where it says, whatever the code holds here
      cases hop
      exact (sat_jump hlt hready).mono (safe_monotone rules)
        fun d a' h => ⟨.inr ⟨.inl rfl, h.1⟩, h.2⟩
  | jumpi =>
      cases hop
      obtain ⟨b, hb1, hb2⟩ := hb (by decide)
      have hsize : pushSize b = 0 := pushSize_of_ne_push hb2 fun n h => by cases h
      refine (sat_jumpi hlt hready).mono (safe_monotone rules) fun d a' h => ⟨?_, h.2⟩
      rcases h.1 with h1 | h1
      · exact .inr ⟨.inr rfl, h1⟩
      · exact .inl ⟨b, hb1, by omega⟩
  | pc =>
      cases hop
      obtain ⟨b, hb1, hb2⟩ := hb (by decide)
      have hsize : pushSize b = 0 := pushSize_of_ne_push hb2 fun n h => by cases h
      exact (sat_pc _ hready).mono (safe_monotone rules)
        fun d a' h => ⟨.inl ⟨b, hb1, by omega⟩, h.2⟩
  | push n =>
      cases hop
      obtain ⟨b, hb1, hb2⟩ := hb (fun h => by cases h)
      have hsize := pushSize_eq hb2
      exact (sat_pushData harrives hb1 hb2 hready).mono (safe_monotone rules)
        fun d a' h => ⟨.inl ⟨b, hb1, by omega⟩, h.2⟩
  | _ => cases hop

/-- The logic's view of an instruction that does not end the execution. -/
theorem sat_invoke {ctx : Context} (hlt : code.length < 2 ^ 63)
    (hstatic : rules.isStatic → ctx.msg.isStatic = true)
    (hreads : op.readsGas = true → rules.readsGas) (harrives : Arrives code 0 pos)
    (hfetched : Fetched code pos op) (hgoes : ∀ f, op2fn op ≠ .terminating f) {a : Abs}
    (hready : a.Ready rules (instr.traits op).stackHeightRequired
      (instr.traits op).stackHeightChange) :
    (invoke (op2fn op) (analyze uninit code) ctx pos).Sat (Safe rules)
      (fun d a' => Next code pos op d ∧ a.Leads rules
        (instr.traits op).stackHeightChange a') a := by
  cases hop : op2fn op with
  | basic f =>
      obtain ⟨b, hb1, hb2⟩ := hfetched.of_ne_stop fun h => by rw [h] at hop; cases hop
      have hsize : pushSize b = 0 := by
        refine pushSize_of_ne_push hb2 fun n h => ?_
        rw [h] at hop
        cases hop
      simp only [invoke, Program.sat_bind, Program.sat_pure]
      refine (spec_basic hop hstatic hreads a hready).mono (safe_monotone rules) ?_
      intro _ a' hleads
      exact ⟨.inl ⟨b, hb1, by omega⟩, hleads⟩
  | terminating f => exact absurd hop (hgoes f)
  | codePosition f => exact sat_codePosition hlt harrives hfetched hop hready

/-- The instruction at an offset of the decoding, once its requirements have been checked. -/
theorem invoke_steps (hlimit : rules.limit = 1024) (hreads : rules.readsGas)
    (hfits : rules.fits → env.host.CopyFits) (hstatic : rules.isStatic → s.msg.isStatic = true)
    (hlt : code.length < 2 ^ 63) (hs : Startable rules s) (hsuits : Suits known op s)
    (harrives : Arrives code 0 pos) (hfetched : Fetched code pos op) :
    Steps env rules known (instr.traits op).stackHeightChange (Next code pos op) s
      ((invoke (op2fn op) (analyze uninit code) s.toContext pos).run env s) := by
  by_cases hgoes : ∃ f, op2fn op = .terminating f
  · obtain ⟨f, hop⟩ := hgoes
    rw [hop]
    exact run_terminating hlimit hfits hs hsuits (spec_terminating hop hstatic)
  · apply run_steps hlimit hfits hs hsuits
    intro a _ hready
    exact sat_invoke hlt hstatic (fun _ => hreads) harrives hfetched
      (fun f hf => hgoes ⟨f, hf⟩) hready

end Invoke

/-! ## One round of the loop -/

/-- The loop starts in the initial state: the padded code starts with the code. -/
theorem start_eq (i : Invocation σ) : start i = .running 0 i.newState := by
  have hcode : (analysisOf i).paddedCode.take i.newState.code.size = i.ctx.code.bytes :=
    take_paddedCode i.uninitCode i.ctx.code.bytes
  unfold start
  simp only [hcode]
  rfl

section Step

variable {i : Invocation σ} {rules : Rules} {pos : Nat} {s : ExecutionState σ}

/-- A round of the loop ends with a failed requirement, or it executes the instruction. -/
theorem step_cases (harrives : Arrives i.ctx.code.bytes 0 pos) (hs : Running i rules s) :
    (∃ s', step i.env (analysisOf i) (.running pos s) = some (.halted s') ∧
      ¬ s'.status.keepsGas ∧ s'.outputSize = 0 ∧ Follows rules s s') ∨
    ∃ op, Fetched i.ctx.code.bytes pos op ∧ instr.gasCosts s.rev op ≠ instr.undefined ∧
      0 ≤ toInt64 (s.gasLeft - instr.gasCosts s.rev op) ∧ Suits True op s ∧
      step i.env (analysisOf i) (.running pos s) =
        some (.ofResult ((invoke (op2fn op) (analysisOf i) s.toContext pos).run i.env
          (s.setGas (s.gasLeft - instr.gasCosts s.rev op)))) := by
  have hfetch : (analysisOf i).paddedCode[pos]? = _ :=
    getElem?_paddedCode i.uninitCode i.ctx.code.bytes harrives
  simp only [step, hfetch]
  -- past the code the padding is read as STOP
  generalize hb : (i.ctx.code.bytes[pos]?).getD Opcode.stop.toByte = b
  rcases checkRequirements_cases s b with ⟨status, s', hcheck, hstatus, hs'⟩ |
    ⟨op, hop, hne, hcheck, hgas, hsuits⟩
  · left
    rw [hcheck]
    -- a failed check leaves nothing but the gas it may have taken
    refine ⟨{ s' with status := status }, ?_, hstatus, ?_, ?_⟩
    · cases status with
      | success => exact absurd (.inl rfl) hstatus
      | _ => rfl
    · rcases hs' with rfl | ⟨-, -, rfl⟩
      · exact hs.outputSize
      · exact hs.outputSize
    · rcases hs' with rfl | ⟨h0, h1, rfl⟩
      · exact (Follows.refl hs.follows.sized hs.follows.gas).congr rfl rfl rfl rfl rfl
      · exact (hs.follows_setGas h0 (by omega)).congr rfl rfl rfl rfl rfl
  · right
    refine ⟨op, by rw [Fetched, hb]; exact hop, hne, hgas, hsuits, ?_⟩
    simp only [hcheck, dispatch, hop]
    rfl

/-- The outcome of an instruction that is executed. -/
theorem steps_of_step (hp : Premises i rules) (harrives : Arrives i.ctx.code.bytes 0 pos)
    (hs : Running i rules s) {op : Opcode} (hfetched : Fetched i.ctx.code.bytes pos op)
    (hne : instr.gasCosts s.rev op ≠ instr.undefined)
    (hgas : 0 ≤ toInt64 (s.gasLeft - instr.gasCosts s.rev op)) (hsuits : Suits True op s) :
    Steps i.env rules True (instr.traits op).stackHeightChange (Next i.ctx.code.bytes pos op)
      (s.setGas (s.gasLeft - instr.gasCosts s.rev op))
      ((invoke (op2fn op) (analysisOf i) s.toContext pos).run i.env
        (s.setGas (s.gasLeft - instr.gasCosts s.rev op))) := by
  obtain ⟨h0, h1⟩ := instr.gasCosts_range hne
  have hs1 := hs.setGas h0 (by omega) hgas
  exact invoke_steps hp.limit hp.reads hp.fits (hs1.static hp) i.ctx.code.size_lt hs1.startable
    hsuits harrives hfetched

/-- The configurations of an execution. -/
def Valid (i : Invocation σ) (rules : Rules) : Config (ExecutionState σ) → Prop
  | .running pos s =>
      (rules.metered ∧ Derailed i.env i.newState s) ∨
        (Arrives i.ctx.code.bytes 0 pos ∧ Running i rules s)
  | .halted s => (rules.metered ∧ Derailed i.env i.newState s) ∨ Halted i rules s
  | .fault f => Excused rules True f

theorem Valid.ofResult_steps (hs : Running i rules s) (harrives : Arrives i.ctx.code.bytes 0 pos)
    {op : Opcode} {r : Result σ Nat}
    (hr : Steps i.env rules True (instr.traits op).stackHeightChange (Next i.ctx.code.bytes pos op)
      s r) : Valid i rules (.ofResult r) := by
  cases r with
  | ok pos' s' =>
      rcases hr with ⟨hm, hd⟩ | ⟨hnext, hcont⟩
      · exact .inl ⟨hm, hs.derailed hm hd⟩
      · exact .inr ⟨hnext.arrives harrives, hs.continues hcont⟩
  | exit status s' =>
      rcases hr with ⟨hm, hd⟩ | hleaves
      · exact .inl ⟨hm, (hs.derailed hm hd).mono fun _ => id⟩
      · exact .inr (hs.leaves hleaves)
  | fault f => exact hr

/-- What a round of the loop can do: it faults, a requirement fails, or an instruction is
executed. -/
theorem step_inv {env : Env σ} {analysis : CodeAnalysis} {c : Config (ExecutionState σ)}
    (h : step env analysis (.running pos s) = some c) :
    (∃ f, c = .fault f ∧ (f = .codePosition ∨ f = .unreachable)) ∨
    (∃ b status s', analysis.paddedCode[pos]? = some b ∧ ¬ status.keepsGas ∧
      (s' = s ∨ (0 ≤ instr.gasCost s.rev b ∧ instr.gasCost s.rev b ≤ 32000 ∧
        s' = s.setGas (s.gasLeft - instr.gasCost s.rev b))) ∧
      c = .halted { s' with status := status }) ∨
    ∃ b op, analysis.paddedCode[pos]? = some b ∧ Opcode.ofByte b = some op ∧
      instr.gasCosts s.rev op ≠ instr.undefined ∧
      0 ≤ toInt64 (s.gasLeft - instr.gasCosts s.rev op) ∧ Suits True op s ∧
      c = .ofResult ((invoke (op2fn op) analysis s.toContext pos).run env
        (s.setGas (s.gasLeft - instr.gasCosts s.rev op))) := by
  simp only [step, Option.some.injEq] at h
  cases hb : analysis.paddedCode[pos]? with
  | none =>
      rw [hb] at h
      exact .inl ⟨.codePosition, h.symm, .inl rfl⟩
  | some b =>
      rw [hb] at h
      rcases checkRequirements_cases s b with ⟨status, s', hcheck, hstatus, hs'⟩ |
        ⟨op, hop, hne, hcheck, hgas, hsuits⟩
      · refine .inr (.inl ⟨b, status, s', rfl, hstatus, hs', ?_⟩)
        rw [← h]
        dsimp only
        rw [hcheck]
        cases status with
        | success => exact absurd (.inl rfl) hstatus
        | _ => rfl
      · refine .inr (.inr ⟨b, op, rfl, hop, hne, hgas, hsuits, ?_⟩)
        rw [← h]
        simp only [hcheck, dispatch, hop]
        rfl

/-- A round of the loop never forgets a call. -/
theorem step_calls {env : Env σ} {analysis : CodeAnalysis} {c : Config (ExecutionState σ)}
    (h : step env analysis (.running pos s) = some c) :
    c.StateMeets fun s' => ∀ x ∈ s.calls, x ∈ s'.calls := by
  rcases step_inv h with ⟨f, rfl, -⟩ | ⟨b, status, s', -, -, rfl | ⟨-, -, rfl⟩, rfl⟩ |
    ⟨b, op, -, -, -, -, -, rfl⟩
  · trivial
  · exact fun _ => id
  · exact fun _ => id
  · have hrun := run_calls env (invoke (op2fn op) analysis s.toContext pos)
      (s.setGas (s.gasLeft - instr.gasCosts s.rev op))
    generalize Exec.run env (invoke (op2fn op) analysis s.toContext pos) _ = r at hrun
    cases r with
    | ok pos' s1 => exact hrun
    | exit status s1 => exact hrun
    | fault f => trivial

/-- One round of the loop keeps the invariant. -/
theorem Valid.step (hp : Premises i rules) {c c' : Config (ExecutionState σ)} (hc : Valid i rules c)
    (h : step i.env (analysisOf i) c = some c') : Valid i rules c' := by
  cases c with
  | running pos s =>
      rcases hc with ⟨hm, hd⟩ | ⟨harrives, hs⟩
      · have hcalls := step_calls h
        cases c' with
        | running pos' s' => exact .inl ⟨hm, hd.mono hcalls⟩
        | halted s' => exact .inl ⟨hm, hd.mono hcalls⟩
        | fault f => exact .inr (.inr hm)
      · rcases step_cases harrives hs with ⟨s', hstep, hstatus, hout, hfollows⟩ |
          ⟨op, hfetched, hne, hgas, hsuits, hstep⟩
        · rw [hstep] at h
          cases h
          refine .inr ⟨hs.follows.trans hfollows, fun hne => absurd hout hne, ?_⟩
          exact fun hkeeps => absurd hkeeps hstatus
        · rw [hstep] at h
          cases h
          obtain ⟨h0, h1⟩ := instr.gasCosts_range hne
          exact .ofResult_steps (hs.setGas h0 (by omega) hgas) harrives
            (steps_of_step hp harrives hs hfetched hne hgas hsuits)
  | halted s => cases h
  | fault f => cases h

/-- Every configuration of an execution has the invariant. -/
theorem valid_of_reaches (hp : Premises i rules) {c : Config (ExecutionState σ)}
    (h : StateTransition.Reaches (Baseline.step i.env (analysisOf i)) (start i) c) :
    Valid i rules c := by
  refine invariant_of_reaches (fun _ _ hc hstep => hc.step hp hstep) h ?_
  rw [start_eq]
  exact .inr ⟨.refl, hp.running⟩

end Step

end Ivmone.Baseline
