import Ivmone.Lockstep
import Ivmone.PushData
import Ivmone.RejectedBlocks

/-!
# One instruction in both interpreters

Baseline executes an instruction after it has charged its base cost. Advanced has charged the whole
block before, so it has less gas left: the base cost of the rest of the block. `Matched` relates the
outcomes of the two. They go on together, or end with the same result; or Advanced is out of gas,
and Baseline has less gas left than the rest of the block costs.
-/

set_option autoImplicit false

namespace Ivmone

open Lib Instructions Advanced

variable {σ : Type}

/-- The final states of two executions with the same result: both have failed, or they agree on what
is returned and on the calls. -/
inductive SameResult (s t : ExecutionState σ) : Prop
  | failed (hs : ¬ s.status.keepsGas) (ht : ¬ t.status.keepsGas) (hout : t.outputSize = 0)
  | kept (hstatus : s.status = t.status) (hgas : s.gasLeft = t.gasLeft) (hcalls : s.calls = t.calls)
      (hsize : s.outputSize = t.outputSize)
      (hoffset : s.outputSize ≠ 0 → s.outputOffset = t.outputOffset)
      (hmemory : s.memory.bytes = t.memory.bytes)

/-- The offset of a JUMPDEST and the index of the BEGINBLOCK of its block. -/
def SameTarget (rev : Revision) (code : List Byte) (pos ip : Nat) : Prop :=
  ∃ closed b post,
    blocksOf (decode code) = closed ++ (instructionAt code pos
      Opcode.jumpdest.toByte :: b) :: post ∧ ip = (tableOf rev 0 closed).length

/-- The outcomes of the instruction `op` in Baseline and in Advanced. The next instruction is at the
offset `pos` and at the index `ip`, and the rest of the block costs `δ`. -/
inductive Matched (rev : Revision) (code : List Byte) (op : Opcode) (δ : Int) (pos ip : Nat) :
    Result σ Nat → Result σ Nat → Prop
  | next {s t : ExecutionState σ} (h : Agree δ [] s t) :
      Matched rev code op δ pos ip (.ok pos s) (.ok ip t)
  /-- The values of a PUSH at the end of the code may differ, as some of its data is missing. -/
  | truncated {s t : ExecutionState σ} (hop : ∃ n, op = .push n) (hend : code.length ≤ pos)
      (hgas : s.gasLeft = t.gasLeft + δ) (hcalls : s.calls = t.calls)
      (hmemory : s.memory.bytes = t.memory.bytes) (hout : t.outputSize = 0) :
      Matched rev code op δ pos ip (.ok pos s) (.ok ip t)
  | jumped {pos' ip' : Nat} {s t : ExecutionState σ} (hop : op = .jump ∨ op = .jumpi)
      (h : Agree δ [] s t) (htarget : SameTarget rev code pos' ip') :
      Matched rev code op δ pos ip (.ok pos' s) (.ok ip' t)
  | ended {status : StatusCode} {s t : ExecutionState σ}
      (h : SameResult { s with status := status } { t with status := status }) :
      Matched rev code op δ pos ip (.exit status s) (.exit status t)
  | fault (f : Fault) : Matched rev code op δ pos ip (.fault f) (.fault f)
  | bail {r : Result σ Nat} {status : StatusCode} {t : ExecutionState σ}
      (hr : r.Meets (fun pos' s => pos' = pos ∧ s.gasLeft < δ) (fun status _ => ¬ status.keepsGas)
        fun _ => True)
      (ht : ¬ status.keepsGas) (hout : t.outputSize = 0) :
      Matched rev code op δ pos ip r (.exit status t)

/-- The rules under which the gas is counted but not looked at. -/
def Rules.blind (rules : Rules) : Rules := { rules with readsGas := False }

/-- The rules under which the gas is not counted. -/
def Rules.uncounted (rules : Rules) : Rules := { rules with metered := False, readsGas := True }

/-- Both interpreters are about to execute the same instruction, whose base cost has been
charged. -/
structure Entered (env env' : Env σ) (rules : Rules) (op : Opcode) (δ : Int)
    (s t : ExecutionState σ) : Prop where
  same : env.Same env'
  calls : env.host.CallBounded
  metered : rules.metered
  limit : rules.limit = 1024
  fits : rules.fits → env.host.CopyFits
  static : rules.isStatic → s.msg.isStatic = true
  startable : Startable rules s
  solvent : 0 ≤ s.gasLeft
  suits : Suits True op s
  agree : Agree δ [] s t
  nonneg : 0 ≤ δ

section Lockstep

variable {env env' : Env σ} {rules : Rules} {op : Opcode} {δ : Int} {s t : ExecutionState σ}
  {rev : Revision} {code : List Byte} {pos ip : Nat} {α : Type}

/-- A part of an instruction that does not look at the gas. -/
theorem Entered.lockstep (h : Entered env env' rules op δ s t) {p : Exec α} {Q : α → Abs → Prop}
    (hp : ∀ a : Abs, a.height ≤ rules.limit →
      a.Ready rules.blind (instr.traits op).stackHeightRequired
        (instr.traits op).stackHeightChange →
      p.Sat (Safe rules.blind) Q a) :
    InLockstep rules.blind δ [] s Q (p.run env s) (p.run env' t) := by
  have hstart : Startable rules.blind s :=
    ⟨h.startable.sized, h.startable.outputSize, h.startable.gas⟩
  obtain ⟨a, hR, -, -, hroom, hready⟩ := hstart.exists_ready h.limit h.suits
  have hregime : Regime env rules.blind s δ :=
    .inr ⟨h.nonneg, h.metered, id, h.calls, h.solvent⟩
  have hlimit : rules.blind.limit + ([] : List UInt256).length ≤ 1024 := le_of_eq h.limit
  exact run_inLockstep hlimit h.same (by exact h.fits) hregime hR h.agree (hp a hroom hready)

/-- An instruction that looks at the gas, in states with the same gas left. -/
theorem Entered.lockstep_uncounted (h : Entered env env' rules op δ s t) {t' : ExecutionState σ}
    (hagree : Agree 0 [] s t') {p : Exec α} {Q : α → Abs → Prop}
    (hp : ∀ a : Abs,
      a.Ready rules.uncounted (instr.traits op).stackHeightRequired
        (instr.traits op).stackHeightChange →
      p.Sat (Safe rules.uncounted) Q a) :
    InLockstep rules.uncounted 0 [] s Q (p.run env s) (p.run env' t') := by
  have hstart : Startable rules.uncounted s :=
    ⟨h.startable.sized, h.startable.outputSize, False.elim⟩
  obtain ⟨a, hR, -, -, -, hready⟩ := hstart.exists_ready h.limit h.suits
  have hregime : Regime env rules.uncounted s 0 := .inl ⟨rfl, id⟩
  have hlimit : rules.uncounted.limit + ([] : List UInt256).length ≤ 1024 := le_of_eq h.limit
  exact run_inLockstep hlimit h.same (by exact h.fits) hregime hR hagree (hp a hready)

/-- Both interpreters fail with the same status. -/
theorem Matched.failed {status : StatusCode} (h : ¬ status.keepsGas) (hout : t.outputSize = 0) :
    Matched rev code op δ pos ip (.exit status s) (.exit status t) := .ended (.failed h h hout)

/-- Two runs in lockstep that are continued. -/
theorem Matched.bind {s0 : ExecutionState σ} {Q : α → Abs → Prop} {r r' : Result σ α}
    {k k' : α → ExecutionState σ → Result σ Nat} (h : InLockstep rules δ [] s0 Q r r')
    (hk : ∀ x a s t, Tracks rules True 0 s0 a s → Agree δ [] s t → Q x a →
      Matched rev code op δ pos ip (k x s) (k' x t))
    (hbail : ∀ x s, δ ≠ 0 → s.gasLeft < δ →
      (k x s).Meets (fun pos' s' => pos' = pos ∧ s'.gasLeft < δ) (fun status _ => ¬ status.keepsGas)
        fun _ => True) :
    Matched rev code op δ pos ip (r.bind k) (r'.bind k') := by
  cases h with
  | ok hst =>
      obtain ⟨a, ⟨hR, hagree⟩, hQ⟩ := hst
      exact hk _ a _ _ hR hagree hQ
  | exit hst =>
      obtain ⟨hexit, hout, -⟩ := hst
      exact .failed hexit.status hout
  | fault f => exact .fault f
  | bail hr ht =>
      -- the second run is out of gas already; the first may go on, but not for the whole block
      obtain ⟨rfl, hout⟩ := ht
      refine .bail ?_ (by decide) hout
      cases r with
      | ok x s =>
          obtain ⟨a, ⟨-, hne, hgas⟩, -⟩ := hr
          exact hbail x s hne hgas
      | exit status s => exact hr.status
      | fault f => trivial

/-- A basic instruction that does not look at the gas. -/
theorem matched_plain (h : Entered env env' rules op δ s t) {p : Exec Unit}
    (hp : Spec rules.blind (instr.traits op).stackHeightRequired
      (instr.traits op).stackHeightChange p) :
    Matched rev code op δ (pos + 1) (ip + 1) (Exec.run env (do p; pure (pos + 1)) s)
      (Exec.run env' (next ip p) t) := by
  show Matched rev code op δ (pos + 1) (ip + 1) (Program.run _ (p >>= fun _ => pure (pos + 1)) s)
    (Program.run _ (p >>= fun _ => pure (ip + 1)) t)
  rw [Program.run_bind, Program.run_bind]
  have hrun : InLockstep rules.blind δ [] s (fun _ _ => True) (p.run env s) (p.run env' t) := by
    apply h.lockstep
    intro a _ hready
    exact (hp a hready).mono (safe_monotone _) fun _ _ _ => trivial
  apply Matched.bind hrun
  · intro x a s' t' _ hagree _
    exact .next hagree
  · intro x s' _ hgas
    exact ⟨rfl, hgas⟩

/-- A terminating instruction that both interpreters share. It is the last one of its block. -/
theorem matched_terminating (h : Entered env env' rules op 0 s t) {p : Exec StatusCode}
    (hp : TerminatingSpec rules.blind (instr.traits op).stackHeightRequired p) :
    Matched rev code op 0 pos ip (Exec.run env (do let status ← p; Exec.exit status) s)
      (Exec.run env' (exitWith p) t) := by
  show Matched rev code op 0 pos ip (Program.run _ (p >>= Exec.exit) s)
    (Program.run _ (p >>= Exec.exit) t)
  rw [Program.run_bind, Program.run_bind]
  have hrun : InLockstep rules.blind 0 [] s (fun status a => a.outputSize ≠ 0 → status.keepsGas)
      (p.run env s) (p.run env' t) := by
    apply h.lockstep
    intro a hroom hready
    have hroom' : (a.height : Int) + 0 ≤ rules.limit := by omega
    apply (hp a ⟨hready.required, hroom', hready.outputSize, hready.gas⟩).mono (safe_monotone _)
    rintro status a' ⟨-, -, houtput⟩ hne
    exact (houtput hne).1
  apply Matched.bind hrun
  · intro status a s' t' hR hagree houtput
    apply Matched.ended
    by_cases hkeeps : status.keepsGas
    · exact .kept rfl (hagree.gas.trans (Int.add_zero _)) hagree.calls hagree.outputSize
        (fun _ => hagree.outputOffset) hagree.memory
    · refine .failed hkeeps hkeeps ?_
      -- only a status that keeps the gas leaves an output
      by_contra hne
      have hout : a.outputSize ≠ 0 := by
        rw [hR.outputSize, hagree.outputSize]
        exact hne
      exact hkeeps (houtput hout)
  · intro status s' hne
    exact absurd rfl hne

end Lockstep

/-! ## Pushes -/

section Push

variable {env env' : Env σ} {rules : Rules} {op : Opcode} {δ : Int} {s t : ExecutionState σ}
  {rev : Revision} {code : List Byte} {pos ip : Nat}

/-- Both interpreters push a word. The words may differ at the end of the code. -/
theorem matched_push (h : Agree δ [] s t) (hroom : s.stack.height < 1024) (hout : t.outputSize = 0)
    {x y : UInt256} (hxy : x = y ∨ ((∃ n, op = .push n) ∧ code.length ≤ pos)) :
    Matched rev code op δ pos ip (Exec.run env (do Exec.push x; pure pos) s)
      (Exec.run env' (do Exec.push y; pure ip) t) := by
  have hheight := h.height
  rw [List.length_nil, Nat.add_zero] at hheight
  obtain ⟨stack, hpush, hitems⟩ := Stack.push?_of_lt (s := s.stack) hroom x
  obtain ⟨stack', hpush', hitems'⟩ := Stack.push?_of_lt (s := t.stack) (hheight ▸ hroom) y
  have hrun : Exec.run env (do Exec.push x; pure pos) s = .ok pos { s with stack := stack } := by
    show ((handle env (.push x) s).bind fun _ s' => .ok pos s') = _
    simp only [handle, hpush]
    rfl
  have hrun' : Exec.run env' (do Exec.push y; pure ip) t = .ok ip { t with stack := stack' } := by
    show ((handle env' (.push y) t).bind fun _ t' => .ok ip t') = _
    simp only [handle, hpush']
    rfl
  rw [hrun, hrun']
  rcases hxy with rfl | ⟨hop, hend⟩
  · apply Matched.next
    apply h.setStack
    rw [hitems, hitems', h.stack, List.cons_append]
  · -- the data is cut off by the end of the code: both are about to stop
    exact .truncated hop hend h.gas h.calls h.memory hout

theorem Entered.room (h : Entered env env' rules op δ s t)
    (hchange : (instr.traits op).stackHeightChange = 1) : s.stack.height < 1024 := by
  have hroom := (h.suits trivial).2
  omega

theorem Entered.outputSize (h : Entered env env' rules op δ s t) : t.outputSize = 0 :=
  h.agree.outputSize.symm.trans h.startable.outputSize

theorem matched_pc (h : Entered env env' rules .pc δ s t) (analysis : Baseline.CodeAnalysis) :
    Matched rev code .pc δ (pos + 1) (ip + 1) (Exec.run env (Baseline.pc analysis pos) s)
      (Exec.run env' (next ip (opPc (.number pos))) t) := by
  have hvalue : UInt256.ofSize pos = UInt256.ofInt64 pos := by
    unfold UInt256.ofSize UInt256.ofInt64 toUInt64
    congr 1
  exact matched_push h.agree (h.room rfl) h.outputSize (.inl hvalue)

/-- The base cost of the rest of the block is part of the gas that Baseline has left. -/
theorem Entered.correction (h : Entered env env' rules op δ s t) :
    0 ≤ t.gasLeft ∧ toInt64 δ = δ ∧ toInt64 (t.gasLeft + δ) = s.gasLeft := by
  have hgas := h.agree.gas
  have hsolvent := h.solvent
  have hnonneg := h.nonneg
  have hceiling := (h.startable.gas h.metered).2.1
  have hlt := rules.ceiling_lt
  have ht : 0 ≤ t.gasLeft := by
    by_cases hδ : δ = 0
    · omega
    · exact h.agree.solvent hδ
  refine ⟨ht, toInt64_of_inInt64 ⟨by omega, by omega⟩, ?_⟩
  rw [← hgas]
  exact toInt64_of_inInt64 ⟨by omega, by omega⟩

/-- GAS pushes the gas left, corrected in Advanced. -/
theorem matched_gas (h : Entered env env' rules .gas δ s t) {ctx : Context} {cost : Nat} {n : Int}
    (hcost : (cost : Int) = n + δ) :
    Matched rev code .gas δ (pos + 1) (ip + 1) (Exec.run env (do gas ctx; pure (pos + 1)) s)
      (Exec.run env' (next ip (opGas cost (.number n))) t) := by
  have hcorrection : (cost : Int) - n = δ := by omega
  have hnoted : Agree δ [] s ((t.noteInt64 (cost - n)).noteInt64
      (t.gasLeft + toInt64 (cost - n))) :=
    { h.agree with }
  have hvalue : s.gasLeft = toInt64 (t.gasLeft + toInt64 (cost - n)) := by
    obtain ⟨-, hδ, hgas⟩ := h.correction
    rw [hcorrection, hδ, hgas]
  show Matched rev code .gas δ (pos + 1) (ip + 1)
    (Exec.run env (do Exec.push (UInt256.ofInt64 s.gasLeft); pure (pos + 1)) s)
    (Exec.run env' (do
      Exec.push (UInt256.ofInt64 (toInt64 (t.gasLeft + toInt64 (cost - n))))
      pure (ip + 1)) ((t.noteInt64 (cost - n)).noteInt64 (t.gasLeft + toInt64 (cost - n))))
  exact matched_push hnoted (h.room rfl) h.outputSize (.inl (congrArg UInt256.ofInt64 hvalue))

/-- PUSH pushes its data. -/
theorem matched_pushData {n : Fin 32} (h : Entered env env' rules (.push n) δ s t)
    {uninit : Nat → Byte} {b : Byte} (hop : Opcode.ofByte b = some (.push n))
    (hb : code[pos]? = some b) (harrives : Arrives code 0 pos) {y : UInt256}
    (hy : (instructionAt code pos b).data.length = n.val + 1 →
      y = beLoad (instructionAt code pos b).data) :
    Matched rev code (.push n) δ (pos + (n.val + 1 + 1)) (ip + 1)
      (Exec.run env (Baseline.push n (Baseline.analyze uninit code) pos) s)
      (Exec.run env' (next ip (Exec.push y)) t) := by
  have hin : pos + 1 + (n.val + 1) < (Baseline.analyze uninit code).paddedCode.length :=
    Baseline.push_data_in_code harrives hb hop
  -- the padding keeps the read inside, so the branch for a fault is never taken
  have hrun : Baseline.push n (Baseline.analyze uninit code) pos = (do
      Exec.push (beLoad (((Baseline.analyze uninit code).paddedCode.drop (pos + 1)).take
        (n.val + 1)))
      pure (pos + (n.val + 1 + 1))) := by
    unfold Baseline.push
    simp only
    rw [if_neg (by omega)]
  rw [hrun]
  apply matched_push h.agree (h.room rfl) h.outputSize
  rcases @pushData_cases uninit code pos b n hop with ⟨hlength, hdata⟩ | hend
  · left
    rw [hdata, hy hlength]
  · exact .inr ⟨⟨n, rfl⟩, hend⟩

end Push

/-! ## Jumps -/

section Jump

variable {env env' : Env σ} {rules : Rules} {op : Opcode} {δ : Int} {s t : ExecutionState σ}
  {rev : Revision} {code : List Byte} {pos ip : Nat}

/-- The entry that a jump in Advanced leads to. -/
def jumpTarget (analysis : AdvancedCodeAnalysis) (dst : UInt256) : Option Nat :=
  if 2 ^ 31 - 1 < dst.toNat then none
  else if findJumpdest analysis dst.toNat < 0 then none
  else some (findJumpdest analysis dst.toNat).toNat

theorem run_popJumpTarget {analysis : AdvancedCodeAnalysis} {dst : UInt256} {stack : Stack}
    (hpop : t.stack.pop? = some (dst, stack)) :
    (popJumpTarget analysis).run env' t =
      .ok (jumpTarget analysis dst) { t with stack := stack } := by
  show ((handle env' .pop t).bind fun dst t' => Program.run (handle env') _ t') = _
  simp only [handle, hpop, Outcome.bind]
  show Program.run (handle env')
    (if 2 ^ 31 - 1 < dst.toNat then pure none
      else pure (if findJumpdest analysis dst.toNat < 0 then none
        else some (findJumpdest analysis dst.toNat).toNat)) _ = _
  unfold jumpTarget
  by_cases hbig : 2 ^ 31 - 1 < dst.toNat
  · rw [if_pos hbig, if_pos hbig]
    rfl
  · rw [if_neg hbig, if_neg hbig]
    rfl

/-- Both interpreters accept the same destinations. -/
theorem jumpTarget_cases (hsize : code.length < 2 ^ 30) (dst : UInt256) :
    (Baseline.JumpTarget code dst.toNat ∧
      ∃ target, jumpTarget (analyze rev code) dst = some target ∧
        SameTarget rev code dst.toNat target) ∨
    (¬ Baseline.JumpTarget code dst.toNat ∧ jumpTarget (analyze rev code) dst = none) := by
  unfold jumpTarget
  rcases @findJumpdest_cases rev code hsize dst.toNat with ⟨index, hmem, heq⟩ | ⟨hnot, heq⟩
  · have htarget : Baseline.JumpTarget code dst.toNat := jumpTarget_iff.2 ⟨index, hmem⟩
    have hlt : dst.toNat < code.length := htarget.1.2
    obtain ⟨closed, b, post, hsplit, hindex⟩ := exists_block_of_mem_jumpdests hmem
    refine .inl ⟨htarget, index, ?_, closed, b, post, hsplit, hindex⟩
    rw [heq, if_neg (by omega), if_neg (by omega), Int.toNat_natCast]
  · refine .inr ⟨hnot, ?_⟩
    rw [heq]
    split
    · rfl
    · rfl

/-- Both interpreters go to a destination that has been popped. -/
theorem matched_jumpTo (hop : op = .jump ∨ op = .jumpi) (h : Agree δ [] s t)
    (hout : t.outputSize = 0) (hsize : code.length < 2 ^ 30) {uninit : Nat → Byte} (dst : UInt256) :
    Matched rev code op δ pos ip
      (Exec.run env (Baseline.jumpImpl (Baseline.analyze uninit code) dst) s)
      (Exec.run env' (jumpTo (jumpTarget (analyze rev code) dst)) t) := by
  have hbaseline := Baseline.jumpImpl_eq uninit (show code.length < 2 ^ 63 by omega) dst
  rcases @jumpTarget_cases rev code hsize dst with ⟨htarget, target, heq, hsame⟩ | ⟨hnot, heq⟩
  · obtain ⟨-, hgo⟩ := hbaseline.resolve_right fun hno => hno.1 htarget
    rw [hgo, heq]
    exact .jumped hop h hsame
  · obtain ⟨-, hgo⟩ := hbaseline.resolve_left fun hyes => hnot hyes.1
    rw [hgo, heq]
    exact .failed (by decide) hout

/-- The same item is popped from both stacks. -/
theorem Agree.pop (h : Agree δ [] s t) (hpos : 0 < s.stack.height) :
    ∃ x stack stack', s.stack.pop? = some (x, stack) ∧ t.stack.pop? = some (x, stack') ∧
      stack.height + 1 = s.stack.height ∧ t.stack.items = x :: stack'.items ∧
      Agree δ [] { s with stack := stack } { t with stack := stack' } := by
  have hheight := h.height
  rw [List.length_nil, Nat.add_zero] at hheight
  obtain ⟨x, stack, hpop, hitems⟩ := Stack.pop?_of_pos hpos
  obtain ⟨y, stack', hpop', hitems'⟩ := Stack.pop?_of_pos (hheight ▸ hpos)
  have hstack := h.stack
  rw [hitems, hitems', List.append_nil] at hstack
  injection hstack with hxy hrest
  subst hxy
  refine ⟨x, stack, stack', hpop, hpop', ?_, hitems', h.setStack ?_⟩
  · rw [← Stack.length_items, ← Stack.length_items, hitems, List.length_cons]
  · rw [hrest, List.append_nil]

theorem matched_jump (h : Entered env env' rules .jump δ s t) (hsize : code.length < 2 ^ 30)
    {uninit : Nat → Byte} :
    Matched rev code .jump δ (pos + 1) (ip + 1)
      (Exec.run env (Baseline.jump (Baseline.analyze uninit code) pos) s)
      (Exec.run env' (opJump (analyze rev code)) t) := by
  have hrequired : 1 ≤ s.stack.height := Int.ofNat_le.1 (h.suits trivial).1
  obtain ⟨dst, stack, stack', hpop, hpop', -, -, hagree⟩ := h.agree.pop hrequired
  have hrun : Exec.run env (Baseline.jump (Baseline.analyze uninit code) pos) s =
      Exec.run env (Baseline.jumpImpl (Baseline.analyze uninit code) dst)
        { s with stack := stack } := by
    show ((handle env .pop s).bind _) = _
    simp only [handle, hpop]
    rfl
  have hrun' : Exec.run env' (opJump (analyze rev code)) t =
      Exec.run env' (jumpTo (jumpTarget (analyze rev code) dst)) { t with stack := stack' } := by
    show Program.run (handle env') (popJumpTarget (analyze rev code) >>= jumpTo) t = _
    rw [Program.run_bind]
    show ((popJumpTarget (analyze rev code)).run env' t).bind _ = _
    rw [run_popJumpTarget hpop']
    rfl
  rw [hrun, hrun']
  exact matched_jumpTo (.inl rfl) hagree h.outputSize hsize dst

theorem matched_jumpi (h : Entered env env' rules .jumpi δ s t) (hsize : code.length < 2 ^ 30)
    {uninit : Nat → Byte} :
    Matched rev code .jumpi δ (pos + 1) (ip + 1)
      (Exec.run env (Baseline.jumpi (Baseline.analyze uninit code) pos) s)
      (Exec.run env' (opJumpi (analyze rev code) ip) t) := by
  have hrequired : 2 ≤ s.stack.height := Int.ofNat_le.1 (h.suits trivial).1
  obtain ⟨dst, stack1, stack1', hpop1, hpop1', hheight, hitems, hagree1⟩ :=
    h.agree.pop (show 0 < s.stack.height by omega)
  obtain ⟨cond, stack2, stack2', hpop2, hpop2', -, hitems2, hagree⟩ :=
    hagree1.pop (show 0 < stack1.height by omega)
  -- the baseline pops both operands first; the advanced version peeks at the condition
  have hpeek : t.stack.get? 1 = some cond := by
    rw [Stack.get?_eq, hitems]
    have hrest : stack1'.items = cond :: stack2'.items := hitems2
    rw [hrest]
    rfl
  have hrun : Exec.run env (Baseline.jumpi (Baseline.analyze uninit code) pos) s =
      Exec.run env
        (if cond ≠ 0 then Baseline.jumpImpl (Baseline.analyze uninit code) dst else pure (pos + 1))
        { s with stack := stack2 } := by
    show ((handle env .pop s).bind _) = _
    simp only [handle, hpop1, Outcome.bind]
    show ((handle env .pop { s with stack := stack1 }).bind _) = _
    simp only [handle, hpop2, Outcome.bind]
    rfl
  rw [hrun]
  by_cases hcond : cond ≠ 0
  · have hrun' : Exec.run env' (opJumpi (analyze rev code) ip) t =
        Exec.run env' (jumpTo (jumpTarget (analyze rev code) dst)) { t with stack := stack2' } := by
      show ((handle env' (.peek 1) t).bind _) = _
      simp only [handle, hpeek, Outcome.bind]
      show Program.run (handle env') (if cond ≠ 0 then _ else _) t = _
      rw [if_pos hcond, Program.run_bind]
      show ((popJumpTarget (analyze rev code)).run env' t).bind _ = _
      rw [run_popJumpTarget hpop1']
      show ((handle env' .pop { t with stack := stack1' }).bind _) = _
      simp only [handle, hpop2', Outcome.bind]
      rfl
    rw [hrun', if_pos hcond]
    exact matched_jumpTo (.inr rfl) hagree h.outputSize hsize dst
  · have hrun' : Exec.run env' (opJumpi (analyze rev code) ip) t =
        .ok (ip + 1) { t with stack := stack2' } := by
      show ((handle env' (.peek 1) t).bind _) = _
      simp only [handle, hpeek, Outcome.bind]
      show Program.run (handle env') (if cond ≠ 0 then _ else _) t = _
      rw [if_neg hcond]
      show ((handle env' .pop t).bind _) = _
      simp only [handle, hpop1', Outcome.bind]
      show ((handle env' .pop { t with stack := stack1' }).bind _) = _
      simp only [handle, hpop2', Outcome.bind]
      rfl
    rw [hrun', if_neg hcond]
    exact .next hagree

end Jump

/-! ## Output -/

section Return

variable {env env' : Env σ} {rules : Rules} {op : Opcode} {s t : ExecutionState σ}
  {rev : Revision} {code : List Byte} {pos ip : Nat}

/-- The part of RETURN and REVERT that the interpreters share. -/
def checkOutput : Exec (UInt256 × UInt256) := do
  let offset ← Exec.peek 0
  let size ← Exec.peek 1
  Exec.checkMemory offset size
  pure (offset, size)

/-- RETURN and REVERT set the output; the offset of an empty output may differ. -/
theorem matched_return (h : Entered env env' rules op 0 s t)
    (hrequired : (instr.traits op).stackHeightRequired = 2) {status : StatusCode} {ctx : Context} :
    Matched rev code op 0 pos ip
      (Exec.run env (do let status ← return_ status ctx; Exec.exit status) s)
      (Exec.run env' (exitWith (opReturn status)) t) := by
  have hrun : InLockstep rules.blind 0 [] s (fun _ _ => True) (checkOutput.run env s)
      (checkOutput.run env' t) := by
    apply h.lockstep
    intro a _ hready
    have hitems := hready.required
    rw [hrequired] at hitems
    simp only [checkOutput, Program.sat_bind, Program.sat_pure, sat_peek, sat_checkMemory]
    exact ⟨by omega, fun _ => ⟨by omega, fun _ => ⟨hready.outputSize, fun _ _ _ _ _ => trivial⟩⟩⟩
  show Matched rev code op 0 pos ip
    (Program.run (handle env) (checkOutput >>= fun x => do
      Exec.setOutputOffset x.1.toSize
      Exec.setOutputSize x.2.toSize
      Exec.exit status) s)
    (Program.run (handle env') (checkOutput >>= fun x => do
      Exec.setOutputSize x.2.toSize
      (do if x.2.toSize ≠ 0 then Exec.setOutputOffset x.1.toSize
          pure status) >>= Exec.exit) t)
  rw [Program.run_bind, Program.run_bind]
  apply Matched.bind hrun
  · rintro ⟨offset, size⟩ a s' t' _ hagree _
    have hgas := hagree.gas.trans (Int.add_zero _)
    -- the advanced version keeps the old offset when the output is empty: nobody reads it
    have houtput : Program.run (handle env')
        ((do if size.toSize ≠ 0 then Exec.setOutputOffset offset.toSize
             pure status) >>= Exec.exit : Exec Nat) { t' with outputSize := size.toSize } =
        .exit status { t' with
          outputSize := size.toSize
          outputOffset := if size.toSize ≠ 0 then offset.toSize else t'.outputOffset } := by
      by_cases hsize : size.toSize ≠ 0
      · rw [if_pos hsize, if_pos hsize]
        rfl
      · rw [if_neg hsize, if_neg hsize]
        rfl
    have hmatched : Matched rev code op 0 pos ip
        (.exit status { s' with outputOffset := offset.toSize, outputSize := size.toSize })
        (.exit status { t' with
          outputSize := size.toSize
          outputOffset := if size.toSize ≠ 0 then offset.toSize else t'.outputOffset }) :=
      .ended (.kept rfl hgas hagree.calls rfl (fun hne => (if_pos hne).symm) hagree.memory)
    rw [← houtput] at hmatched
    exact hmatched
  · intro x s' hne
    exact absurd rfl hne

end Return

/-! ## Corrected gas -/

section Corrected

variable {env env' : Env σ} {rules : Rules} {op : Opcode} {δ : Int} {s t : ExecutionState σ}
  {rev : Revision} {code : List Byte} {pos ip : Nat}

/-- The gas that was lent is taken back at the end, if it is still there. -/
theorem matched_charge (env' : Env σ) (hδ : 0 ≤ δ) (hagree : Agree 0 [] s t)
    (hgas : 0 ≤ s.gasLeft) (hlt : s.gasLeft < 2 ^ 63) (hin : toInt64 δ = δ)
    (hout : t.outputSize = 0) :
    Matched rev code op δ pos ip (.ok pos s)
      ((handle env' (.charge δ) t).bind fun _ t' => .ok ip t') := by
  have hsame : s.gasLeft = t.gasLeft := hagree.gas.trans (Int.add_zero _)
  have hδ' : InInt64 δ := hin ▸ inInt64_toInt64 δ
  have hleft : (t.setGas (t.gasLeft - δ)).gasLeft = s.gasLeft - δ := by
    rw [hsame]
    exact toInt64_of_inInt64 ⟨by have := hδ'.2; omega, by omega⟩
  simp only [handle, noteInt64_of_inInt64 hδ']
  by_cases hneg : (t.setGas (t.gasLeft - δ)).gasLeft < 0
  · rw [if_pos hneg]
    exact .bail ⟨rfl, by omega⟩ (by decide) hout
  · rw [if_neg hneg]
    apply Matched.next
    exact { hagree with gas := by rw [hleft]; omega, solvent := fun _ => by omega }

/-- An instruction that looks at the gas. -/
theorem matched_corrected (h : Entered env env' rules op δ s t) {p : Exec Unit}
    (hp : ∀ rules' : Rules, rules'.readsGas → rules'.isStatic = rules.isStatic →
      Spec rules' (instr.traits op).stackHeightRequired (instr.traits op).stackHeightChange p)
    (hreads : rules.readsGas) {cost : Nat} {n : Int} (hcost : (cost : Int) = n + δ) :
    Matched rev code op δ (pos + 1) (ip + 1) (Exec.run env (do p; pure (pos + 1)) s)
      (Exec.run env' (next ip (corrected cost (.number n) p)) t) := by
  have hcorrection : (cost : Int) - n = δ := by omega
  obtain ⟨-, hδ, hgas⟩ := h.correction
  have hlent : Agree 0 [] s (lend t δ) := by
    have hleft : (lend t δ).gasLeft = s.gasLeft := by
      show toInt64 (t.gasLeft + toInt64 δ) = s.gasLeft
      rw [hδ, hgas]
    exact { h.agree with
      gas := by rw [hleft, Int.add_zero]
      solvent := fun hne => absurd rfl hne }
  have hrun : InLockstep rules.uncounted 0 [] s (fun _ _ => True) (p.run env s)
      (p.run env' (lend t δ)) := by
    apply h.lockstep_uncounted hlent
    intro a hready
    exact (hp rules.uncounted trivial rfl a hready).mono (safe_monotone _) fun _ _ _ => trivial
  -- The gas that Baseline has left afterwards is known from the same run, with the gas counted.
  have hcounted := run_spec h.limit h.fits h.startable h.suits (hp rules hreads rfl)
  show Matched rev code op δ (pos + 1) (ip + 1) (Program.run _ (p >>= fun _ => pure (pos + 1)) s)
    (Program.run _ (corrected cost (.number n) p >>= fun _ => pure (ip + 1)) t)
  rw [Program.run_bind, Program.run_bind]
  show Matched rev code op δ (pos + 1) (ip + 1) ((p.run env s).bind _)
    (((corrected cost (.number n) p).run env' t).bind _)
  rw [run_corrected, hcorrection, hδ]
  generalize p.run env s = r at hrun hcounted
  generalize p.run env' (lend t δ) = r' at hrun
  cases hrun with
  | @ok _ s' t' hst =>
      obtain ⟨a, ⟨hR, hagree⟩, -⟩ := hst
      have hcont := hcounted.resolve_left fun hd =>
        not_derailed_of_callBounded h.calls h.solvent hd.2
      have hpaid := hcont.gas h.metered
      have hceiling := (hcont.follows.gas h.metered).1
      have hlt := rules.ceiling_lt
      have hsolvent := h.solvent
      have hout : t'.outputSize = 0 := hagree.outputSize.symm.trans hcont.outputSize
      exact matched_charge env' h.nonneg hagree (by omega) (by omega) hδ hout
  | exit hst =>
      obtain ⟨hexit, hout, -⟩ := hst
      exact .failed hexit.status hout
  | fault f => exact .fault f
  | bail hr ht =>
      obtain ⟨rfl, hout⟩ := ht
      refine .bail ?_ (by decide) hout
      cases r with
      | ok x s' =>
          obtain ⟨a, ⟨-, hne, -⟩, -⟩ := hr
          exact absurd rfl hne
      | exit status s' => exact hr.status
      | fault f => trivial

end Corrected

/-! ## Any instruction -/

section Exec

variable {env env' : Env σ} {rules : Rules} {op : Opcode} {δ : Int} {s t : ExecutionState σ}
  {rev : Revision} {code : List Byte} {pos ip : Nat} {b : Byte}

/-- A terminating instruction that does not end its block is INVALID. -/
theorem matched_exitWith (h : Entered env env' rules op δ s t) (hop : Opcode.ofByte b = some op)
    (hlast : endsBlock b = true → δ = 0) {f : Context → Exec StatusCode}
    (hbase : Baseline.op2fn op = .terminating f) :
    Matched rev code op δ pos ip
      (Exec.run env (do let status ← f s.toContext; Exec.exit status) s)
      (Exec.run env' (exitWith (f s.toContext)) t) := by
  by_cases hends : endsBlock b = true
  · obtain rfl := hlast hends
    exact matched_terminating h (spec_terminating hbase h.static)
  · obtain ⟨-, -, rfl | hgoes⟩ := goes_of_not_endsBlock hop (Bool.eq_false_iff.2 hends)
    · cases hbase
      exact .failed (by decide) h.outputSize
    · exact absurd hbase (hgoes f)

theorem endsBlock_of_opReturn {status : StatusCode} (hop : Opcode.ofByte b = some op)
    (hfn : instructionImplementations op = .opReturn status) : endsBlock b = true := by
  unfold endsBlock
  rw [hop]
  cases op with
  | return_ | revert => rfl
  | push m =>
      simp only [instructionImplementations] at hfn
      split at hfn <;> cases hfn
  | _ => cases hfn

/-- The outcomes of an instruction of the code in both interpreters. -/
theorem matched_exec (h : Entered env env' rules op δ s t) (hreads : rules.readsGas)
    (hsize : code.length < 2 ^ 30) (harrives : Arrives code 0 pos) (hb : code[pos]? = some b)
    (hop : Opcode.ofByte b = some op) (hjumpdest : op ≠ .jumpdest)
    (hlast : endsBlock b = true → δ = 0) {cost k : Nat} {n : Int} (hcost : (cost : Int) = n + δ)
    (hvalue : PushValueAt (analyze rev code).pushValues k (instructionAt code pos b))
    {uninit : Nat → Byte} :
    Matched rev code op δ (pos + 1 + pushSize b) (ip + 1)
      (Exec.run env
        (Baseline.invoke (Baseline.op2fn op) (Baseline.analyze uninit code) s.toContext pos) s)
      (Exec.run env' (exec (analyze rev code) cost t.toContext (instructionImplementations op)
        (argOf n k (instructionAt code pos b)) ip) t) := by
  have hop' : Opcode.ofByte (instructionAt code pos b).opcode = some op := hop
  have himpl := implemented op
  rw [← h.agree.context]
  generalize hbase : Baseline.op2fn op = base at himpl
  generalize hfn : instructionImplementations op = fn at himpl
  have hbasic : ∀ f, base = .basic f → pos + 1 + pushSize b = pos + 1 := by
    rintro f rfl
    have hzero : pushSize b = 0 := by
      apply pushSize_of_ne_push hop
      rintro m rfl
      cases hbase
    omega
  have hspec : ∀ f, base = .basic f → ∀ rules' : Rules, (op.readsGas = true → rules'.readsGas) →
      rules'.isStatic = rules.isStatic →
      Spec rules' (instr.traits op).stackHeightRequired (instr.traits op).stackHeightChange
        (f s.toContext) := by
    rintro f rfl rules' hreads' hstatic
    exact spec_basic hbase (fun hs => h.static (hstatic ▸ hs)) hreads'
  -- one case for each way the two tables implement an opcode
  cases himpl with
  | @plain op f hplain =>
      rw [hbasic f rfl]
      apply matched_plain h
      apply hspec f rfl rules.blind
      · intro hyes
        rw [hplain] at hyes
        cases hyes
      · rfl
  | @corrected op f fn hexec hreadsGas =>
      rw [hexec, argOf_of_readsGas hop' hreadsGas, hbasic f rfl]
      apply matched_corrected h _ hreads hcost
      intro rules' hreads' hstatic
      exact hspec f rfl rules' (fun _ => hreads') hstatic
  | gas =>
      rw [argOf_of_readsGas hop' rfl, hbasic _ rfl]
      exact matched_gas h hcost
  | jumpdest => exact absurd rfl hjumpdest
  | jump =>
      have hzero : pushSize b = 0 := pushSize_of_ne_push hop fun m hm => by cases hm
      rw [hzero]
      exact matched_jump h hsize
  | jumpi =>
      have hzero : pushSize b = 0 := pushSize_of_ne_push hop fun m hm => by cases hm
      rw [hzero]
      exact matched_jumpi h hsize
  | pc =>
      have hzero : pushSize b = 0 := pushSize_of_ne_push hop fun m hm => by cases hm
      rw [hzero, argOf_pc hop']
      exact matched_pc h (Baseline.analyze uninit code)
  | @pushSmall m hm =>
      have hnext : pos + 1 + pushSize b = pos + (m.val + 1 + 1) := by
        rw [pushSize_eq hop]
        omega
      have hm8 : m.val < 8 := hm
      rw [hnext, argOf_pushSmall hop' hm]
      apply matched_pushData h hop hb harrives
      intro hlength
      rw [← hlength]
      exact setWidth_smallPushValue (by omega)
  | @pushFull m hm =>
      have hnext : pos + 1 + pushSize b = pos + (m.val + 1 + 1) := by
        rw [pushSize_eq hop]
        omega
      have hm32 := m.isLt
      rw [hnext, argOf_pushFull hop' hm, exec_opPushFull hop' hm hvalue]
      apply matched_pushData h hop hb harrives
      intro hlength
      rw [← hlength]
      exact largePushValue_eq (by omega)
  | return_ hkeeps =>
      obtain rfl := hlast (endsBlock_of_opReturn hop hfn)
      exact matched_return h (required_of_opReturn hfn)
  | @terminating op f fn hexec =>
      rw [hexec]
      exact matched_exitWith h hop hlast hbase

end Exec

end Ivmone
