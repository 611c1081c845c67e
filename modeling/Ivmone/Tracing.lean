import Ivmone.SameView
import Ivmone.StackSafety
import Ivmone.PushData

/-!
# Tracing and the bytes after the code

The buffer of the padded code has bytes that nothing initialises, between the STOP after the code
and the STOP at its end. A PUSH at the end of the code whose data is missing reads them. What it
pushes is seen by nobody: the next instruction is the last STOP, which the tracer is not told about.
But the tracer's offsets are of type `uint32_t`, and for code of 4 GiB the offset of the last STOP
wraps around to one in the code.
-/

set_option autoImplicit false

namespace Ivmone.Baseline

open Lib Program

variable {σ : Type}

/-- What a tracer is told at the start of an instruction. -/
structure Notification where
  offset : Nat
  gasLeft : Int
  stack : List UInt256
  memorySize : Nat

/-- The call of `notify_instruction_start` at the beginning of a round. -/
def notification : Config (ExecutionState σ) → List Notification
  | .running pos s =>
      let offset := pos % 2 ^ 32
      if offset < s.code.size then  -- Skip STOP from code padding.
        [⟨offset, s.gasLeft, s.stack.items, s.memory.size⟩]
      else []
  | _ => []

/-- One round of the loop with tracing enabled. -/
def tracedStep (env : Env σ) (analysis : CodeAnalysis) :
    Config (ExecutionState σ) × List Notification →
      Option (Config (ExecutionState σ) × List Notification)
  | (c, trace) => (step env analysis c).map fun c' => (c', trace ++ notification c)

/-- An execution with tracing, after a number of rounds. -/
def traced (i : Invocation σ) (n : Nat) : Config (ExecutionState σ) × List Notification :=
  after (tracedStep i.env (analysisOf i)) (start i, []) n

/-- What is seen of an execution: the calls it has made, its notifications, and its result when it
has ended. -/
def seen : Config (ExecutionState σ) × List Notification →
    Option ExecutionResult × List HostCall × List Notification
  | (.running _ s, trace) => (none, s.calls, trace)
  | (.halted s, trace) => (makeResult s, s.calls, trace)
  | (.fault _, trace) => (none, [], trace)

section Rounds

variable {i : Invocation σ} {n : Nat} {c : Config (ExecutionState σ)}

theorem traced_succ_of_some (h : step i.env (analysisOf i) (traced i n).1 = some c) :
    traced i (n + 1) = (c, (traced i n).2 ++ notification (traced i n).1) := by
  apply after_succ_of_some
  show (step i.env (analysisOf i) (traced i n).1).map _ = _
  rw [h]
  rfl

theorem traced_succ_of_none (h : step i.env (analysisOf i) (traced i n).1 = none) :
    traced i (n + 1) = traced i n := by
  apply after_succ_of_none
  show (step i.env (analysisOf i) (traced i n).1).map _ = _
  rw [h]
  rfl

/-- Tracing does not change the execution. -/
theorem traced_fst (i : Invocation σ) (n : Nat) :
    (traced i n).1 = after (step i.env (analysisOf i)) (start i) n := by
  induction n with
  | zero => rfl
  | succ n ih =>
      cases h : step i.env (analysisOf i) (traced i n).1 with
      | none =>
          rw [traced_succ_of_none h, ih]
          rw [ih] at h
          exact (after_succ_of_none h).symm
      | some c =>
          rw [traced_succ_of_some h]
          rw [ih] at h
          exact (after_succ_of_some h).symm

theorem reaches_traced (i : Invocation σ) (n : Nat) :
    StateTransition.Reaches (step i.env (analysisOf i)) (start i) (traced i n).1 := by
  rw [traced_fst]
  exact reaches_after _ _

end Rounds

/-! ## Pushed bytes -/

section Push

variable {code : List Byte} {pos : Nat} {n : Fin 32} {b : Byte}

/-- The data of a PUSH is the same for all uninitialised bytes, unless two bytes of it are
missing. -/
theorem push_data_eq (u u' : Nat → Byte) (hle : pos + 1 + (n.val + 1) ≤ code.length + 1) :
    ((analyze u code).paddedCode.drop (pos + 1)).take (n.val + 1) =
      ((analyze u' code).paddedCode.drop (pos + 1)).take (n.val + 1) := by
  apply List.ext_getElem?
  intro d
  by_cases hd : d < n.val + 1
  · rw [List.getElem?_take_of_lt hd, List.getElem?_take_of_lt hd, List.getElem?_drop,
      List.getElem?_drop]
    by_cases hlt : pos + 1 + d < code.length
    · rw [getElem?_paddedCode_of_lt u code hlt, getElem?_paddedCode_of_lt u' code hlt]
    · have heq : pos + 1 + d = code.length := by omega
      rw [heq, getElem?_paddedCode_length, getElem?_paddedCode_length]
  · rw [List.getElem?_eq_none (by rw [List.length_take]; omega),
      List.getElem?_eq_none (by rw [List.length_take]; omega)]

/-- The implementations depend on the uninitialised bytes only in a PUSH with two bytes missing. -/
theorem invoke_eq (u u' : Nat → Byte) (op : Opcode) (ctx : Context)
    (hle : ∀ n, op = .push n → pos + 1 + (n.val + 1) ≤ code.length + 1) :
    invoke (op2fn op) (analyze u code) ctx pos = invoke (op2fn op) (analyze u' code) ctx pos := by
  cases op with
  | push n =>
      show push n (analyze u code) pos = push n (analyze u' code) pos
      simp only [push, push_data_eq u u' (hle n rfl), length_paddedCode]
  | _ => rfl

end Push

/-! ## Two runs with other uninitialised bytes -/

/-- The states differ at most in the items of the stack. -/
structure SameButItems (s t : ExecutionState σ) : Prop where
  view : SameView { s with stack := t.stack } t
  height : s.stack.height = t.stack.height

/-- The execution comes to a PUSH at the end of the code with two bytes of its data missing, and has
the gas and the stack space for it. -/
def ExecutesTruncatedPush (i : Invocation σ) : Prop :=
  i.ctx.code.bytes.length + 2 ≤ codeEnd i.ctx.code.bytes ∧
    ∃ pos s b, StateTransition.Reaches (step i.env (analysisOf i)) (start i) (.running pos s) ∧
      i.ctx.code.bytes[pos]? = some b ∧ pos + 1 + pushSize b = codeEnd i.ctx.code.bytes ∧
      (checkRequirements s b).1 = .success

/-- Configurations of two executions with other uninitialised bytes. -/
inductive Padded (i : Invocation σ) :
    Config (ExecutionState σ) → Config (ExecutionState σ) → Prop
  | same {c c' : Config (ExecutionState σ)} (h : c.Rel SameView c') : Padded i c c'
  | stopping {s t : ExecutionState σ} (hpush : ExecutesTruncatedPush i) (h : SameButItems s t) :
      Padded i (.running (codeEnd i.ctx.code.bytes) s) (.running (codeEnd i.ctx.code.bytes) t)
  | stopped {s t : ExecutionState σ} (h : SameButItems s t) : Padded i (.halted s) (.halted t)

section Padded

variable {i : Invocation σ} {u : Nat → Byte} {s t : ExecutionState σ} {pos : Nat}

/-- Positions of a run are those of instructions, and its states have the arguments. -/
theorem arrives_of_reaches
    (h : StateTransition.Reaches (step i.env (analysisOf i)) (start i) (.running pos s)) :
    Arrives i.ctx.code.bytes 0 pos ∧ s.toContext = i.ctx := by
  have hvalid := (valid_of_reaches (premises_lenient i) h).resolve_left fun hd => hd.1
  exact ⟨hvalid.1, hvalid.2.follows.context⟩

theorem gasCosts_stop (rev : Revision) : instr.gasCosts rev .stop = 0 := by
  cases rev <;> rfl

theorem checkRequirements_stop (s : ExecutionState σ) :
    checkRequirements s Opcode.stop.toByte =
      (if toInt64 s.gasLeft < 0 then .outOfGas else .success, s.setGas s.gasLeft) := by
  have hcost : instr.gasCost s.rev Opcode.stop.toByte = 0 := by
    rw [instr.gasCost_of_ofByte (ofByte_toByte .stop), gasCosts_stop]
  by_cases hneg : toInt64 s.gasLeft < 0
  · rw [if_pos hneg]
    unfold checkRequirements instructionTable
    simp only [hcost, Int.sub_zero]
    rw [if_neg (by decide)]
    exact if_pos hneg
  · have hsuits : Suits True .stop s := by
      intro _
      have hle := s.stack.height_le
      exact ⟨by show (0 : Int) ≤ _; omega, by show (s.stack.height : Int) + 0 ≤ 1024; omega⟩
    have hpasses := checkRequirements_of_suits (ofByte_toByte .stop)
      (by rw [gasCosts_stop]; decide) (by rw [gasCosts_stop, Int.sub_zero]; omega) hsuits
    rw [hpasses, gasCosts_stop, Int.sub_zero, if_neg hneg]

/-- A round at the last STOP leaves the stack alone. -/
theorem SameButItems.step_stop (h : SameButItems s t) (env env' : Env σ)
    {analysis analysis' : CodeAnalysis}
    (hstop : analysis.paddedCode[pos]? = some Opcode.stop.toByte)
    (hstop' : analysis'.paddedCode[pos]? = some Opcode.stop.toByte) :
    ∃ s' t', step env analysis (.running pos s) = some (.halted s') ∧
      step env' analysis' (.running pos t) = some (.halted t') ∧ SameButItems s' t' := by
  have hgas : s.gasLeft = t.gasLeft := h.view.gas
  have hleave : ∀ status, SameButItems { s.setGas s.gasLeft with status := status }
      { t.setGas t.gasLeft with status := status } := fun status =>
    ⟨(h.view.setGas hgas).setStatus status, h.height⟩
  simp only [step, hstop, hstop', checkRequirements_stop, hgas]
  by_cases hneg : toInt64 t.gasLeft < 0
  · rw [if_pos hneg]
    exact ⟨_, _, rfl, rfl, hgas ▸ hleave .outOfGas⟩
  · rw [if_neg hneg]
    simp only [dispatch, ofByte_toByte]
    exact ⟨_, _, rfl, rfl, hgas ▸ hleave .success⟩

theorem checkRequirements_stack (s : ExecutionState σ) (b : Byte) :
    (checkRequirements s b).2.stack = s.stack := by
  rcases checkRequirements_cases s b with ⟨status, s', hcheck, -, hs'⟩ | ⟨op, -, -, hcheck, -⟩
  · rw [hcheck]
    rcases hs' with rfl | ⟨-, -, rfl⟩ <;> rfl
  · rw [hcheck]
    rfl

/-- The word that a PUSH of `size` bytes reads. -/
def pushedWord (i : Invocation σ) (pos size : Nat) : UInt256 :=
  beLoad (((analysisOf i).paddedCode.drop (pos + 1)).take size)

/-- A round at a PUSH whose requirements are met. -/
theorem step_push (harrives : Arrives i.ctx.code.bytes 0 pos) {b : Byte} {n : Fin 32}
    (hb : i.ctx.code.bytes[pos]? = some b) (hop : Opcode.ofByte b = some (.push n))
    {s' : ExecutionState σ} (hpasses : checkRequirements s b = (.success, s')) :
    step i.env (analysisOf i) (.running pos s) =
      some (.ofResult ((handle i.env (.push (pushedWord i pos (pushSize b))) s').bind
        fun _ s'' => .ok (pos + 1 + pushSize b) s'')) := by
  have hfetch : (analysisOf i).paddedCode[pos]? = _ :=
    getElem?_paddedCode i.uninitCode i.ctx.code.bytes harrives
  have hnext : pos + 1 + (n.val + 1) = pos + (n.val + 1 + 1) := by omega
  rw [hb, Option.getD_some] at hfetch
  simp only [step, hfetch, hpasses, dispatch, hop]
  rw [pushSize_eq hop, hnext]
  exact congrArg (fun r => some (Config.ofResult r)) (run_push i.env s' harrives hb hop)

/-- The rounds of two executions at a PUSH: they may push different words. -/
theorem step_push_both {j : Invocation σ} (hij : j = { i with uninitCode := u })
    (h : SameView s t) (harrives : Arrives i.ctx.code.bytes 0 pos) {b : Byte} {n : Fin 32}
    (hb : i.ctx.code.bytes[pos]? = some b) (hop : Opcode.ofByte b = some (.push n))
    (hpasses : (checkRequirements s b).1 = .success) :
    ∃ s' t', step i.env (analysisOf i) (.running pos s) =
        some (.running (pos + 1 + pushSize b) s') ∧
      step j.env (analysisOf j) (.running pos t) = some (.running (pos + 1 + pushSize b) t') ∧
      SameButItems s' t' ∧ s'.stack.items = pushedWord i pos (pushSize b) :: s.stack.items ∧
      t'.stack.items = pushedWord j pos (pushSize b) :: t.stack.items := by
  obtain ⟨status, s1, t1, hs, ht, hst⟩ := h.checkRequirements b
  rw [hs] at hpasses
  subst hpasses
  have hs1 : s1.stack = s.stack := by rw [← checkRequirements_stack s b, hs]
  have ht1 : t1.stack = t.stack := by rw [← checkRequirements_stack t b, ht]
  -- the requirements have passed, so there is room for one more item
  have hlt : s1.stack.height < Stack.limit := by
    rcases checkRequirements_cases s b with ⟨status, s', hcheck, hstatus, -⟩ |
      ⟨op, hop', -, hcheck, -, hsuits⟩
    · rw [hs] at hcheck
      injection hcheck with hcheck
      exact absurd (.inl hcheck.symm) hstatus
    · rw [hop] at hop'
      injection hop' with hop'
      subst hop'
      have hroom : (s.stack.height : Int) + 1 ≤ 1024 := (hsuits trivial).2
      rw [hs1]
      unfold Stack.limit
      omega
  rw [step_push harrives hb hop hs]
  subst hij
  rw [step_push (i := { i with uninitCode := u }) harrives hb hop ht]
  obtain ⟨stack, hpush, hitems⟩ := Stack.push?_of_lt hlt (pushedWord i pos (pushSize b))
  obtain ⟨stack', hpush', hitems'⟩ := Stack.push?_of_lt (hst.height ▸ hlt)
    (pushedWord { i with uninitCode := u } pos (pushSize b))
  simp only [handle, hpush, hpush']
  refine ⟨_, _, rfl, rfl, ⟨hst.setStack rfl, ?_⟩, hs1 ▸ hitems, ht1 ▸ hitems'⟩
  show stack.height = stack'.height
  rw [← Stack.length_items stack, ← Stack.length_items stack', hitems, hitems', hst.stack,
    List.length_cons, List.length_cons]

/-- At the position there is a PUSH with two bytes of its data missing, and its requirements are
met. -/
def AtTruncatedPush (i : Invocation σ) (pos : Nat) (s : ExecutionState σ) : Prop :=
  ∃ b n, i.ctx.code.bytes[pos]? = some b ∧ Opcode.ofByte b = some (.push n) ∧
    i.ctx.code.bytes.length + 2 ≤ pos + 1 + pushSize b ∧ (checkRequirements s b).1 = .success

/-- Elsewhere the rounds go alike. -/
theorem step_elsewhere (h : SameView s t) (harrives : Arrives i.ctx.code.bytes 0 pos)
    (helsewhere : ¬ AtTruncatedPush i pos s) :
    ∃ c c', step i.env (analysisOf i) (.running pos s) = some c ∧
      step i.env (analyze u i.ctx.code.bytes) (.running pos t) = some c' ∧ c.Rel SameView c' := by
  have hfetch : (analysisOf i).paddedCode[pos]? = _ :=
    getElem?_paddedCode i.uninitCode i.ctx.code.bytes harrives
  have hfetch' := getElem?_paddedCode u i.ctx.code.bytes harrives
  apply h.baseline_step rfl rfl (hfetch.trans hfetch'.symm)
  intro op opcode ctx hbyte hpasses hop
  apply invoke_eq
  rintro n rfl
  rw [hfetch] at hbyte
  injection hbyte with hbyte
  cases hb : i.ctx.code.bytes[pos]? with
  | none =>
      rw [hb, Option.getD_none] at hbyte
      rw [← hbyte, ofByte_toByte] at hop
      cases hop
  | some b =>
      rw [hb, Option.getD_some] at hbyte
      subst hbyte
      by_contra hle
      refine helsewhere ⟨b, n, hb, hop, ?_, hpasses⟩
      rw [pushSize_eq hop]
      omega

/-- The two executions make their rounds together. -/
theorem Padded.step {j : Invocation σ} (hij : j = { i with uninitCode := u })
    {c c' : Config (ExecutionState σ)}
    (hreaches : StateTransition.Reaches (step i.env (analysisOf i)) (start i) c)
    (h : Padded i c c') :
    (Baseline.step i.env (analysisOf i) c = none ∧ Baseline.step j.env (analysisOf j) c' = none) ∨
      ∃ d d', Baseline.step i.env (analysisOf i) c = some d ∧
        Baseline.step j.env (analysisOf j) c' = some d' ∧ Padded i d d' := by
  cases h with
  | same h =>
      cases h with
      | @running pos s t hst =>
          right
          obtain ⟨harrives, -⟩ := arrives_of_reaches hreaches
          by_cases htruncated : AtTruncatedPush i pos s
          · obtain ⟨b, n, hb, hop, hle, hpasses⟩ := htruncated
            -- the data of the push reaches past the code, so the next position is the padded end
            have hend : pos + 1 + pushSize b = codeEnd i.ctx.code.bytes :=
              eq_codeEnd (harrives.next hb) (by omega)
            obtain ⟨s', t', hs, ht, hst', -⟩ := step_push_both hij hst harrives hb hop hpasses
            rw [hend] at hs ht
            exact ⟨_, _, hs, ht,
              .stopping ⟨by omega, pos, s, b, hreaches, hb, hend, hpasses⟩ hst'⟩
          · obtain ⟨d, d', hd, hd', hrel⟩ := step_elsewhere hst harrives htruncated
            subst hij
            exact ⟨d, d', hd, hd', .same hrel⟩
      | halted hst => exact .inl ⟨rfl, rfl⟩
      | fault f => exact .inl ⟨rfl, rfl⟩
  | stopping hpush hst =>
      subst hij
      obtain ⟨s', t', hs, ht, hst'⟩ := hst.step_stop i.env i.env
        (getElem?_paddedCode_codeEnd i.uninitCode i.ctx.code.bytes)
        (getElem?_paddedCode_codeEnd u i.ctx.code.bytes)
      exact .inr ⟨_, _, hs, ht, .stopped hst'⟩
  | stopped hst => exact .inl ⟨rfl, rfl⟩

/-- After every number of rounds the two executions are in configurations that belong together. -/
theorem padded_traced {j : Invocation σ} (hij : j = { i with uninitCode := u }) (n : Nat) :
    Padded i (traced i n).1 (traced j n).1 := by
  induction n with
  | zero =>
      have hstart : start j = start i := by
        subst hij
        rw [start_eq, start_eq]
        rfl
      show Padded i (start i) (start j)
      rw [hstart, start_eq]
      exact .same (.running ⟨rfl, rfl, rfl, rfl, rfl, rfl, rfl, rfl, rfl, rfl⟩)
  | succ n ih =>
      rcases ih.step hij (reaches_traced i n) with ⟨hi, hj⟩ | ⟨d, d', hi, hj, hpadded⟩
      · rw [traced_succ_of_none hi, traced_succ_of_none hj]
        exact ih
      · rw [traced_succ_of_some hi, traced_succ_of_some hj]
        exact hpadded

end Padded

/-! ## What is seen of the uninitialised bytes -/

theorem Padded.seen {i : Invocation σ} {c c' : Config (ExecutionState σ)} (h : Padded i c c')
    (trace : List Notification) : Baseline.seen (c, trace) = Baseline.seen (c', trace) := by
  have hitems : ∀ {s t : ExecutionState σ}, SameButItems s t → makeResult s = makeResult t :=
    fun {s t} hst => (show makeResult { s with stack := t.stack } = _ from hst.view.makeResult)
  cases h with
  | same h =>
      cases h with
      | running hst => simp only [Baseline.seen, hst.calls]
      | halted hst => simp only [Baseline.seen, hst.makeResult, hst.calls]
      | fault f => rfl
  | stopping hpush hst =>
      have hcalls := hst.view.calls
      simp only [Baseline.seen]
      exact congrArg (fun x => (none, x, trace)) hcalls
  | stopped hst =>
      have hcalls := hst.view.calls
      simp only [Baseline.seen, hitems hst]
      exact congrArg (fun x => (makeResult _, x, trace)) hcalls

/-- The uninitialised bytes are not observed: whatever they are, the execution makes the same calls
and notifications in any number of rounds, and gives the same result when it ends. -/
def PaddingUnobserved (i : Invocation σ) : Prop :=
  ∀ (u : Nat → Byte) (n : Nat),
    Baseline.seen (traced { i with uninitCode := u } n) = Baseline.seen (traced i n)

section Observed

variable {i : Invocation σ} {u : Nat → Byte}

/-- The last STOP is hidden from the tracer if its offset is below 2^32. -/
theorem notification_stop {s : ExecutionState σ} (hctx : s.toContext = i.ctx)
    (hlt : codeEnd i.ctx.code.bytes < 2 ^ 32) :
    notification (.running (codeEnd i.ctx.code.bytes) s) = [] := by
  have hle := length_le_codeEnd i.ctx.code.bytes
  have hsize : s.code.size = i.ctx.code.bytes.length := congrArg (fun ctx => ctx.code.size) hctx
  simp only [notification, Nat.mod_eq_of_lt hlt]
  rw [if_neg (by omega)]

theorem Padded.notification {c c' : Config (ExecutionState σ)}
    (hreaches : StateTransition.Reaches (Baseline.step i.env (analysisOf i)) (start i) c)
    (h : Padded i c c')
    (hhidden : ¬ (2 ^ 32 ≤ codeEnd i.ctx.code.bytes ∧ ExecutesTruncatedPush i)) :
    Baseline.notification c = Baseline.notification c' := by
  cases h with
  | same h =>
      cases h with
      | running hst =>
          unfold Baseline.notification
          simp only [hst.context, hst.gas, hst.stack, hst.memorySize]
      | halted hst => rfl
      | fault f => rfl
  | stopping hpush hst =>
      obtain ⟨-, hctx⟩ := arrives_of_reaches hreaches
      have hctx' := hst.view.context
      have hlt : codeEnd i.ctx.code.bytes < 2 ^ 32 :=
        Nat.lt_of_not_le fun hle => hhidden ⟨hle, hpush⟩
      rw [notification_stop hctx hlt, notification_stop (hctx'.symm.trans hctx) hlt]
  | stopped hst => rfl

theorem seen_trace (x : Config (ExecutionState σ) × List Notification) :
    (Baseline.seen x).2.2 = x.2 := by
  obtain ⟨c, trace⟩ := x
  cases c <;> rfl

theorem paddingUnobserved_of_hidden
    (hhidden : ¬ (2 ^ 32 ≤ codeEnd i.ctx.code.bytes ∧ ExecutesTruncatedPush i)) :
    PaddingUnobserved i := by
  intro u n
  have htrace : (traced { i with uninitCode := u } n).2 = (traced i n).2 := by
    induction n with
    | zero => rfl
    | succ n ih =>
        have hpadded := padded_traced (i := i) (u := u) rfl n
        have hsame := hpadded.notification (reaches_traced i n) hhidden
        rcases hpadded.step rfl (reaches_traced i n) with ⟨hi, hj⟩ | ⟨d, d', hi, hj, -⟩
        · rw [traced_succ_of_none hi, traced_succ_of_none hj]
          exact ih
        · rw [traced_succ_of_some hi, traced_succ_of_some hj]
          show _ ++ _ = _ ++ _
          rw [ih, hsame]
  have hseen := (padded_traced (i := i) (u := u) rfl n).seen (traced i n).2
  rw [← htrace] at hseen
  exact hseen.symm.trans (by rw [htrace])

/-- A PUSH with two bytes of its data missing pushes one of the uninitialised bytes. -/
theorem pushedWord_ne {j : Invocation σ} (hij : j = { i with uninitCode := u }) {pos size : Nat}
    (hpos : pos < i.ctx.code.bytes.length) (hsize : size ≤ 32)
    (hend : pos + 1 + size = codeEnd i.ctx.code.bytes)
    (hmissing : i.ctx.code.bytes.length + 2 ≤ codeEnd i.ctx.code.bytes)
    (hu : u (i.ctx.code.bytes.length + 1) ≠ i.uninitCode (i.ctx.code.bytes.length + 1)) :
    pushedWord i pos size ≠ pushedWord j pos size := by
  subst hij
  intro heq
  have hlength : ∀ v : Nat → Byte,
      (((analyze v i.ctx.code.bytes).paddedCode.drop (pos + 1)).take size).length = size := by
    intro v
    rw [List.length_take, List.length_drop, length_paddedCode]
    omega
  have hbyte : ∀ v : Nat → Byte,
      (((analyze v i.ctx.code.bytes).paddedCode.drop (pos + 1)).take size)[
        i.ctx.code.bytes.length - pos]? = some (v (i.ctx.code.bytes.length + 1)) := by
    intro v
    rw [List.getElem?_take_of_lt (by omega), List.getElem?_drop,
      show pos + 1 + (i.ctx.code.bytes.length - pos) = i.ctx.code.bytes.length + 1 by omega]
    exact getElem?_paddedCode_between v i.ctx.code.bytes (by omega) (by omega)
  have hdata := beLoad_injective ((hlength i.uninitCode).trans (hlength u).symm)
    ((hlength i.uninitCode).trans_le hsize) heq
  have hsame := hbyte u
  rw [← hdata, hbyte i.uninitCode] at hsame
  injection hsame with hsame
  exact hu hsame.symm

theorem notification_running {s : ExecutionState σ} {pos : Nat} (hlt : pos % 2 ^ 32 < s.code.size) :
    notification (.running pos s) = [⟨pos % 2 ^ 32, s.gasLeft, s.stack.items, s.memory.size⟩] :=
  if_pos hlt

theorem exists_push_of_pushSize {b : Byte} (h : pushSize b ≠ 0) :
    ∃ n, Opcode.ofByte b = some (.push n) := by
  unfold pushSize at h
  split at h
  · rename_i n hop
    exact ⟨n, hop⟩
  · exact absurd rfl h

/-- Rounds that are traced alike have the same notification. -/
theorem notification_eq_of_traces {j : Invocation σ} {n : Nat}
    {d d' : Config (ExecutionState σ)} (h : ∀ n, (traced j n).2 = (traced i n).2)
    (hi : step i.env (analysisOf i) (traced i n).1 = some d)
    (hj : step j.env (analysisOf j) (traced j n).1 = some d') :
    notification (traced j n).1 = notification (traced i n).1 := by
  have hnext := h (n + 1)
  rw [traced_succ_of_some hi, traced_succ_of_some hj, h n] at hnext
  exact List.append_cancel_left hnext

/-- The offset of the last STOP of a long code wraps around to an offset in the code, and the tracer
sees a word with uninitialised bytes on the stack. -/
theorem hidden_of_paddingUnobserved (h : PaddingUnobserved i) :
    ¬ (2 ^ 32 ≤ codeEnd i.ctx.code.bytes ∧ ExecutesTruncatedPush i) := by
  rintro ⟨hlong, hmissing, pos, s, b, hreaches, hb, hend, hpasses⟩
  obtain ⟨hpos, -⟩ := List.getElem?_eq_some_iff.1 hb
  obtain ⟨harrives, hctx⟩ := arrives_of_reaches hreaches
  obtain ⟨n, hop⟩ := exists_push_of_pushSize (b := b) (by omega)
  have hsize : pushSize b ≤ 32 := by
    have hn := n.isLt
    rw [pushSize_eq hop]
    omega
  generalize hij : ({ i with uninitCode := fun d => i.uninitCode d + 1 } : Invocation σ) = j
  have htraces : ∀ n, (traced j n).2 = (traced i n).2 := by
    intro n
    rw [← seen_trace, ← seen_trace, ← hij]
    exact congrArg (fun x => x.2.2) (h (fun d => i.uninitCode d + 1) n)
  -- The rounds before the PUSH go alike.
  obtain ⟨k, hk⟩ := exists_after_of_reaches hreaches
  rw [← traced_fst] at hk
  have hpadded : Padded i (.running pos s) (traced j k).1 := hk ▸ padded_traced hij.symm k
  generalize hc : (traced j k).1 = c at hpadded
  cases hpadded with
  | stopping hpush hst =>
      have hle := length_le_codeEnd i.ctx.code.bytes
      omega
  | same hrel =>
      cases hrel with
      | @running _ _ t hst =>
          obtain ⟨s', t', hs, ht, hst', hitems, hitems'⟩ :=
            step_push_both hij.symm hst harrives hb hop hpasses
          rw [← hk, hend] at hs
          rw [← hc, hend] at ht
          have hi : (traced i (k + 1)).1 = .running (codeEnd i.ctx.code.bytes) s' :=
            congrArg Prod.fst (traced_succ_of_some hs)
          have hj : (traced j (k + 1)).1 = .running (codeEnd i.ctx.code.bytes) t' :=
            congrArg Prod.fst (traced_succ_of_some ht)
          -- The next round is that of the last STOP, and it is notified.
          have hjcode : j.ctx.code.bytes = i.ctx.code.bytes := by rw [← hij]
          have hstop : (analysisOf i).paddedCode[codeEnd i.ctx.code.bytes]? = _ :=
            getElem?_paddedCode_codeEnd i.uninitCode i.ctx.code.bytes
          have hstop' : (analysisOf j).paddedCode[codeEnd i.ctx.code.bytes]? =
              some Opcode.stop.toByte := by
            rw [← hjcode]
            exact getElem?_paddedCode_codeEnd j.uninitCode j.ctx.code.bytes
          obtain ⟨s'', t'', hs', ht', -⟩ := hst'.step_stop i.env j.env hstop hstop'
          rw [← hi] at hs'
          rw [← hj] at ht'
          have hnotified := notification_eq_of_traces htraces hs' ht'
          have hcode : s'.code.size = i.ctx.code.bytes.length := by
            have hreached := reaches_traced i (k + 1)
            rw [hi] at hreached
            exact congrArg (fun ctx => ctx.code.size) (arrives_of_reaches hreached).2
          have hcode' : t'.code.size = i.ctx.code.bytes.length :=
            (congrArg (fun ctx => ctx.code.size) hst'.view.context).symm.trans hcode
          rw [hi, hj, notification_running (by omega), notification_running (by omega)] at hnotified
          injection hnotified with hnotified
          injection hnotified with hoffset hgas hstack hmemory
          rw [hitems, hitems'] at hstack
          injection hstack with hword
          refine pushedWord_ne hij.symm hpos hsize hend hmissing ?_ hword.symm
          simp

end Observed

/-- The bytes of the padded code that nothing initialises are not observed, by the caller, by the
host or by the tracer, exactly if no truncated PUSH is executed before a last STOP at 4 GiB or
beyond. -/
theorem paddingUnobserved_iff (i : Invocation σ) :
    PaddingUnobserved i ↔
      ¬ (2 ^ 32 ≤ codeEnd i.ctx.code.bytes ∧ ExecutesTruncatedPush i) :=
  ⟨hidden_of_paddingUnobserved, paddingUnobserved_of_hidden⟩

/-! ## A code of 4 GiB -/

/-- `n` times JUMPDEST and a PUSH2 without data. -/
def longCode (n : Nat) : List Byte :=
  List.replicate n Opcode.jumpdest.toByte ++ [(Opcode.push 1).toByte]

section LongCode

variable {i : Invocation σ} {n k : Nat}

theorem getElem?_longCode (hk : k < n) : (longCode n)[k]? = some Opcode.jumpdest.toByte := by
  unfold longCode
  rw [List.getElem?_append_left (by rw [List.length_replicate]; exact hk), List.getElem?_replicate,
    if_pos hk]

theorem getElem?_longCode_last (n : Nat) : (longCode n)[n]? = some (Opcode.push 1).toByte := by
  unfold longCode
  rw [List.getElem?_append_right (by rw [List.length_replicate]), List.length_replicate,
    Nat.sub_self]
  rfl

theorem arrives_longCode (hk : k ≤ n) : Arrives (longCode n) 0 k := by
  induction k with
  | zero => exact .refl
  | succ k ih => exact (ih (by omega)).next (getElem?_longCode hk)

theorem codeEnd_longCode (n : Nat) : codeEnd (longCode n) = n + 3 := by
  have harrives := (arrives_longCode (Nat.le_refl n)).next (getElem?_longCode_last n)
  have hlength : (longCode n).length = n + 1 := by
    rw [longCode, List.length_append, List.length_replicate]
    rfl
  exact (eq_codeEnd harrives (by rw [hlength]; exact Nat.le_add_right _ _)).symm

/-- A round at a JUMPDEST. -/
theorem step_jumpdest {s : ExecutionState σ} {analysis : CodeAnalysis} (env : Env σ)
    (hfetch : analysis.paddedCode[k]? = some Opcode.jumpdest.toByte) (h1 : 1 ≤ s.gasLeft)
    (h63 : s.gasLeft < 2 ^ 63) :
    ∃ s', step env analysis (.running k s) = some (.running (k + 1) s') ∧
      s'.gasLeft = s.gasLeft - 1 ∧ s'.stack = s.stack ∧ s'.toContext = s.toContext := by
  have hcost : instr.gasCosts s.rev .jumpdest = 1 := by cases s.rev <;> rfl
  have hleft : toInt64 (s.gasLeft - 1) = s.gasLeft - 1 :=
    toInt64_of_inInt64 ⟨by omega, by omega⟩
  have hsuits : Suits True .jumpdest s := by
    intro _
    have hle := s.stack.height_le
    exact ⟨by show (0 : Int) ≤ _; omega, by show (s.stack.height : Int) + 0 ≤ 1024; omega⟩
  have hpasses := checkRequirements_of_suits (ofByte_toByte .jumpdest)
    (by rw [hcost]; decide) (by rw [hcost, hleft]; omega) hsuits
  rw [hcost] at hpasses
  simp only [step, hfetch, hpasses, dispatch, ofByte_toByte]
  exact ⟨_, rfl, hleft, rfl, rfl⟩

/-- The JUMPDESTs are executed one by one. -/
theorem reaches_longCode (hcode : i.ctx.code.bytes = longCode n) (hgas : (n : Int) ≤ i.ctx.msg.gas)
    (h63 : i.ctx.msg.gas < 2 ^ 63) (hk : k ≤ n) :
    ∃ s, StateTransition.Reaches (step i.env (analysisOf i)) (start i) (.running k s) ∧
      s.gasLeft = i.ctx.msg.gas - k ∧ s.stack = i.uninitStack.clear ∧ s.toContext = i.ctx := by
  induction k with
  | zero =>
      rw [start_eq]
      exact ⟨i.newState, .refl, (Int.sub_zero _).symm, rfl, rfl⟩
  | succ k ih =>
      obtain ⟨s, hreaches, hleft, hstack, hctx⟩ := ih (by omega)
      have hfetch : (analysisOf i).paddedCode[k]? = some Opcode.jumpdest.toByte := by
        have harrives : Arrives i.ctx.code.bytes 0 k := hcode ▸ arrives_longCode (by omega)
        have hbyte := getElem?_paddedCode i.uninitCode i.ctx.code.bytes harrives
        rw [hcode, getElem?_longCode hk] at hbyte
        unfold analysisOf
        rw [hcode]
        exact hbyte
      have h1 : 1 ≤ s.gasLeft := by omega
      obtain ⟨s', hstep, hleft', hstack', hctx'⟩ := step_jumpdest i.env hfetch h1 (by omega)
      exact ⟨s', hreaches.tail hstep, by omega, hstack'.trans hstack, hctx'.trans hctx⟩

/-- The PUSH2 is executed. -/
theorem executesTruncatedPush_longCode (hcode : i.ctx.code.bytes = longCode n)
    (hgas : (n : Int) + 3 ≤ i.ctx.msg.gas) (h63 : i.ctx.msg.gas < 2 ^ 63) :
    ExecutesTruncatedPush i := by
  obtain ⟨s, hreaches, hleft, hstack, hctx⟩ :=
    reaches_longCode hcode (by omega) h63 (Nat.le_refl n)
  have hcost : instr.gasCosts s.rev (.push 1) = 3 := by cases s.rev <;> rfl
  have hheight : s.stack.height = 0 := by rw [hstack]; rfl
  have hsuits : Suits True (.push 1) s := fun _ =>
    ⟨by show (0 : Int) ≤ _; omega, by show (s.stack.height : Int) + 1 ≤ 1024; omega⟩
  have hpasses := checkRequirements_of_suits (ofByte_toByte (.push 1)) (by rw [hcost]; decide)
    (by rw [hcost, toInt64_of_inInt64 ⟨by omega, by omega⟩]; omega) hsuits
  refine ⟨?_, n, s, (Opcode.push 1).toByte, hreaches, ?_, ?_, ?_⟩
  · rw [hcode, codeEnd_longCode]
    simp [longCode]
  · rw [hcode, getElem?_longCode_last]
  · rw [hcode, codeEnd_longCode]
    rfl
  · rw [hpasses]

end LongCode

/-- 2^32 - 1 times JUMPDEST and a PUSH2 without data, with the gas to execute them. -/
def fourGiB : Invocation Unit :=
  simpleInvocation .berlin
    ⟨longCode (2 ^ 32 - 1), by rw [longCode, List.length_append, List.length_replicate]; norm_num⟩
    (2 ^ 32 + 2) 0

/-- There the tracer sees the uninitialised bytes. -/
theorem paddingUnobserved_fails_fourGiB : ¬ PaddingUnobserved fourGiB := by
  intro h
  refine hidden_of_paddingUnobserved h ⟨?_, ?_⟩
  · show 2 ^ 32 ≤ codeEnd (longCode (2 ^ 32 - 1))
    rw [codeEnd_longCode]
    norm_num
  · refine executesTruncatedPush_longCode (n := 2 ^ 32 - 1) rfl ?_ ?_
    · show ((2 ^ 32 - 1 : Nat) : Int) + 3 ≤ 2 ^ 32 + 2
      norm_num
    · show (2 ^ 32 + 2 : Int) < 2 ^ 63
      norm_num

end Ivmone.Baseline
