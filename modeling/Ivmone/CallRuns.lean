import Ivmone.Effects
import Ivmone.MemoryChecks

/-!
# Runs of calls and creations

What each part of a call and of a creation does to the state: the payments, the gas of the message,
the check of depth and balance, and the request itself.
-/

set_option autoImplicit false

namespace Ivmone

open Lib Lib.Program Instructions

variable {σ : Type} {env : Env σ} {ctx : Context} {s t : ExecutionState σ}

/-! ## The check of depth and balance -/

/-- The state after the host was asked for the balance. It is asked only if there is a value. -/
def askBalance (env : Env σ) (ctx : Context) (value : UInt256) (s : ExecutionState σ) :
    ExecutionState σ :=
  if value ≠ 0 then
    { s with
      host := (env.host (.getBalance ctx.msg.recipient) s.host).2
      calls := s.calls ++ [⟨.getBalance ctx.msg.recipient,
        (env.host (.getBalance ctx.msg.recipient) s.host).1⟩] }
  else s

/-- The depth is below the limit, and the balance the host reports covers the value. -/
def Admits (env : Env σ) (ctx : Context) (value : UInt256) (s : ExecutionState σ) : Prop :=
  ctx.msg.depth < 1024 ∧
    (value ≠ 0 → value ≤ (env.host (.getBalance ctx.msg.recipient) s.host).1)

theorem askBalance_eq (env : Env σ) (ctx : Context) (value : UInt256) (s : ExecutionState σ) :
    ∃ host calls, askBalance env ctx value s = { s with host := host, calls := calls } := by
  unfold askBalance
  split
  · exact ⟨_, _, rfl⟩
  · exact ⟨s.host, s.calls, rfl⟩

/-- A call is made if it is admitted; else the instruction ends there. -/
theorem run_gated (env : Env σ) (ctx : Context) (value : UInt256) (send : Exec Unit)
    (s : ExecutionState σ) :
    (Admits env ctx value s ∧
      (gated ctx value send).run env s = send.run env (askBalance env ctx value s)) ∨
    (¬ Admits env ctx value s ∧
      ∃ t, (t = s ∨ t = askBalance env ctx value s) ∧
        (gated ctx value send).run env s = .ok () t) := by
  unfold gated Admits
  -- the depth is looked at before the balance: too deep, and the host is not asked at all
  by_cases hdepth : 1024 ≤ ctx.msg.depth
  · rw [if_pos hdepth]
    exact .inr ⟨fun h => by omega, s, .inl rfl, rfl⟩
  · rw [if_neg hdepth, Exec.run, run_bind]
    by_cases hvalue : value ≠ 0
    · have hask : run (handle env) (hasBalance ctx value) s =
          .ok (!decide ((env.host (.getBalance ctx.msg.recipient) s.host).1 < value))
            (askBalance env ctx value s) := by
        unfold hasBalance askBalance
        rw [if_pos hvalue, if_pos hvalue]
        rfl
      rw [hask]
      by_cases hless : (env.host (.getBalance ctx.msg.recipient) s.host).1 < value
      · refine .inr ⟨fun h => absurd (h.2 hvalue) (by simpa using hless), _, .inr rfl, ?_⟩
        simp only [Outcome.bind, hless, decide_true, Bool.not_true, Bool.false_eq_true, if_false]
        rfl
      · refine .inl ⟨⟨by omega, fun _ => by simpa using hless⟩, ?_⟩
        simp only [Outcome.bind, hless, decide_false, Bool.not_false, if_true]
        rfl
    · have hask : run (handle env) (hasBalance ctx value) s =
          .ok true (askBalance env ctx value s) := by
        unfold hasBalance askBalance
        rw [if_neg hvalue, if_neg hvalue]
        rfl
      rw [hask]
      exact .inl ⟨⟨by omega, fun h => absurd h hvalue⟩, rfl⟩

/-! ## The request -/

/-- The state after the host was asked to make a call. -/
def called (env : Env σ) (msg : Message) (s : ExecutionState σ) : ExecutionState σ :=
  { s with
    host := (env.host (.call msg) s.host).2
    calls := s.calls ++ [⟨.call msg, (env.host (.call msg) s.host).1⟩] }

/-- The state after a gas amount with the given exact value was spent. -/
def spend (gasUsed : Int) (s : ExecutionState σ) : ExecutionState σ :=
  (s.noteInt64 gasUsed).setGas (s.gasLeft - toInt64 gasUsed)

/-- The memory after the output of a call was copied. -/
def outputCopied (outputOffset outputSize : UInt256) (output : Buffer) (m : Memory) :
    Option Memory :=
  let copySize := min outputSize.toSize output.size
  if 0 < copySize then m.store? outputOffset.toSize (output.bytes.take copySize) else some m

theorem run_storeOutput (env : Env σ) (outputOffset outputSize : UInt256) (output : Buffer)
    (s : ExecutionState σ) :
    (storeOutput outputOffset outputSize output).run env s =
      match outputCopied outputOffset outputSize output s.memory with
      | some memory => .ok () { s with memory := memory }
      | none => .fault .memory := by
  unfold storeOutput outputCopied
  dsimp only
  split
  · exact run_perform (handle env) _ s
  · rfl

/-- The state after a call: the host has made it, its output is the return data and is copied to the
memory, its success is on the stack, and the gas it used is spent. -/
def callEnded (env : Env σ) (msg : Message) (stack : Stack) (memory : Memory)
    (s : ExecutionState σ) : ExecutionState σ :=
  let result := (env.host (.call msg) s.host).1
  spend (msg.gas - result.gasLeft)
    { called env msg s with returnData := result.output, stack := stack, memory := memory }

theorem run_sendCall (env : Env σ) (msg : Message) (outputOffset outputSize : UInt256)
    (s : ExecutionState σ) :
    (sendCall msg outputOffset outputSize).run env s =
      match s.stack.set? 0
        (UInt256.ofBool ((env.host (.call msg) s.host).1.statusCode == .success)) with
      | none => .fault .stack
      | some stack =>
          match outputCopied outputOffset outputSize (env.host (.call msg) s.host).1.output
            s.memory with
          | none => .fault .memory
          | some memory => .ok () (callEnded env msg stack memory s) := by
  show ((handle env (.poke 0 _) _).bind _) = _
  simp only [handle]
  cases s.stack.set? 0
    (UInt256.ofBool ((env.host (.call msg) s.host).1.statusCode == .success)) with
  | none => rfl
  | some stack =>
      show run (handle env) (storeOutput outputOffset outputSize _ >>= _) _ = _
      have hstore := run_storeOutput env outputOffset outputSize
        (env.host (.call msg) s.host).1.output
        { called env msg s with
          returnData := (env.host (.call msg) s.host).1.output
          stack := stack }
      simp only [called, Exec.run] at hstore
      rw [run_bind, hstore]
      cases outputCopied outputOffset outputSize (env.host (.call msg) s.host).1.output
        s.memory with
      | none => rfl
      | some memory => rfl

/-- A call that is made ends in `callEnded`. -/
theorem sendCall_ok {msg : Message} {outputOffset outputSize : UInt256}
    (h : (sendCall msg outputOffset outputSize).run env s = .ok () t) :
    ∃ stack memory,
      outputCopied outputOffset outputSize (env.host (.call msg) s.host).1.output s.memory =
        some memory ∧
      t = callEnded env msg stack memory s := by
  rw [run_sendCall] at h
  split at h
  · cases h
  · split at h
    · cases h
    · rename_i stack _ _ memory hmemory
      injection h with _ ht
      exact ⟨stack, memory, hmemory, ht.symm⟩

/-- The state after a creation, which pushes an address if it was successful. -/
def createEnded (env : Env σ) (msg : Message) (stack : Stack) (s : ExecutionState σ) :
    ExecutionState σ :=
  let result := (env.host (.call msg) s.host).1
  { spend (msg.gas - result.gasLeft) (called env msg s) with
    returnData := result.output
    stack := stack }

theorem run_sendCreate (env : Env σ) (msg : Message) (s : ExecutionState σ) :
    (sendCreate msg).run env s =
      if (env.host (.call msg) s.host).1.statusCode = .success then
        (s.stack.set? 0 (UInt256.ofAddress (env.host (.call msg) s.host).1.createAddress)).elim
          (.fault .stack) fun stack => .ok () (createEnded env msg stack s)
      else .ok () (createEnded env msg s.stack s) := by
  show run (handle env) (if (env.host (.call msg) s.host).1.statusCode =
      .success then _ else _) _ = _
  split
  · have hpoke : (Exec.setTop (UInt256.ofAddress (env.host (.call msg) s.host).1.createAddress)).run
        env (createEnded env msg s.stack s) =
          (s.stack.set? 0 (UInt256.ofAddress (env.host (.call msg) s.host).1.createAddress)).elim
            (.fault .stack) fun stack => .ok () (createEnded env msg stack s) := by
      have hstack : (createEnded env msg s.stack s).stack = s.stack := rfl
      rw [Exec.run, Exec.setTop, Exec.poke, Exec.perform, run_perform]
      simp only [handle, hstack]
      cases s.stack.set? 0 (UInt256.ofAddress (env.host (.call msg) s.host).1.createAddress) with
      | none => rfl
      | some stack => rfl
    exact hpoke
  · rfl

theorem sendCreate_ok {msg : Message} (h : (sendCreate msg).run env s = .ok () t) :
    ∃ stack, t = createEnded env msg stack s := by
  rw [run_sendCreate] at h
  split at h
  · cases hset : s.stack.set? 0 (UInt256.ofAddress
      (env.host (.call msg) s.host).1.createAddress) with
    | none =>
        rw [hset] at h
        cases h
    | some stack =>
        rw [hset] at h
        injection h with _ ht
        exact ⟨stack, ht.symm⟩
  · injection h with _ ht
    exact ⟨s.stack, ht.symm⟩

/-! ## The gas of the message -/

/-- The stipend of a call with a value. -/
def stipend (value : UInt256) : Int := if value = 0 then 0 else 2300

/-- The gas of a message without the stipend is owned by the caller, and the operand and the 63/64
rule bound it. -/
structure Forwarded (ctx : Context) (g f : Int) : Prop where
  nonneg : 0 ≤ f
  le : f ≤ g
  all_but_one_64th : Revision.tangerineWhistle ≤ ctx.rev → f ≤ g - g / 64

theorem tdiv_64 {g : Int} (h : 0 ≤ g) : g.tdiv 64 = g / 64 := Int.tdiv_eq_ediv_of_nonneg h

/-- The requested gas as an `int64_t`, which saturates. -/
theorem requested_range (gas : UInt256) :
    0 ≤ (if gas.toNat < 2 ^ 63 - 1 then gas.toInt64 else 2 ^ 63 - 1) ∧
      (if gas.toNat < 2 ^ 63 - 1 then gas.toInt64 else 2 ^ 63 - 1) ≤ gas.toNat := by
  split
  · have hexact : gas.toInt64 = gas.toNat := toInt64_of_inInt64 ⟨by omega, by omega⟩
    omega
  · omega

theorem callGas_ok {gas : UInt256} {f : Int} (h0 : 0 ≤ s.gasLeft) (h63 : s.gasLeft < 2 ^ 63)
    (h : (callGas ctx gas).run env s = .ok f t) :
    t = s ∧ Forwarded ctx s.gasLeft f ∧ f ≤ gas.toNat := by
  obtain ⟨hlow, hhigh⟩ := requested_range gas
  unfold callGas at h
  generalize (if gas.toNat < 2 ^ 63 - 1 then gas.toInt64 else 2 ^ 63 - 1) =
    requested at h hlow hhigh
  have hread : Exec.run env (if Revision.tangerineWhistle ≤ ctx.rev then
      (do
        let limit ← allButOne64th s.gasLeft
        pure (min requested limit))
      else if s.gasLeft < requested then Exec.exit .outOfGas else pure requested) s = .ok f t := h
  split at hread
  · -- from Tangerine Whistle on the request is cut to all but one 64th, before it is refused
    have hin : InInt64 (s.gasLeft - s.gasLeft.tdiv 64) := by
      rw [tdiv_64 h0]
      exact ⟨by omega, by omega⟩
    have hrun : (.ok (min requested (toInt64 (s.gasLeft - s.gasLeft.tdiv 64)))
        (s.noteInt64 (s.gasLeft - s.gasLeft.tdiv 64)) : Result σ Int) = .ok f t := hread
    rw [noteInt64_of_inInt64 hin, toInt64_of_inInt64 hin, tdiv_64 h0] at hrun
    injection hrun with hf ht
    exact ⟨ht.symm, ⟨by omega, by omega, fun _ => by omega⟩, by omega⟩
  · rename_i hrev
    split at hread
    · cases hread
    · injection hread with hf ht
      exact ⟨ht.symm, ⟨by omega, by omega, fun h => absurd h hrev⟩, by omega⟩

theorem stipend_nonneg (value : UInt256) : 0 ≤ stipend value := by
  unfold stipend
  split
  · exact le_rfl
  · exact Int.natCast_nonneg 2300

/-- The stipend is added to the gas of the message and to the gas left. -/
theorem run_addStipend (env : Env σ) {value : UInt256} {f : Int} (h0 : 0 ≤ f)
    (hle : f ≤ s.gasLeft) (h63 : s.gasLeft + stipend value < 2 ^ 63) :
    (addStipend (value != 0) f).run env s =
      .ok (f + stipend value) { s with gasLeft := s.gasLeft + stipend value } := by
  unfold addStipend stipend
  by_cases hvalue : value = 0
  · subst hvalue
    rw [if_pos rfl, Int.add_zero, Int.add_zero]
    rfl
  · have hne : (value != 0) = true := by simpa using hvalue
    unfold stipend at h63
    rw [if_neg hvalue] at h63
    have h1 : InInt64 (f + 2300) := ⟨by omega, by omega⟩
    have h2 : InInt64 (s.gasLeft + 2300) := ⟨by omega, by omega⟩
    rw [if_pos hne, if_neg hvalue]
    show (.ok (toInt64 (f + 2300))
      { (s.noteInt64 (f + 2300)).noteInt64 (s.gasLeft + 2300) with
        gasLeft := toInt64 (s.gasLeft + 2300) } : Result σ Int) = _
    rw [noteInt64_of_inInt64 h1, noteInt64_of_inInt64 h2, toInt64_of_inInt64 h1,
      toInt64_of_inInt64 h2]

/-- The gas of the message of a call. -/
theorem forwardGas_ok {gas value : UInt256} {msgGas : Int} (h0 : 0 ≤ s.gasLeft)
    (h63 : s.gasLeft + stipend value < 2 ^ 63)
    (h : (forwardGas ctx gas value).run env s = .ok msgGas t) :
    ∃ f, msgGas = f + stipend value ∧ Forwarded ctx s.gasLeft f ∧ f ≤ gas.toNat ∧
      t = { s with gasLeft := s.gasLeft + stipend value, returnData := Buffer.empty } := by
  have hstipend := stipend_nonneg value
  rw [forwardGas, Exec.run, run_bind] at h
  obtain ⟨f, s1, hgas, hrest⟩ := Outcome.bind_eq_ok h
  obtain ⟨rfl, hforwarded, hoperand⟩ := callGas_ok h0 (by omega) hgas
  have hadd : run (handle env) (addStipend (value != 0) f) s1 = _ :=
    run_addStipend env hforwarded.nonneg hforwarded.le h63
  rw [run_bind, hadd] at hrest
  injection hrest with hmsg ht
  exact ⟨f, hmsg.symm, hforwarded, hoperand, ht.symm⟩

theorem run_createGas (env : Env σ) (ctx : Context) (s : ExecutionState σ) :
    (createGas ctx).run env s =
      if Revision.tangerineWhistle ≤ ctx.rev then
        .ok (toInt64 (s.gasLeft - s.gasLeft.tdiv 64)) (s.noteInt64 (s.gasLeft - s.gasLeft.tdiv 64))
      else .ok s.gasLeft s := by
  show Exec.run env (if Revision.tangerineWhistle ≤ ctx.rev then allButOne64th s.gasLeft
    else pure s.gasLeft) s = _
  split
  · rfl
  · rfl

/-- Nothing but the ghost part changes. -/
theorem createGas_total (env : Env σ) (ctx : Context) (s : ExecutionState σ) :
    ∃ f ghost, (createGas ctx).run env s = .ok f { s with ghost := ghost } := by
  rw [run_createGas]
  split
  · exact ⟨_, _, rfl⟩
  · exact ⟨s.gasLeft, s.ghost, rfl⟩

/-- The gas of the message of a creation. -/
theorem createGas_ok {f : Int} (h0 : 0 ≤ s.gasLeft) (h63 : s.gasLeft < 2 ^ 63)
    (h : (createGas ctx).run env s = .ok f t) : t = s ∧ Forwarded ctx s.gasLeft f := by
  rw [run_createGas] at h
  split at h
  · have hin : InInt64 (s.gasLeft - s.gasLeft.tdiv 64) := by
      rw [tdiv_64 h0]
      exact ⟨by omega, by omega⟩
    rw [noteInt64_of_inInt64 hin, toInt64_of_inInt64 hin, tdiv_64 h0] at h
    injection h with hf ht
    exact ⟨ht.symm, ⟨by omega, by omega, fun _ => by omega⟩⟩
  · rename_i hrev
    injection h with hf ht
    exact ⟨ht.symm, ⟨by omega, by omega, fun h => absurd h hrev⟩⟩

/-! ## Whole instructions -/

theorem loadRegion_ok {offset size : UInt256} {bytes : List Byte}
    (h : (loadRegion offset size).run env s = .ok bytes t) : t = s := by
  unfold loadRegion at h
  split at h
  · have hload : handle env (.load offset.toSize size.toSize) s = .ok bytes t :=
      (run_perform (handle env) (.load offset.toSize size.toSize) s).symm.trans h
    simp only [handle] at hload
    split at hload
    · injection hload with _ ht
      exact ht.symm
    · cases hload
  · injection h with _ ht
    exact ht.symm

/-- The parts of a call that succeeds: the payments leave `paid`, the gas of the message leaves
`ready`, and the call is made there if it is admitted. -/
theorem call_ok {kind : CallKind} {isStatic : Bool}
    (h : (call kind isStatic ctx).run env s = .ok () t) :
    ∃ x paid msgGas ready, (payCall kind isStatic ctx).run env s = .ok x paid ∧
      (forwardGas ctx x.gas x.value).run env paid = .ok msgGas ready ∧
      ((Admits env ctx x.value ready ∧ ∃ stack memory,
          outputCopied x.outputOffset x.outputSize
            (env.host (.call (callMessage kind isStatic ctx x.dst x.value x.input msgGas))
              (askBalance env ctx x.value ready).host).1.output ready.memory = some memory ∧
          t = callEnded env (callMessage kind isStatic ctx x.dst x.value x.input
            msgGas) stack memory (askBalance env ctx x.value ready)) ∨
        (¬ Admits env ctx x.value ready ∧ (t = ready ∨ t = askBalance env ctx x.value ready))) := by
  rw [call_eq, Exec.run, run_bind] at h
  obtain ⟨x, paid, hpay, h⟩ := Outcome.bind_eq_ok h
  rw [run_bind] at h
  obtain ⟨msgGas, ready, hforward, h⟩ := Outcome.bind_eq_ok h
  refine ⟨x, paid, msgGas, ready, hpay, hforward, ?_⟩
  rcases run_gated env ctx x.value
    (sendCall (callMessage kind isStatic ctx x.dst x.value x.input msgGas) x.outputOffset
      x.outputSize) ready with ⟨hadmits, hrun⟩ | ⟨hstops, t', ht', hrun⟩
  · rw [Exec.run, h] at hrun
    obtain ⟨stack, memory, hcopied, ht⟩ := sendCall_ok hrun.symm
    obtain ⟨host, calls, hask⟩ := askBalance_eq env ctx x.value ready
    refine .inl ⟨hadmits, stack, memory, ?_, ht⟩
    rw [← hcopied, hask]
  · rw [Exec.run, h] at hrun
    injection hrun with _ ht
    exact .inr ⟨hstops, ht ▸ ht'⟩

/-- The parts of a creation that succeeds. -/
theorem create_ok {kind : CallKind} (h : (create kind ctx).run env s = .ok () t) :
    ∃ x paid, (payCreate kind ctx).run env s = .ok x paid ∧
      ((Admits env ctx x.endowment paid ∧ ∃ msgGas ready input stack,
          (createGas ctx).run env (askBalance env ctx x.endowment paid) = .ok msgGas ready ∧
          t = createEnded env (createMessage kind ctx x.endowment x.salt input msgGas)
            stack ready) ∨
        (¬ Admits env ctx x.endowment paid ∧
          (t = paid ∨ t = askBalance env ctx x.endowment paid))) := by
  rw [create_eq, Exec.run, run_bind] at h
  obtain ⟨x, paid, hpay, h⟩ := Outcome.bind_eq_ok h
  refine ⟨x, paid, hpay, ?_⟩
  rcases run_gated env ctx x.endowment (forwardCreate kind ctx x) paid with
    ⟨hadmits, hrun⟩ | ⟨hstops, t', ht', hrun⟩
  · rw [Exec.run, h, forwardCreate, Exec.run, run_bind] at hrun
    obtain ⟨msgGas, ready, hgas, hrest⟩ := Outcome.bind_eq_ok hrun.symm
    rw [run_bind] at hrest
    obtain ⟨input, loaded, hload, hsend⟩ := Outcome.bind_eq_ok hrest
    obtain rfl := loadRegion_ok hload
    obtain ⟨stack, ht⟩ := sendCreate_ok hsend
    exact .inl ⟨hadmits, msgGas, loaded, input, stack, hgas, ht⟩
  · rw [Exec.run, h] at hrun
    injection hrun with _ ht
    exact .inr ⟨hstops, ht ▸ ht'⟩

end Ivmone
