import Ivmone.GasForwarding
import Ivmone.Regions

/-!
# Gating of calls and soft failures

A call or creation asks the host for at most one call, and only if the depth and the balance allow
it. If they do not, the instruction succeeds and leaves the state that a failed call would have
left.
-/

set_option autoImplicit false

namespace Ivmone

open Lib Lib.Program Instructions

variable {σ : Type} {env env' : Env σ} {ctx : Context} {s s' t : ExecutionState σ}

/-! ## The call that is made -/

/-- The host has reported a balance that covers the value of the message, in its last answer. -/
def Covered (ctx : Context) (queries : List HostCall) (msg : Message) : Prop :=
  msg.kind ≠ .delegatecall → msg.value ≠ 0 →
    ∃ before, ∃ balance : UInt256,
      queries = before ++ [⟨.getBalance ctx.msg.recipient, balance⟩] ∧ msg.value ≤ balance

/-- The new calls of an instruction have no effect, except perhaps the last one. That is then a call
one level deeper, which the depth and the balance allow. -/
def AtMostOneCall (ctx : Context) (s t : ExecutionState σ) : Prop :=
  ∃ queries last, t.calls = s.calls ++ (queries ++ last) ∧
    (∀ c ∈ queries, c.request.isEffect = false) ∧
    (last = [] ∨ ∃ msg result, last = [⟨.call msg, result⟩] ∧ ctx.msg.depth < 1024 ∧
      msg.depth = ctx.msg.depth + 1 ∧ msg.depth ≤ 1024 ∧ Covered ctx queries msg)

theorem NoEffect.atMostOneCall (h : NoEffect s t) : AtMostOneCall ctx s t := by
  obtain ⟨queries, hcalls, hnone⟩ := h
  exact ⟨queries, [], by rw [List.append_nil]; exact hcalls, hnone, .inl rfl⟩

theorem toInt32_succ {depth : Int} (h : -2 ^ 31 ≤ depth) (hlt : depth < 1024) :
    toInt32 (depth + 1) = depth + 1 := by
  unfold toInt32
  exact Int.bmod_eq_of_le (by omega) (by omega)

/-- An admitted call meets the limits. -/
theorem atMostOneCall_of_admits {value : UInt256} {msg : Message} {result : CallResult}
    (hdepth : -2 ^ 31 ≤ ctx.msg.depth) (hqueries : NoEffect s s')
    (hadmits : Admits env ctx value s')
    (hmsg : msg.depth = toInt32 (ctx.msg.depth + 1))
    (hvalue : msg.kind ≠ .delegatecall → msg.value = value)
    (hcalls : t.calls = (askBalance env ctx value s').calls ++ [⟨.call msg, result⟩]) :
    AtMostOneCall ctx s t := by
  obtain ⟨queries, hs', hnone⟩ := hqueries
  obtain ⟨hlt, hbalance⟩ := hadmits
  rw [toInt32_succ hdepth hlt] at hmsg
  -- with a value the balance is asked for first, so the record has one more query
  by_cases hzero : value = 0
  · rw [askBalance, if_neg (by simpa using hzero), hs', List.append_assoc] at hcalls
    refine ⟨queries, _, hcalls, hnone, .inr ⟨msg, result, rfl, hlt, hmsg, by omega, ?_⟩⟩
    intro hkind hne
    exact absurd ((hvalue hkind).trans hzero) hne
  · rw [askBalance, if_pos hzero] at hcalls
    simp only [hs', List.append_assoc] at hcalls
    refine ⟨queries ++ [⟨.getBalance ctx.msg.recipient, _⟩], [⟨.call msg, result⟩],
      by rw [List.append_assoc]; exact hcalls, ?_, .inr ⟨msg, result, rfl, hlt, hmsg, by omega, ?_⟩⟩
    · intro c hc
      rcases List.mem_append.1 hc with hc | hc
      · exact hnone c hc
      · rw [List.mem_singleton.1 hc]
        rfl
    · intro hkind hne
      refine ⟨queries, _, rfl, ?_⟩
      rw [hvalue hkind]
      exact hbalance hzero

theorem call_atMostOneCall {kind : CallKind} {isStatic : Bool} (hdepth : -2 ^ 31 ≤ ctx.msg.depth)
    (h : (call kind isStatic ctx).run env s = .ok () t) : AtMostOneCall ctx s t := by
  obtain ⟨x, paid, msgGas, ready, hpay, hforward, hend⟩ := call_ok h
  obtain ⟨hqueries, hasked⟩ := noEffect_ready hpay hforward
  rcases hend with ⟨hadmits, stack, memory, -, rfl⟩ | ⟨-, rfl | rfl⟩
  · refine atMostOneCall_of_admits hdepth hqueries hadmits rfl ?_ rfl
    intro hkind
    exact if_neg hkind
  · exact hqueries.atMostOneCall
  · exact hasked.atMostOneCall

theorem create_atMostOneCall {kind : CallKind} (hdepth : -2 ^ 31 ≤ ctx.msg.depth)
    (h : (create kind ctx).run env s = .ok () t) : AtMostOneCall ctx s t := by
  obtain ⟨x, paid, hpay, hend⟩ := create_ok h
  have hqueries : NoEffect s paid :=
    noEffect_of_ok ((uses_payCreate kind).mono fun _ => Op.Asks.queries) hpay
  rcases hend with ⟨hadmits, msgGas, ready, input, stack, hcreate, rfl⟩ | ⟨-, rfl | rfl⟩
  · have hcalls : ready.calls = (askBalance env ctx x.endowment paid).calls := by
      obtain ⟨f, ghost, hrun⟩ := createGas_total env ctx (askBalance env ctx x.endowment paid)
      rw [hrun] at hcreate
      injection hcreate with _ hready
      rw [← hready]
    set msg := createMessage kind ctx x.endowment x.salt input msgGas with hmsg
    have hlast : (createEnded env msg stack ready).calls =
        (askBalance env ctx x.endowment paid).calls ++
          [⟨.call msg, (env.host (.call msg) ready.host).1⟩] := by
      rw [← hcalls]
      rfl
    exact atMostOneCall_of_admits hdepth hqueries hadmits rfl (fun _ => rfl) hlast
  · exact hqueries.atMostOneCall
  · exact NoEffect.atMostOneCall (hqueries.trans (noEffect_askBalance env ctx x.endowment paid))

/-! ## The top of the stack -/

/-- What is known about the top item of the stack. -/
def TopItem : Transformer Op Op.Res (Option UInt256)
  | .push item, _, Q => Q () (some item)
  | .pop, _, Q => ∀ x, Q x none
  | .poke _ _, _, Q => Q () none
  | _, a, Q => ∀ r, Q r a

/-- The top item is the one that is known. -/
def HasTop (a : Option UInt256) (s : ExecutionState σ) : Prop :=
  ∀ item, a = some item → s.stack.get? 0 = some item

theorem hasTop_none (s : ExecutionState σ) : HasTop none s := by
  intro item h
  cases h

theorem handle_topItem (env : Env σ) (o : Op) {a : Option UInt256} (h : HasTop a s)
    {Q : o.Res → Option UInt256 → Prop} (hT : TopItem o a Q) :
    (handle env o s).Meets (fun r s' => ∃ a', HasTop a' s' ∧ Q r a') (fun _ _ => True)
      fun _ => True := by
  cases o with
  | push item =>
      simp only [handle]
      split
      · rename_i stack hpush
        refine ⟨some item, ?_, hT⟩
        rintro _ ⟨⟩
        show stack.get? 0 = some item
        by_cases hlt : s.stack.height < Stack.limit
        · obtain ⟨stack', hpush', hitems⟩ := Stack.push?_of_lt hlt item
          rw [hpush'] at hpush
          injection hpush with hpush
          rw [Stack.get?_eq, ← hpush, hitems]
          rfl
        · rw [Stack.push?_of_not_lt hlt] at hpush
          cases hpush
      · trivial
  | pop =>
      simp only [handle]
      split
      · exact ⟨none, hasTop_none _, hT _⟩
      · trivial
  | poke index item =>
      simp only [handle]
      split
      · exact ⟨none, hasTop_none _, hT⟩
      · trivial
  | peek | load | store =>
      simp only [handle]
      split
      · exact ⟨a, h, hT _⟩
      · trivial
  | charge cost =>
      simp only [handle]
      split
      · trivial
      · exact ⟨a, h, hT _⟩
  | checkMemory offset size =>
      refine (grows_handle env s offset size).mono ?_ (fun _ _ _ => trivial) fun _ => id
      rintro r _ ⟨memory, gas, ghost, rfl, -⟩
      exact ⟨a, h, hT r⟩
  | exit | fault => trivial
  | _ => exact ⟨a, h, hT _⟩

section Top

attribute [local simp] TopItem Exec.perform Exec.pop Exec.push Exec.poke Exec.charge
  Exec.checkMemory Exec.load Exec.gasLeft Exec.setGasLeft Exec.int64 Exec.setReturnData
  Exec.request Exec.Host.accountExists Exec.Host.accessAccount

@[local simp] theorem topItem_exit {α : Type} (status : StatusCode)
    (Q : α → Option UInt256 → Prop) (a : Option UInt256) : (Exec.exit status).Sat TopItem Q a :=
  nofun

/-- `call` assumes failure: there is a zero on the stack after its payments. -/
theorem payCall_topItem (kind : CallKind) (isStatic : Bool) (ctx : Context) (a : Option UInt256) :
    (payCall kind isStatic ctx).Sat TopItem (fun _ a' => a' = some 0) a := by
  simp [payCall, readCall, popCallValue, chargeColdAccount, loadRegion, callCost]

theorem forwardGas_topItem (ctx : Context) (gas value : UInt256) (a : Option UInt256) :
    (forwardGas ctx gas value).Sat TopItem (fun _ a' => a' = a) a := by
  simp [forwardGas, callGas, allButOne64th, addStipend]

end Top

/-- The top item a run leaves. -/
theorem top_of_ok {α : Type} {p : Exec α} {x : α} {a : Option UInt256} {item : UInt256}
    (hp : p.Sat TopItem (fun _ a' => a' = some item) a) (hs : HasTop a s)
    (h : p.run env s = .ok x t) : t.stack.get? 0 = some item := by
  have hrun := run_meets (fun o a s Q hR hT => handle_topItem env o hR hT) hs hp
  rw [← Exec.run, h] at hrun
  obtain ⟨a', htop, rfl⟩ := hrun
  exact htop item rfl

/-- An item that is on the stack already can be assigned to its slot. -/
theorem set?_top {stack : Stack} {item : UInt256} (h : stack.get? 0 = some item) :
    stack.set? 0 item = some stack := by
  unfold Stack.get? at h
  split at h
  · rename_i hlt
    rw [Stack.set?, if_pos hlt]
    congr 2
    apply List.ext_getElem?
    intro i
    rw [List.getElem?_set]
    split
    · rename_i hi
      subst hi
      split
      · exact h.symm
      · rename_i hlen
        rw [List.getElem?_eq_none (Nat.le_of_not_lt hlen)]
    · rfl
  · cases h

/-! ## Gas in the range of its type -/

theorem handle_inInt64 (env : Env σ) {o : Op} (ho : o.Asks fun _ => False)
    (h : InInt64 s.gasLeft) :
    (handle env o s).Meets (fun _ s' => InInt64 s'.gasLeft) (fun _ _ => True) fun _ => True := by
  cases o with
  | setGasLeft => exact ho.elim
  | pop | push | peek | poke | load | store =>
      simp only [handle]
      split
      · exact h
      · trivial
  | charge cost =>
      simp only [handle]
      split
      · trivial
      · exact inInt64_toInt64 _
  | checkMemory offset size =>
      refine (grows_handle env s offset size).mono ?_ (fun _ _ _ => trivial) fun _ => id
      rintro r _ ⟨memory, gas, ghost, rfl, rfl | hgas⟩
      · exact h
      · exact hgas
  | exit | fault => trivial
  | _ => exact h

theorem inInt64_of_ok {α : Type} {p : Exec α} {x : α} (hp : p.Uses (Op.Asks fun _ => False))
    (hs : InInt64 s.gasLeft) (h : p.run env s = .ok x t) : InInt64 t.gasLeft := by
  have hrun := run_of_uses (R := fun s : ExecutionState σ => InInt64 s.gasLeft)
    (fun o s ho hs => handle_inInt64 env ho hs) hp hs
  rw [← Exec.run, h] at hrun
  exact hrun

/-- The state in which the message of a call is ready. -/
theorem forwardGas_ready {gas value : UInt256} {msgGas : Int} (hs : InInt64 s.gasLeft)
    (h : (forwardGas ctx gas value).run env s = .ok msgGas t) :
    InInt64 t.gasLeft ∧ t.returnData = Buffer.empty := by
  rw [forwardGas, Exec.run, run_bind] at h
  obtain ⟨f, s1, hgas, h⟩ := Outcome.bind_eq_ok h
  rw [run_bind] at h
  obtain ⟨f', s2, hadd, h⟩ := Outcome.bind_eq_ok h
  injection h with _ ht
  subst ht
  refine ⟨?_, rfl⟩
  unfold addStipend at hadd
  split at hadd
  · injection hadd with _ hs2
    rw [← hs2]
    exact inInt64_toInt64 _
  · injection hadd with _ hs2
    have hkeeps := run_keepsGas env (keepsGas_callGas ctx gas) s
    rw [Exec.run, hgas] at hkeeps
    rw [← hs2]
    exact hkeeps.symm ▸ hs

/-! ## The instructions without the gate -/

/-- `call` if nothing stops the call. -/
def callUngated (kind : CallKind) (isStatic : Bool) (ctx : Context) : Exec Unit := do
  let x ← payCall kind isStatic ctx
  let msgGas ← forwardGas ctx x.gas x.value
  sendCall (callMessage kind isStatic ctx x.dst x.value x.input msgGas) x.outputOffset x.outputSize

/-- `create` if nothing stops the creation. -/
def createUngated (kind : CallKind) (ctx : Context) : Exec Unit := do
  let x ← payCreate kind ctx
  forwardCreate kind ctx x

/-- The host of `env'` answers every call with a failure status, empty output and all of the gas
unspent, and everything else as the host of `env` does. -/
structure Refuses (env env' : Env σ) : Prop where
  status : ∀ msg st, (env'.host (.call msg) st).1.statusCode ≠ .success
  output : ∀ msg st, (env'.host (.call msg) st).1.output = Buffer.empty
  gasLeft : ∀ msg st, (env'.host (.call msg) st).1.gasLeft = msg.gas
  other : ∀ q st, (∀ msg, q ≠ .call msg) → env'.host q st = env.host q st
  keccak256 : env'.keccak256 = env.keccak256
  alloc : env'.alloc = env.alloc

/-- The stack, the memory, the gas left and the return data are the same. -/
structure LeavesSame (t t' : ExecutionState σ) : Prop where
  stack : t'.stack = t.stack
  memory : t'.memory = t.memory
  gasLeft : t'.gasLeft = t.gasLeft
  returnData : t'.returnData = t.returnData

/-- The balance is the only thing the gate asks for, and asking leaves no trace in the frame. -/
theorem LeavesSame.of_stopped {value : UInt256} {t' : ExecutionState σ} (h : LeavesSame s t')
    (ht : t = s ∨ t = askBalance env ctx value s) : LeavesSame t t' := by
  rcases ht with rfl | rfl
  · exact h
  · obtain ⟨host, calls, hask⟩ := askBalance_eq env ctx value s
    rw [hask]
    exact ⟨h.stack, h.memory, h.gasLeft, h.returnData⟩

theorem Refuses.handle_eq (h : Refuses env env') {o : Op} (ho : o.Queries) (s : ExecutionState σ) :
    handle env' o s = handle env o s := by
  cases o with
  | request q =>
      have hq : env'.host q s.host = env.host q s.host := by
        apply h.other
        rintro msg rfl
        cases ho
      simp only [handle, hq]
  | checkMemory offset size => simp only [handle, h.alloc]
  | keccak256 data => simp only [handle, h.keccak256]
  | _ => rfl

theorem Refuses.run_eq (h : Refuses env env') {α : Type} {p : Exec α} (hp : p.Uses Op.Queries)
    (s : ExecutionState σ) : p.run env' s = p.run env s :=
  run_congr_of_uses (fun _ s ho => h.handle_eq ho s) hp s

/-- Nothing is spent if all of the gas comes back. -/
theorem gasLeft_spend_zero (h : InInt64 s.gasLeft) : (spend 0 s).gasLeft = s.gasLeft := by
  show toInt64 (s.gasLeft - toInt64 0) = s.gasLeft
  rw [show toInt64 0 = 0 from rfl, Int.sub_zero, toInt64_of_inInt64 h]

/-- A call that is refused leaves the state as it was. -/
theorem sendCall_refused (h : Refuses env env') (msg : Message) (outputOffset outputSize : UInt256)
    (htop : s.stack.get? 0 = some 0) (hgas : InInt64 s.gasLeft)
    (hdata : s.returnData = Buffer.empty) :
    ∃ t, (sendCall msg outputOffset outputSize).run env' s = .ok () t ∧ LeavesSame s t := by
  have hstatus : ((env'.host (.call msg) s.host).1.statusCode == .success) = false := by
    simpa using h.status msg s.host
  have hcopied : outputCopied outputOffset outputSize (env'.host (.call msg) s.host).1.output
      s.memory = some s.memory := by
    rw [h.output]
    unfold outputCopied
    dsimp only
    rw [show Buffer.empty.size = 0 from rfl, Nat.min_zero, if_neg (Nat.lt_irrefl 0)]
  refine ⟨callEnded env' msg s.stack s.memory s, ?_, rfl, rfl, ?_, ?_⟩
  · rw [run_sendCall, hstatus]
    simp only [show UInt256.ofBool false = 0 from rfl, set?_top htop, hcopied]
  · unfold callEnded
    dsimp only
    rw [h.gasLeft, Int.sub_self]
    exact gasLeft_spend_zero hgas
  · exact (h.output msg s.host).trans hdata.symm

theorem call_stopped (h : Refuses env env') (hgas : InInt64 s.gasLeft) {kind : CallKind}
    {isStatic : Bool} {x : CallOperands} {paid ready : ExecutionState σ} {msgGas : Int}
    (hpay : (payCall kind isStatic ctx).run env s = .ok x paid)
    (hforward : (forwardGas ctx x.gas x.value).run env paid = .ok msgGas ready)
    (hstops : ¬ Admits env ctx x.value ready) :
    ∃ t t', (call kind isStatic ctx).run env s = .ok () t ∧
      (callUngated kind isStatic ctx).run env' s = .ok () t' ∧ LeavesSame t t' := by
  set msg := callMessage kind isStatic ctx x.dst x.value x.input msgGas with hmsg
  have hpays : (payCall kind isStatic ctx).Uses (Op.Asks fun _ => False) :=
    uses_payCall kind isStatic
  have hpaid : HasTop (some 0) paid := by
    rintro _ ⟨⟩
    exact top_of_ok (payCall_topItem kind isStatic ctx none) (fun _ h => nomatch h) hpay
  have htop : ready.stack.get? 0 = some 0 :=
    top_of_ok (forwardGas_topItem ctx x.gas x.value (some 0)) hpaid hforward
  obtain ⟨hready, hdata⟩ := forwardGas_ready (inInt64_of_ok hpays hgas hpay) hforward
  obtain ⟨t', hsend, hsame⟩ :=
    sendCall_refused h msg x.outputOffset x.outputSize htop hready hdata
  -- up to the gate the two hosts are asked the same questions, so the ungated version
  -- arrives at the same state and only then meets the refusal
  have hungated : (callUngated kind isStatic ctx).run env' s = .ok () t' := by
    have hpay' := (h.run_eq (hpays.mono fun _ => Op.Asks.queries) s).trans hpay
    have hforward' := (h.run_eq (uses_forwardGas x.gas x.value) paid).trans hforward
    rw [Exec.run] at hpay' hforward'
    rw [callUngated, Exec.run, run_bind, hpay']
    show run (handle env') (forwardGas ctx x.gas x.value >>= _) paid = _
    rw [run_bind, hforward']
    exact hsend
  rcases run_gated env ctx x.value (sendCall msg x.outputOffset x.outputSize) ready with
    ⟨hadmits, -⟩ | ⟨-, t, ht, hrun⟩
  · exact absurd hadmits hstops
  · refine ⟨t, t', ?_, hungated, ?_⟩
    · rw [Exec.run] at hpay hforward
      rw [call_eq, Exec.run, run_bind, hpay]
      show run (handle env) (forwardGas ctx x.gas x.value >>= _) paid = _
      rw [run_bind, hforward]
      exact hrun
    · exact hsame.of_stopped ht

/-- The state in which the message of a creation is ready. -/
theorem payCreate_ready {kind : CallKind} {x : CreateOperands}
    (h : (payCreate kind ctx).run env s = .ok x t) :
    t.returnData = Buffer.empty ∧ Checked x.initCodeOffset x.initCodeSize t.memory.size := by
  obtain ⟨a, hcovers, hmem⟩ := covers_of_ok (payCreate_regions kind ctx [])
    ⟨Memory.Grown.refl s.memory, fun _ h => absurd h List.not_mem_nil⟩ h
  refine ⟨?_, hcovers.checked _ hmem⟩
  by_cases hstatic : ctx.msg.isStatic = true
  · simp only [payCreate, hstatic, if_true] at h
    cases h
  · simp only [payCreate, hstatic, Bool.false_eq_true, if_false] at h
    obtain ⟨endowment, s1, -, h⟩ := run_bind_eq_ok h
    obtain ⟨offset, s2, -, h⟩ := run_bind_eq_ok h
    obtain ⟨size, s3, -, h⟩ := run_bind_eq_ok h
    obtain ⟨_, s4, -, h⟩ := run_bind_eq_ok h
    obtain ⟨salt, s5, -, h⟩ := run_bind_eq_ok h
    obtain ⟨_, s6, -, h⟩ := run_bind_eq_ok h
    injection h with _ ht
    rw [← ht]

theorem loadRegion_of_checked (env : Env σ) {offset size : UInt256}
    (h : Checked offset size s.memory.size) :
    ∃ bytes, (loadRegion offset size).run env s = .ok bytes s := by
  unfold loadRegion
  split
  · rename_i hpos
    refine ⟨(s.memory.bytes.drop offset.toSize).take size.toSize,
      (run_perform (handle env) (.load offset.toSize size.toSize) s).trans ?_⟩
    simp only [handle, Memory.load?_of_le (h.end_le (Nat.ne_of_gt hpos))]
  · exact ⟨[], rfl⟩

/-- A creation that is refused leaves the state as it was. -/
theorem forwardCreate_refused (h : Refuses env env') (kind : CallKind) (ctx : Context)
    {x : CreateOperands}
    (hgas : InInt64 s.gasLeft) (hdata : s.returnData = Buffer.empty)
    (hregion : Checked x.initCodeOffset x.initCodeSize s.memory.size) :
    ∃ t, (forwardCreate kind ctx x).run env' s = .ok () t ∧ LeavesSame s t := by
  obtain ⟨f, ghost, hcreate⟩ := createGas_total env' ctx s
  obtain ⟨input, hload⟩ := loadRegion_of_checked env' (s := { s with ghost := ghost }) hregion
  set msg := createMessage kind ctx x.endowment x.salt input f with hmsg
  refine ⟨createEnded env' msg s.stack { s with ghost := ghost }, ?_, rfl, rfl, ?_, ?_⟩
  · rw [Exec.run] at hcreate hload
    rw [forwardCreate, Exec.run, run_bind, hcreate]
    show run (handle env') (loadRegion x.initCodeOffset x.initCodeSize >>= _) _ = _
    rw [run_bind, hload]
    have hsend := run_sendCreate env' msg { s with ghost := ghost }
    rw [if_neg (h.status msg s.host)] at hsend
    exact hsend
  · unfold createEnded
    dsimp only
    rw [h.gasLeft, Int.sub_self]
    exact gasLeft_spend_zero hgas
  · exact (h.output msg s.host).trans hdata.symm

theorem create_stopped (h : Refuses env env') (hgas : InInt64 s.gasLeft) {kind : CallKind}
    {x : CreateOperands} {paid : ExecutionState σ}
    (hpay : (payCreate kind ctx).run env s = .ok x paid)
    (hstops : ¬ Admits env ctx x.endowment paid) :
    ∃ t t', (create kind ctx).run env s = .ok () t ∧
      (createUngated kind ctx).run env' s = .ok () t' ∧ LeavesSame t t' := by
  have hpays : (payCreate kind ctx).Uses (Op.Asks fun _ => False) := uses_payCreate kind
  obtain ⟨hdata, hregion⟩ := payCreate_ready hpay
  obtain ⟨t', hsend, hsame⟩ :=
    forwardCreate_refused h kind ctx (inInt64_of_ok hpays hgas hpay) hdata hregion
  have hungated : (createUngated kind ctx).run env' s = .ok () t' := by
    have hpay' := (h.run_eq (hpays.mono fun _ => Op.Asks.queries) s).trans hpay
    rw [Exec.run] at hpay'
    rw [createUngated, Exec.run, run_bind, hpay']
    exact hsend
  rcases run_gated env ctx x.endowment (forwardCreate kind ctx x) paid with
    ⟨hadmits, -⟩ | ⟨-, t, ht, hrun⟩
  · exact absurd hadmits hstops
  · refine ⟨t, t', ?_, hungated, ?_⟩
    · rw [Exec.run] at hpay
      rw [create_eq, Exec.run, run_bind, hpay]
      exact hrun
    · exact hsame.of_stopped ht

/-- Calls and creations are gated by the depth and the balance, and a call that is stopped leaves
the state that a refused call would have left. -/
theorem calls_are_gated (env env' : Env σ) (ctx : Context) (s : ExecutionState σ)
    (hdepth : -2 ^ 31 ≤ ctx.msg.depth) (hgas : InInt64 s.gasLeft) (hrefuses : Refuses env env') :
    (∀ kind isStatic,
      ((call kind isStatic ctx).run env s).Meets (fun _ t => AtMostOneCall ctx s t)
        (fun _ t => ∀ msg result, ¬ Makes s t msg result) (fun _ => True) ∧
      ∀ x paid msgGas ready, (payCall kind isStatic ctx).run env s = .ok x paid →
        (forwardGas ctx x.gas x.value).run env paid = .ok msgGas ready →
        ¬ Admits env ctx x.value ready →
        ∃ t t', (call kind isStatic ctx).run env s = .ok () t ∧
          (callUngated kind isStatic ctx).run env' s = .ok () t' ∧ LeavesSame t t') ∧
    (∀ kind,
      ((create kind ctx).run env s).Meets (fun _ t => AtMostOneCall ctx s t)
        (fun _ t => ∀ msg result, ¬ Makes s t msg result) (fun _ => True) ∧
      ∀ x paid, (payCreate kind ctx).run env s = .ok x paid → ¬ Admits env ctx x.endowment paid →
        ∃ t t', (create kind ctx).run env s = .ok () t ∧
          (createUngated kind ctx).run env' s = .ok () t' ∧ LeavesSame t t') := by
  refine ⟨fun kind isStatic => ⟨?_, ?_⟩, fun kind => ⟨?_, ?_⟩⟩
  · cases hrun : (call kind isStatic ctx).run env s with
    | ok u t => exact call_atMostOneCall hdepth hrun
    | exit status t => exact (call_noEffect hrun).not_makes
    | fault f => trivial
  · intro x paid msgGas ready hpay hforward hstops
    exact call_stopped hrefuses hgas hpay hforward hstops
  · cases hrun : (create kind ctx).run env s with
    | ok u t => exact create_atMostOneCall hdepth hrun
    | exit status t => exact (create_noEffect hrun).not_makes
    | fault f => trivial
  · intro x paid hpay hstops
    exact create_stopped hrefuses hgas hpay hstops

/-- The environment with a host that refuses all calls. -/
def Env.refusing (env : Env σ) : Env σ :=
  { env with
    host := fun q st =>
      match q with
      | .call msg => (⟨.failure, msg.gas, .empty, 0⟩, st)
      | q => env.host q st }

theorem refuses_refusing (env : Env σ) : Refuses env env.refusing where
  status _ _ := by simp [Env.refusing]
  output _ _ := rfl
  gasLeft _ _ := rfl
  other q st h := by
    cases q with
    | call msg => exact absurd rfl (h msg)
    | _ => rfl
  keccak256 := rfl
  alloc := rfl

/-- A frame at the depth limit. -/
def deepest : Context :=
  { truncatedPush.ctx with
    msg := { gas := 100, depth := 1024 }
    input_size_lt := Buffer.size_nil_lt }

set_option maxRecDepth 4000 in
theorem calls_are_gated_deepest :
    ∃ t t', (call .call false deepest).run truncatedPush.env sevenZeros = .ok () t ∧
      (callUngated .call false deepest).run truncatedPush.env.refusing sevenZeros = .ok () t' ∧
      LeavesSame t t' := by
  have hpay : ∃ x paid msgGas ready,
      (payCall .call false deepest).run truncatedPush.env sevenZeros = .ok x paid ∧
      (forwardGas deepest x.gas x.value).run truncatedPush.env paid = .ok msgGas ready :=
    ⟨_, _, _, _, rfl, rfl⟩
  obtain ⟨x, paid, msgGas, ready, hpay, hforward⟩ := hpay
  refine ((calls_are_gated truncatedPush.env truncatedPush.env.refusing deepest sevenZeros
    (by decide) (by decide) (refuses_refusing _)).1 .call false).2 x paid msgGas ready
      hpay hforward ?_
  exact fun hadmits => absurd hadmits.1 (by decide)

end Ivmone
