import Ivmone.Failures
import Ivmone.Payments

/-!
# Gas forwarding

A call or creation forwards gas that its caller owns, apart from the stipend, and keeps what the
63/64 rule demands. What the callee has not used comes back; the caller never ends with more gas
than it had before the instruction.
-/

set_option autoImplicit false

namespace Ivmone

open Lib Lib.Program Instructions

variable {σ : Type} {env : Env σ} {ctx : Context} {s s' t : ExecutionState σ}

/-! ## The call among the new calls -/

/-- Between two states the host was asked to make a call, and answered with the result. -/
def Makes (s t : ExecutionState σ) (msg : Message) (result : CallResult) : Prop :=
  ∃ new, t.calls = s.calls ++ new ∧ ⟨.call msg, result⟩ ∈ new

theorem NoEffect.not_makes (h : NoEffect s t) (msg : Message) (result : CallResult) :
    ¬ Makes s t msg result := by
  rintro ⟨new, heq, hmem⟩
  obtain ⟨new', heq', hnone⟩ := h
  rw [heq', List.append_cancel_left_eq] at heq
  have heffect := hnone _ (heq ▸ hmem)
  cases heffect

/-- If the last call is the only one with an effect, it is the one that was made. -/
theorem NoEffect.makes_last (h : NoEffect s s') {msg msg' : Message} {result result' : CallResult}
    (hcalls : t.calls = s'.calls ++ [⟨.call msg, result⟩]) (hmakes : Makes s t msg' result') :
    msg' = msg ∧ result' = result := by
  obtain ⟨new, heq, hmem⟩ := hmakes
  obtain ⟨new', heq', hnone⟩ := h
  rw [hcalls, heq', List.append_assoc, List.append_cancel_left_eq] at heq
  rw [← heq] at hmem
  rcases List.mem_append.1 hmem with hmem | hmem
  · have heffect := hnone _ hmem
    cases heffect
  · have hlast := List.mem_singleton.1 hmem
    injection hlast with hmsg hresult
    injection hmsg with hmsg
    subst hmsg
    exact ⟨rfl, hresult⟩

theorem NoEffect.makes (h : NoEffect s s') {msg : Message} {result : CallResult}
    (hcalls : t.calls = s'.calls ++ [⟨.call msg, result⟩]) : Makes s t msg result := by
  obtain ⟨new, heq, -⟩ := h
  refine ⟨new ++ [⟨.call msg, result⟩], ?_, List.mem_append_right _ (List.mem_singleton.2 rfl)⟩
  rw [hcalls, heq, List.append_assoc]

theorem noEffect_askBalance (env : Env σ) (ctx : Context) (value : UInt256) (s : ExecutionState σ) :
    NoEffect s (askBalance env ctx value s) := by
  unfold askBalance
  split
  · refine ⟨[⟨.getBalance ctx.msg.recipient, _⟩], rfl, fun c hc => ?_⟩
    rw [List.mem_singleton.1 hc]
    rfl
  · exact .refl s

theorem noEffect_of_ok {α : Type} {p : Exec α} {x : α} (hp : p.Uses Op.Queries)
    (h : p.run env s = .ok x t) : NoEffect s t := by
  have hrun := run_queries env hp s
  rw [h] at hrun
  exact hrun

/-- There is no effect until the call is ready to be made. -/
theorem noEffect_ready {kind : CallKind} {isStatic : Bool} {x : CallOperands} {msgGas : Int}
    {paid ready : ExecutionState σ} (hpay : (payCall kind isStatic ctx).run env s = .ok x paid)
    (hforward : (forwardGas ctx x.gas x.value).run env paid = .ok msgGas ready) :
    NoEffect s ready ∧ NoEffect s (askBalance env ctx x.value ready) := by
  have hpaid : NoEffect s paid :=
    noEffect_of_ok ((uses_payCall kind isStatic).mono fun _ => Op.Asks.queries) hpay
  have hready := hpaid.trans (noEffect_of_ok (uses_forwardGas x.gas x.value) hforward)
  exact ⟨hready, hready.trans (noEffect_askBalance env ctx x.value ready)⟩

/-! ## The gas after a call -/

/-- Gas that is there can be spent. -/
theorem spend_gas {used : Int} (h0 : 0 ≤ used) (hle : used ≤ s.gasLeft) (h63 : s.gasLeft < 2 ^ 63) :
    (spend used s).gasLeft = s.gasLeft - used ∧ (spend used s).ghost = s.ghost := by
  have h1 : InInt64 used := ⟨by omega, by omega⟩
  have h2 : InInt64 (s.gasLeft - used) := ⟨by omega, by omega⟩
  unfold spend ExecutionState.setGas
  rw [noteInt64_of_inInt64 h1, toInt64_of_inInt64 h1, toInt64_of_inInt64 h2, decide_eq_true h2,
    Bool.not_true, Bool.or_false]
  exact ⟨rfl, rfl⟩

/-- What an instruction that starts with the gas `start` and has `g` left after its payments does
with it: `f` and the stipend go to the message, and `final` is left in the end. -/
structure Conserves (ctx : Context) (start g f stipend : Int) (msg : Message) (result : CallResult)
    (final : Int) : Prop where
  g_nonneg : 0 ≤ g
  message : msg.gas = f + stipend
  forwarded : Forwarded ctx g f
  settled : final = g + stipend - (msg.gas - result.gasLeft)
  kept : g - f ≤ final
  not_more : final ≤ start

/-- The gas a host returns settles the account of the caller. -/
theorem conserves_of_bounded {start g f stipend : Int} {msg : Message} {result : CallResult}
    {final : Int} (hforwarded : Forwarded ctx g f) (hmsg : msg.gas = f + stipend)
    (hroom : g + stipend ≤ start) (h0 : 0 ≤ result.gasLeft) (hle : result.gasLeft ≤ msg.gas)
    (hfinal : final = g + stipend - (msg.gas - result.gasLeft)) :
    Conserves ctx start g f stipend msg result final := by
  have hnonneg := hforwarded.nonneg
  have hown := hforwarded.le
  exact ⟨by omega, hmsg, hforwarded, hfinal, by omega, by omega⟩

theorem call_conserves {kind : CallKind} {isStatic : Bool} {msg : Message} {result : CallResult}
    (hhost : env.host.CallBounded) (h0 : 0 ≤ s.gasLeft) (h63 : s.gasLeft < 2 ^ 63)
    (h : (call kind isStatic ctx).run env s = .ok () t) (hmakes : Makes s t msg result) :
    ∃ x paid, ∃ f : Int, (payCall kind isStatic ctx).run env s = .ok x paid ∧ f ≤ x.gas.toNat ∧
      Conserves ctx s.gasLeft paid.gasLeft f (stipend x.value) msg result t.gasLeft ∧
      t.ghost.overflow = s.ghost.overflow := by
  obtain ⟨x, paid, msgGas, ready, hpay, hforward, hend⟩ := call_ok h
  obtain ⟨hspent, hroom, -⟩ := payCall_ok h0 h63 hpay
  have hready63 : paid.gasLeft + stipend x.value < 2 ^ 63 := lt_of_le_of_lt hroom h63
  obtain ⟨f, rfl, hforwarded, hrequested, hready⟩ := forwardGas_ok hspent.nonneg hready63 hforward
  obtain ⟨hqueries, hasked⟩ := noEffect_ready hpay hforward
  rcases hend with ⟨-, stack, memory, -, rfl⟩ | ⟨-, rfl | rfl⟩
  · obtain ⟨rfl, rfl⟩ := hasked.makes_last rfl hmakes
    -- What was forwarded is owned, so the settlement does not overflow.
    have hf := hforwarded.nonneg
    have hown := hforwarded.le
    have hstipend := stipend_nonneg x.value
    obtain ⟨host, calls, hask⟩ := askBalance_eq env ctx x.value ready
    generalize hasks : askBalance env ctx x.value ready = asked at *
    have hgas : asked.gasLeft = paid.gasLeft + stipend x.value := by
      rw [hask, hready]
    have hghost : asked.ghost = paid.ghost := by
      rw [hask, hready]
    set msg := callMessage kind isStatic ctx x.dst x.value x.input (f + stipend x.value) with hmsg
    have hmsgGas : msg.gas = f + stipend x.value := rfl
    obtain ⟨hr0, hr⟩ := hhost msg asked.host (by omega)
    have hended : (callEnded env msg stack memory asked).gasLeft =
          asked.gasLeft - (msg.gas - (env.host (.call msg) asked.host).1.gasLeft) ∧
        (callEnded env msg stack memory asked).ghost = asked.ghost :=
      spend_gas (by omega) (show _ ≤ asked.gasLeft by omega) (show asked.gasLeft < 2 ^ 63 by omega)
    refine ⟨x, paid, f, hpay, hrequested, ?_, ?_⟩
    · exact conserves_of_bounded hforwarded hmsgGas hroom hr0 hr (by rw [hended.1, hgas])
    · rw [hended.2, hghost]
      exact hspent.overflow
  · exact absurd hmakes (hqueries.not_makes msg result)
  · exact absurd hmakes (hasked.not_makes msg result)

theorem create_conserves {kind : CallKind} {msg : Message} {result : CallResult}
    (hhost : env.host.CallBounded) (h0 : 0 ≤ s.gasLeft) (h63 : s.gasLeft < 2 ^ 63)
    (h : (create kind ctx).run env s = .ok () t) (hmakes : Makes s t msg result) :
    ∃ x paid, ∃ f : Int, (payCreate kind ctx).run env s = .ok x paid ∧
      Conserves ctx s.gasLeft paid.gasLeft f 0 msg result t.gasLeft ∧
      t.ghost.overflow = s.ghost.overflow := by
  obtain ⟨x, paid, hpay, hend⟩ := create_ok h
  have hspent := payCreate_ok h0 h63 hpay
  have hqueries : NoEffect s paid :=
    noEffect_of_ok ((uses_payCreate kind).mono fun _ => Op.Asks.queries) hpay
  have hasked : NoEffect s (askBalance env ctx x.endowment paid) :=
    hqueries.trans (noEffect_askBalance env ctx x.endowment paid)
  rcases hend with ⟨-, msgGas, ready, input, stack, hcreate, rfl⟩ | ⟨-, rfl | rfl⟩
  · obtain ⟨host, calls, hask⟩ := askBalance_eq env ctx x.endowment paid
    generalize hasks : askBalance env ctx x.endowment paid = asked at *
    have hgas : asked.gasLeft = paid.gasLeft := by
      rw [hask]
    have hghost : asked.ghost = paid.ghost := by
      rw [hask]
    have hpaid63 : asked.gasLeft < 2 ^ 63 := by
      rw [hgas]
      exact lt_of_le_of_lt hspent.le h63
    obtain ⟨rfl, hforwarded⟩ := createGas_ok (hgas ▸ hspent.nonneg) hpaid63 hcreate
    -- the frame made no call before this one, so the call in the record is this one
    obtain ⟨rfl, rfl⟩ := hasked.makes_last rfl hmakes
    have hf := hforwarded.nonneg
    have hown := hforwarded.le
    have hle := hspent.le
    set msg := createMessage kind ctx x.endowment x.salt input msgGas with hmsg
    have hmsgGas : msg.gas = msgGas := rfl
    obtain ⟨hr0, hr⟩ := hhost msg ready.host (by omega)
    have hended : (createEnded env msg stack ready).gasLeft =
          ready.gasLeft - (msg.gas - (env.host (.call msg) ready.host).1.gasLeft) ∧
        (createEnded env msg stack ready).ghost = ready.ghost :=
      spend_gas (by omega) (show _ ≤ ready.gasLeft by omega) (show ready.gasLeft < 2 ^ 63 by omega)
    refine ⟨x, paid, msgGas, hpay, ?_, ?_⟩
    · exact conserves_of_bounded (hgas ▸ hforwarded) (by omega) (by omega) hr0 hr (by omega)
    · rw [hended.2, hghost]
      exact hspent.overflow
  · exact absurd hmakes (hqueries.not_makes msg result)
  · exact absurd hmakes (hasked.not_makes msg result)

theorem payCall_value {kind : CallKind} {isStatic : Bool} {x : CallOperands}
    (h : (payCall kind isStatic ctx).run env s = .ok x t)
    (hnone : isStatic = true ∨ kind = .delegatecall) : x.value = 0 := by
  have hany : ∀ o (s' : ExecutionState σ), True → True →
      (handle env o s').Meets (fun _ _ => True) (fun _ _ => True) fun _ => True := by
    intro o s' _ _
    cases handle env o s' with
    | ok | exit | fault => trivial
  have hrun := run_of_footprint hany (payCall_noValue ctx hnone) (s := s) trivial
  rw [← Exec.run, h] at hrun
  exact hrun.2

/-- Gas forwarding is conservative. The gas `g` is what the payments of the instruction leave. -/
theorem gas_forwarding_is_conservative (env : Env σ) (ctx : Context) (s : ExecutionState σ)
    (hhost : env.host.CallBounded) (h0 : 0 ≤ s.gasLeft) (h63 : s.gasLeft ≤ 2 ^ 63 - 1) :
    (∀ kind isStatic, ((call kind isStatic ctx).run env s).Meets
      (fun _ t => ∀ msg result, Makes s t msg result →
        ∃ x paid, ∃ f : Int, (payCall kind isStatic ctx).run env s = .ok x paid ∧
          (isStatic = true ∨ kind = .delegatecall → x.value = 0) ∧ f ≤ x.gas.toNat ∧
          Conserves ctx s.gasLeft paid.gasLeft f (stipend x.value) msg result t.gasLeft ∧
          t.ghost.overflow = s.ghost.overflow)
      (fun _ t => ∀ msg result, ¬ Makes s t msg result) fun _ => True) ∧
    (∀ kind, ((create kind ctx).run env s).Meets
      (fun _ t => ∀ msg result, Makes s t msg result →
        ∃ x paid, ∃ f : Int, (payCreate kind ctx).run env s = .ok x paid ∧
          Conserves ctx s.gasLeft paid.gasLeft f 0 msg result t.gasLeft ∧
          t.ghost.overflow = s.ghost.overflow)
      (fun _ t => ∀ msg result, ¬ Makes s t msg result) fun _ => True) := by
  refine ⟨fun kind isStatic => ?_, fun kind => ?_⟩
  · cases hrun : (call kind isStatic ctx).run env s with
    | ok u t =>
        intro msg result hmakes
        obtain ⟨x, paid, f, hpay, hrequested, hconserves, hoverflow⟩ :=
          call_conserves hhost h0 (by omega) hrun hmakes
        exact ⟨x, paid, f, hpay, payCall_value hpay, hrequested, hconserves, hoverflow⟩
    | exit status t => exact (call_noEffect hrun).not_makes
    | fault f => trivial
  · cases hrun : (create kind ctx).run env s with
    | ok u t =>
        intro msg result hmakes
        exact create_conserves hhost h0 (by omega) hrun hmakes
    | exit status t => exact (create_noEffect hrun).not_makes
    | fault f => trivial

/-- Seven zeros on the stack, which are the operands of a CALL. -/
def sevenZeros : ExecutionState Unit :=
  { truncatedPush.newState with
    gasLeft := 100000
    stack := ⟨List.replicate 1024 0, 7, Stack.length_zeros, by norm_num⟩ }

/-- The message of this CALL: it has no gas. -/
def zeroMessage : Message := callMessage .call false truncatedPush.ctx 0 0 [] 0

theorem makes_of_request {msg : Message} (hcalls : s.calls = [])
    (h : .call msg ∈ t.calls.map HostCall.request) : ∃ result, Makes s t msg result := by
  obtain ⟨⟨request, response⟩, hmem, hrequest⟩ := List.mem_map.1 h
  cases hrequest
  exact ⟨response, t.calls, by rw [hcalls, List.nil_append], hmem⟩

set_option maxRecDepth 4000 in
theorem gas_forwarding_is_conservative_sevenZeros :
    ∃ t result, (call .call false truncatedPush.ctx).run truncatedPush.env sevenZeros = .ok () t ∧
      Makes sevenZeros t zeroMessage result ∧
      ∃ x paid, ∃ f : Int, (payCall .call false truncatedPush.ctx).run
        truncatedPush.env sevenZeros = .ok x paid ∧ f ≤ x.gas.toNat ∧
        Conserves truncatedPush.ctx 100000 paid.gasLeft f (stipend x.value) zeroMessage result
          t.gasLeft := by
  have hok : ∃ t, (call .call false truncatedPush.ctx).run truncatedPush.env sevenZeros = .ok () t ∧
      t.calls.map HostCall.request = [.accessAccount 0, .call zeroMessage] :=
    ⟨_, rfl, by decide +kernel⟩
  obtain ⟨t, hrun, hcalls⟩ := hok
  obtain ⟨result, hmakes⟩ := makes_of_request (s := sevenZeros) rfl
    (hcalls ▸ List.mem_cons_of_mem _ (List.mem_singleton.2 rfl))
  have hall := (gas_forwarding_is_conservative truncatedPush.env truncatedPush.ctx sevenZeros
    emptyHost_callBounded (by decide) (by decide)).1 .call false
  rw [hrun] at hall
  obtain ⟨x, paid, f, hpay, -, hf, hconserves, -⟩ := hall zeroMessage result hmakes
  exact ⟨t, result, hrun, hmakes, x, paid, f, hpay, hf, hconserves⟩

end Ivmone
