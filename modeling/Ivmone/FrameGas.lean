import Ivmone.GasForwarding
import Ivmone.CallGating
import Ivmone.StaticMode
import Ivmone.Termination
import Ivmone.HostProtocol

/-!
# The gas of nested frames

What a frame can afford: a message with all but one 64th of its own gas, the stipend included, and,
from Istanbul on, an SSTORE only with more gas than the stipend. Both interpreters keep to this in
every round, and so does every chain of nested frames: the gas of a frame shrinks with its depth,
the depth is limited, and a frame that runs on a stipend, or any frame below it, cannot set storage
(`nested_frames_share_gas`).
-/

set_option autoImplicit false

namespace Ivmone

open Lib Lib.Program Instructions

/-! ## What can be afforded -/

/-- The most gas a frame can pass to another one. -/
def share (rev : Revision) (gas : Int) : Int :=
  if Revision.tangerineWhistle ≤ rev then gas - gas / 64 else gas

theorem share_mono (rev : Revision) {gas gas' : Int} (h : gas ≤ gas') :
    share rev gas ≤ share rev gas' := by
  unfold share
  split
  · omega
  · exact h

/-- The requests of a frame that has the given gas. -/
def HostRequest.Afforded (rev : Revision) (gas : Int) : HostRequest → Prop
  | .call msg => 0 ≤ msg.gas ∧ msg.gas ≤ share rev gas
  | .setStorage _ _ _ => Revision.istanbul ≤ rev → 2300 < gas
  | _ => True

theorem HostRequest.Afforded.mono {rev : Revision} {gas gas' : Int} {q : HostRequest}
    (h : q.Afforded rev gas) (hle : gas ≤ gas') : q.Afforded rev gas' := by
  cases q with
  | call msg => exact ⟨h.1, h.2.trans (share_mono rev hle)⟩
  | setStorage => exact fun hrev => lt_of_lt_of_le (h hrev) hle
  | _ => trivial

theorem HostRequest.afforded_of_noEffect {rev : Revision} {gas : Int} {q : HostRequest}
    (h : q.isEffect = false) : q.Afforded rev gas := by
  cases q with
  | call | setStorage => cases h
  | _ => trivial

variable {σ : Type} {env : Env σ} {ctx : Context} {s s' t : ExecutionState σ} {gas : Int}

/-- The new calls are requests of a frame that has the given gas. -/
abbrev Affords (rev : Revision) (gas : Int) (s s' : ExecutionState σ) : Prop :=
  Extends (fun c => c.request.Afforded rev gas) s s'

theorem Affords.mono {rev : Revision} {gas' : Int} (h : Affords rev gas s s') (hle : gas ≤ gas') :
    Affords rev gas' s s' := by
  obtain ⟨new, hcalls, hnew⟩ := h
  exact ⟨new, hcalls, fun c hc => (hnew c hc).mono hle⟩

theorem NoEffect.affords {rev : Revision} (h : NoEffect s s') : Affords rev gas s s' := by
  obtain ⟨new, hcalls, hnew⟩ := h
  exact ⟨new, hcalls, fun c hc => HostRequest.afforded_of_noEffect (hnew c hc)⟩

/-- A request after others without an effect. -/
theorem NoEffect.affords_snoc {rev : Revision} (h : NoEffect s s') {c : HostCall}
    (hcalls : t.calls = s'.calls ++ [c]) (hc : c.request.Afforded rev gas) :
    Affords rev gas s t := by
  refine h.affords.trans ⟨[c], hcalls, fun c' hc' => ?_⟩
  rw [List.mem_singleton.1 hc']
  exact hc

/-! ## Instructions -/

/-- A call with a value pays 9000 for it. -/
theorem payCall_pays_value {kind : CallKind} {isStatic : Bool} {x : CallOperands}
    (h0 : 0 ≤ s.gasLeft) (h63 : s.gasLeft < 2 ^ 63)
    (h : (payCall kind isStatic ctx).run env s = .ok x t) (hvalue : x.value ≠ 0) :
    t.gasLeft + 9000 ≤ s.gasLeft := by
  rw [payCall, Exec.run, run_bind] at h
  obtain ⟨y, s1, hread, h⟩ := Outcome.bind_eq_ok h
  rw [run_bind] at h
  obtain ⟨cost, s2, hcost, h⟩ := Outcome.bind_eq_ok h
  rw [run_bind] at h
  obtain ⟨_, s3, hcharge, h⟩ := Outcome.bind_eq_ok h
  injection h with hx ht
  subst hx ht
  have h1 := run_pays env (pays_readCall kind isStatic ctx) h0 h63
  rw [Exec.run, hread] at h1
  have h2 := run_of_footprint (fun o s' ho hs' => handle_pays env ho hs' h63)
    (pays_callCost kind ctx y.dst (y.value != 0)) h1
  rw [hcost] at h2
  obtain ⟨hspent, hnonneg, hle, hpaid⟩ := h2
  have hcovered := hpaid (by simpa using hvalue)
  obtain ⟨hgas, rfl⟩ :=
    charge_ok hspent.nonneg (lt_of_le_of_lt hspent.le h63) hnonneg (by omega) hcharge
  have hrest := hspent.le
  show s2.gasLeft - cost + 9000 ≤ s.gasLeft
  omega

/-- What is paid for the value outweighs the stipend. -/
theorem forwarded_le_share {start g f : Int} (value : UInt256) (h : Forwarded ctx g f)
    (hle : g ≤ start) (hvalue : value ≠ 0 → g + 9000 ≤ start) :
    0 ≤ f + stipend value ∧ f + stipend value ≤ share ctx.rev start := by
  have h0 := h.nonneg
  have hown := h.le
  have hrule := h.all_but_one_64th
  unfold stipend share
  by_cases hzero : value = 0
  · rw [if_pos hzero]
    split
    · have := hrule ‹_›
      omega
    · omega
  · rw [if_neg hzero]
    have hpaid := hvalue hzero
    split
    · have := hrule ‹_›
      omega
    · omega

theorem call_affords {kind : CallKind} {isStatic : Bool} (h0 : 0 ≤ s.gasLeft)
    (h63 : s.gasLeft < 2 ^ 63) :
    ((call kind isStatic ctx).run env s).Meets (fun _ t => Affords ctx.rev s.gasLeft s t)
      (fun _ t => Affords ctx.rev s.gasLeft s t) fun _ => True := by
  cases hrun : (call kind isStatic ctx).run env s with
  | exit status t => exact (call_noEffect hrun).affords
  | fault f => trivial
  | ok u t =>
      obtain ⟨x, paid, msgGas, ready, hpay, hforward, hend⟩ := call_ok hrun
      obtain ⟨hspent, hroom, -⟩ := payCall_ok h0 h63 hpay
      obtain ⟨f, rfl, hforwarded, -, -⟩ :=
        forwardGas_ok hspent.nonneg (lt_of_le_of_lt hroom h63) hforward
      obtain ⟨hqueries, hasked⟩ := noEffect_ready hpay hforward
      rcases hend with ⟨-, stack, memory, -, rfl⟩ | ⟨-, rfl | rfl⟩
      · exact hasked.affords_snoc rfl
          (forwarded_le_share x.value hforwarded hspent.le (payCall_pays_value h0 h63 hpay))
      · exact hqueries.affords
      · exact hasked.affords

theorem create_affords {kind : CallKind} (h0 : 0 ≤ s.gasLeft) (h63 : s.gasLeft < 2 ^ 63) :
    ((create kind ctx).run env s).Meets (fun _ t => Affords ctx.rev s.gasLeft s t)
      (fun _ t => Affords ctx.rev s.gasLeft s t) fun _ => True := by
  cases hrun : (create kind ctx).run env s with
  | exit status t => exact (create_noEffect hrun).affords
  | fault f => trivial
  | ok u t =>
      obtain ⟨x, paid, hpay, hend⟩ := create_ok hrun
      have hspent := payCreate_ok h0 h63 hpay
      have hqueries : NoEffect s paid :=
        noEffect_of_ok ((uses_payCreate kind).mono fun _ => Op.Asks.queries) hpay
      have hasked : NoEffect s (askBalance env ctx x.endowment paid) :=
        hqueries.trans (noEffect_askBalance env ctx x.endowment paid)
      rcases hend with ⟨-, msgGas, ready, input, stack, hcreate, rfl⟩ | ⟨-, rfl | rfl⟩
      · obtain ⟨host, calls, hask⟩ := askBalance_eq env ctx x.endowment paid
        have hgas : (askBalance env ctx x.endowment paid).gasLeft = paid.gasLeft := by
          rw [hask]
        obtain ⟨rfl, hforwarded⟩ := createGas_ok (hgas ▸ hspent.nonneg)
          (hgas ▸ lt_of_le_of_lt hspent.le h63) hcreate
        -- a creation has no stipend, whatever its endowment
        have hshare := forwarded_le_share 0 (hgas ▸ hforwarded) hspent.le
          fun h => absurd rfl h
        rw [stipend, if_pos rfl, Int.add_zero] at hshare
        exact hasked.affords_snoc rfl hshare
      · exact hqueries.affords
      · exact hasked.affords

theorem sstore_affords :
    ((sstore ctx).run env s).Meets (fun _ t => Affords ctx.rev s.gasLeft s t)
      (fun _ t => Affords ctx.rev s.gasLeft s t) fun _ => True := by
  have hqueries := run_queries env (uses_paySstore.mono fun _ => Op.Asks.queries :
    (paySstore ctx).Uses Op.Queries) s
  rw [Exec.run] at hqueries
  rw [sstore_eq, Exec.run, run_bind]
  generalize hpay : run (handle env) (paySstore ctx) s = r at hqueries ⊢
  cases r with
  | exit status t => exact NoEffect.affords hqueries
  | fault f => trivial
  | ok x paid =>
      obtain ⟨-, hsentry, -⟩ := paySstore_ok hpay
      let answer := env.host (.setStorage ctx.msg.recipient x.1 x.2.1) paid.host
      have hset : Affords ctx.rev s.gasLeft s
          { paid with
            host := answer.2
            calls := paid.calls ++ [⟨.setStorage ctx.msg.recipient x.1 x.2.1, answer.1⟩] } :=
        NoEffect.affords_snoc hqueries rfl hsentry
      have hcharge := handle_extends env (P := fun c => c.request.Afforded ctx.rev s.gasLeft)
        (o := .charge (sstoreCost ctx.rev x.2.2 answer.1)) (fun q _ hq => by cases hq)
        { paid with
          host := answer.2
          calls := paid.calls ++ [⟨.setStorage ctx.msg.recipient x.1 x.2.1, answer.1⟩] }
      rw [← run_perform (handle env)] at hcharge
      exact hcharge.mono (fun _ _ h => hset.trans h) (fun _ _ h => hset.trans h) fun _ => id

/-- An instruction that is neither a call nor SSTORE affords what it asks for. -/
theorem Opcode.Effect.afforded {rev : Revision} {op : Opcode} (hop : op ≠ .sstore)
    {q : HostRequest} (h : q.isEffect = false ∨ op.Effect q) : q.Afforded rev gas := by
  rcases h with h | h
  · exact HostRequest.afforded_of_noEffect h
  · cases op with
    | sstore => exact absurd rfl hop
    | log | selfdestruct =>
        cases q with
        | call | setStorage => exact h.elim
        | _ => trivial
    | _ => exact h.elim

theorem basic_affords (env : Env σ) (ctx : Context) {op : Opcode} {f : Context → Exec Unit}
    (hop : Baseline.op2fn op = .basic f) (h0 : 0 ≤ s.gasLeft) (h63 : s.gasLeft < 2 ^ 63) :
    ((f ctx).run env s).Meets (fun _ t => Affords ctx.rev s.gasLeft s t)
      (fun _ t => Affords ctx.rev s.gasLeft s t) fun _ => True := by
  by_cases hcall : op.isCall = true
  · cases op with
    | call | callcode | delegatecall | staticcall =>
        cases hop
        exact call_affords h0 h63
    | create | create2 =>
        cases hop
        exact create_affords h0 h63
    | _ => cases hcall
  · by_cases hsstore : op = .sstore
    · subst hsstore
      cases hop
      exact sstore_affords
    · exact run_extends env (fun q _ h => Opcode.Effect.afforded hsstore h)
        (uses_basic hop (by simpa using hcall)) s

theorem terminating_affords {op : Opcode} {f : Context → Exec StatusCode}
    (hop : Baseline.op2fn op = .terminating f) :
    ((f ctx).run env s).Meets (fun _ t => Affords ctx.rev gas s t)
      (fun _ t => Affords ctx.rev gas s t) fun _ => True := by
  refine run_extends env (fun q _ h => Opcode.Effect.afforded ?_ h) (uses_terminating hop) s
  rintro rfl
  cases hop

/-- An instruction in Baseline. -/
theorem Baseline.invoke_affords (env : Env σ) (ctx : Context) (op : Opcode)
    (analysis : Baseline.CodeAnalysis) (pos : Nat) (h0 : 0 ≤ s.gasLeft) (h63 : s.gasLeft < 2 ^ 63) :
    ((Baseline.invoke (Baseline.op2fn op) analysis ctx pos).run env s).Meets
      (fun _ t => Affords ctx.rev s.gasLeft s t) (fun _ t => Affords ctx.rev s.gasLeft s t)
      fun _ => True := by
  cases hop : Baseline.op2fn op with
  | basic f =>
      show Outcome.Meets _ _ _ (run (handle env) (f ctx >>= fun _ => pure (pos + 1)) s)
      rw [run_bind]
      exact (basic_affords env ctx hop h0 h63).bind fun _ _ h => h
  | terminating f =>
      show Outcome.Meets _ _ _ (run (handle env) (f ctx >>= fun x => Exec.exit x) s)
      rw [run_bind]
      exact (terminating_affords hop).bind fun _ _ h => h
  | codePosition f =>
      exact run_extends env (fun q _ h => h.elim) (onStack_codePosition hop analysis pos) s

theorem silent_opGas (cost : Nat) (n : Int) :
    (Advanced.opGas cost (.number n)).Uses Op.Silent := by
  simp [Advanced.opGas, Advanced.argNumber, Uses, Footprint, Op.Silent, Exec.int64, Exec.gasLeft,
    Exec.push, Exec.perform]

theorem silent_opReturn (status : StatusCode) : (Advanced.opReturn status).Uses Op.Silent := by
  simp [Advanced.opReturn, Uses, Footprint, Op.Silent, Exec.peek, Exec.checkMemory,
    Exec.setOutputSize, Exec.setOutputOffset, Exec.perform]

/-- An entry of Advanced, at a state from which its correction lends no more than was paid. -/
theorem Advanced.exec_affords (env : Env σ) (ctx : Context) {op : Opcode} {d : Decoded}
    {n : Int} {ceiling : Int} (hop : Opcode.ofByte d.opcode = some op)
    (analysis : Advanced.AdvancedCodeAnalysis) (cost k ip : Nat) (h63 : ceiling < 2 ^ 63)
    (h0 : 0 ≤ s.gasLeft) (hle : s.gasLeft ≤ ceiling)
    (hlent0 : 0 ≤ (Advanced.lend s (cost - n)).gasLeft)
    (hlent : (Advanced.lend s (cost - n)).gasLeft ≤ ceiling) :
    ((Advanced.exec analysis cost ctx (Advanced.instructionImplementations op)
      (Advanced.argOf n k d) ip).run env s).Meets (fun _ t => Affords ctx.rev ceiling s t)
      (fun _ t => Affords ctx.rev ceiling s t) fun _ => True := by
  have hsilent : ∀ {α : Type} {p : Exec α}, p.Uses Op.Silent →
      (p.run env s).Meets (fun _ t => Affords ctx.rev ceiling s t)
        (fun _ t => Affords ctx.rev ceiling s t) fun _ => True :=
    fun hp => run_extends env (fun q _ h => h.elim) hp s
  have himpl := implemented op
  generalize hbase : Baseline.op2fn op = base at himpl
  generalize hfn : Advanced.instructionImplementations op = fn at himpl
  cases himpl with
  | @plain _ f hplain =>
      show Outcome.Meets _ _ _ (run (handle env) (f ctx >>= fun _ => pure (ip + 1)) s)
      rw [run_bind]
      have hbasic := (basic_affords env ctx hbase h0 (by omega)).mono
        (fun _ _ h => h.mono hle) (fun _ _ h => h.mono hle) fun _ => id
      exact hbasic.bind fun _ _ h => h
  | @corrected _ f _ hexec hreads =>
      rw [hexec, Advanced.argOf_of_readsGas hop hreads]
      show Outcome.Meets _ _ _ (run (handle env)
        (Advanced.corrected cost (.number n) (f ctx) >>= fun _ => pure (ip + 1)) s)
      rw [run_bind, ← Exec.run, Advanced.run_corrected]
      -- the calls are made with the gas that was lent, and taking it back makes none
      have hbasic := (basic_affords env ctx hbase hlent0 (by omega)).mono
        (fun _ _ h => h.mono hlent) (fun _ _ h => h.mono hlent) fun _ => id
      refine (hbasic.bind fun _ s' h => ?_).bind fun _ _ h => h
      have hback := handle_extends env (P := fun c => c.request.Afforded ctx.rev ceiling)
        (o := .charge (toInt64 (cost - n))) (fun q _ hq => by cases hq) s'
      exact hback.mono (fun _ _ h' => h.trans h')
        (fun _ _ h' => h.trans h') fun _ => id
  | gas =>
      rw [Advanced.argOf_of_readsGas hop rfl]
      show Outcome.Meets _ _ _ (run (handle env)
        (Advanced.opGas cost (.number n) >>= fun _ => pure (ip + 1)) s)
      rw [run_bind]
      exact (hsilent (silent_opGas cost n)).bind fun _ _ h => h
  | jumpdest => trivial
  | jump | jumpi | pc | pushSmall | pushFull =>
      exact hsilent ((onStack_exec analysis cost ctx (Advanced.argOf n k d) ip (by simp)).mono
        fun _ h => h.silent)
  | @return_ _ status hkeeps =>
      show Outcome.Meets _ _ _ (run (handle env)
        (Advanced.opReturn status >>= fun x => Exec.exit x) s)
      rw [run_bind]
      exact (hsilent (silent_opReturn status)).bind fun _ _ h => h
  | @terminating _ f _ hexec =>
      rw [hexec]
      show Outcome.Meets _ _ _ (run (handle env) (f ctx >>= fun x => Exec.exit x) s)
      rw [run_bind]
      exact (terminating_affords hbase).bind fun _ _ h => h

/-! ## Runs -/

/-- All calls so far are requests of a frame that has the given gas. -/
def ExecutionState.Frugal (rev : Revision) (gas : Int) (s : ExecutionState σ) : Prop :=
  ∀ c ∈ s.calls, c.request.Afforded rev gas

theorem Affords.frugal {rev rev' : Revision} {gas' : Int} (h : Affords rev' gas' s t)
    (hrev : rev' = rev) (hle : gas' ≤ gas) (hs : s.Frugal rev gas) : t.Frugal rev gas := by
  subst hrev
  obtain ⟨new, hcalls, hnew⟩ := h.mono hle
  intro c hc
  rw [hcalls] at hc
  rcases List.mem_append.1 hc with hc | hc
  · exact hs c hc
  · exact hnew c hc

/-- A frame whose host keeps within the gas of its messages, with code that both interpreters
handle. -/
structure Invocation.Sound (i : Invocation σ) : Prop where
  bounded : i.env.host.CallBounded
  size : i.ctx.code.bytes.length < 2 ^ 30
  fits : Advanced.BlockCostsFit i.ctx.rev i.ctx.code.bytes

/-- Every run of the frame, in either interpreter, is frugal. -/
structure Invocation.Frugal (i : Invocation σ) : Prop where
  baseline : ∀ c, StateTransition.Reaches (Baseline.step i.env (Baseline.analysisOf i))
    (Baseline.start i) c → c.StateMeets (ExecutionState.Frugal i.ctx.rev i.ctx.msg.gas)
  advanced : ∀ c, StateTransition.Reaches (Advanced.step i.env (Advanced.analysisOf i))
    (Advanced.start i) c →
      c.StateMeets fun s => s.toExecutionState.Frugal i.ctx.rev i.ctx.msg.gas

section Runs

variable {i : Invocation σ} {h63 : i.ctx.msg.gas < 2 ^ 63}

theorem Baseline.frugal_step (h0 : 0 ≤ i.ctx.msg.gas) (hcalls : i.env.host.CallBounded)
    {c c' : Config (ExecutionState σ)}
    (hc : Baseline.Valid i (metered i.ctx.msg.gas h63) c)
    (hfrugal : c.StateMeets (ExecutionState.Frugal i.ctx.rev i.ctx.msg.gas))
    (h : Baseline.step i.env (Baseline.analysisOf i) c = some c') :
    c'.StateMeets (ExecutionState.Frugal i.ctx.rev i.ctx.msg.gas) := by
  cases c with
  | halted s => cases h
  | fault f => cases h
  | running pos s =>
      obtain ⟨-, hs⟩ := hc.resolve_left fun hd => not_derailed_of_callBounded hcalls h0 hd.2
      have hrev : s.rev = i.ctx.rev := congrArg Context.rev hs.follows.context
      rcases Baseline.step_inv h with ⟨f, rfl, -⟩ | ⟨b, status, s', -, -, rfl | ⟨-, -, rfl⟩, rfl⟩ |
        ⟨b, op, -, -, hne, hgas, -, rfl⟩
      · trivial
      · exact hfrugal
      · exact hfrugal
      · obtain ⟨hcost0, hcost⟩ := instr.gasCosts_range hne
        have hcharged := hs.setGas hcost0 (by omega) hgas
        have hle := (hcharged.follows.gas trivial).1
        have hrun := Baseline.invoke_affords i.env s.toContext op
          (Baseline.analysisOf i) pos (hcharged.gas trivial) (lt_of_le_of_lt hle h63)
        generalize Exec.run i.env (Baseline.invoke (Baseline.op2fn op) _ s.toContext pos) _ = r
          at hrun
        cases r with
        | ok pos' t => exact Affords.frugal hrun hrev hle hfrugal
        | exit status t => exact Affords.frugal hrun hrev hle hfrugal
        | fault f => trivial

/-- An instruction of a block has paid for more than it is lent. -/
theorem Advanced.afforded_inBlock {s : Advanced.AdvancedExecutionState σ}
    (hfit : Advanced.BlockCostsFit i.ctx.rev i.ctx.code.bytes)
    (hs : Running i (metered i.ctx.msg.gas h63) s.toExecutionState)
    (hb : Advanced.Budget (metered i.ctx.msg.gas h63) s) {closed : List (List Decoded)}
    {done : List Decoded} {d : Decoded} {rest : List Decoded} {post : List (List Decoded)}
    (hsplit : blocksOf (decode i.ctx.code.bytes) = closed ++ (done ++ d :: rest) :: post)
    (hcost : (s.currentBlockCost : Int) = min (baseCost i.ctx.rev (done ++ d :: rest)) (2 ^ 32 - 1))
    {op : Opcode} (hop : Opcode.ofByte d.opcode = some op) (k ip : Nat) :
    ((Advanced.exec (Advanced.analysisOf i) s.currentBlockCost s.toContext
      (Advanced.instructionImplementations op)
      (Advanced.argOf (baseCost i.ctx.rev (done ++ [d])) k d) ip).run i.env
        s.toExecutionState).Meets
      (fun _ t => Affords i.ctx.rev i.ctx.msg.gas s.toExecutionState t)
      (fun _ t => Affords i.ctx.rev i.ctx.msg.gas s.toExecutionState t) fun _ => True := by
  have hrev : s.rev = i.ctx.rev := congrArg Context.rev hs.follows.context
  have hnonneg := baseCost_nonneg i.ctx.rev (done ++ [d])
  have hrest := baseCost_nonneg i.ctx.rev rest
  have hsum : baseCost i.ctx.rev (done ++ d :: rest) =
      baseCost i.ctx.rev (done ++ [d]) + baseCost i.ctx.rev rest := by
    rw [← baseCost_append, List.append_assoc]
    rfl
  have hle : baseCost i.ctx.rev (done ++ d :: rest) ≤ 2 ^ 32 - 1 := hfit _ (by rw [hsplit]; simp)
  have hcorrect := hb.correctable hs (n := baseCost i.ctx.rev (done ++ [d]))
    fun _ => ⟨hnonneg, by omega⟩
  obtain ⟨-, hlent, -⟩ := hcorrect.lend_gasLeft trivial
  have h0 := hs.gas trivial
  have htotal : s.gasLeft + s.currentBlockCost ≤ i.ctx.msg.gas := hb.total trivial
  have hexec := Advanced.exec_affords i.env s.toContext hop
    (Advanced.analysisOf i) s.currentBlockCost k ip h63 h0 (by omega)
    (n := baseCost i.ctx.rev (done ++ [d])) (by rw [hlent]; omega) (by rw [hlent]; omega)
  exact hrev ▸ hexec

theorem Advanced.frugal_step (h0 : 0 ≤ i.ctx.msg.gas) (hi : i.Sound)
    {c c' : Config (Advanced.AdvancedExecutionState σ)}
    (hc : Advanced.BlockValid i (metered i.ctx.msg.gas h63) c)
    (hfrugal : c.StateMeets fun s => s.toExecutionState.Frugal i.ctx.rev i.ctx.msg.gas)
    (h : Advanced.step i.env (Advanced.analysisOf i) c = some c') :
    c'.StateMeets fun s => s.toExecutionState.Frugal i.ctx.rev i.ctx.msg.gas := by
  cases c with
  | halted s => cases h
  | fault f => cases h
  | running ip s =>
      obtain ⟨hs, hb, hloc⟩ := hc.resolve_left fun hd =>
        not_derailed_of_callBounded hi.bounded h0 hd.2
      generalize hcur : s.currentBlockCost = cost at hloc
      generalize hheight : s.stack.height = height at hloc
      cases hloc with
      | @atBlock closed b post _ _ hsplit =>
          have hinstr : (Advanced.analysisOf i).instrs[
              (Advanced.tableOf i.ctx.rev 0 closed).length]? = _ :=
            Advanced.getElem?_instrs_of_append hsplit
          simp only [Advanced.step, hinstr, Option.some.injEq] at h
          subst h
          have hdispatch : Advanced.dispatch i.env (Advanced.analysisOf i)
              (Advanced.beginblockOf i.ctx.rev b) (Advanced.tableOf i.ctx.rev 0 closed).length s =
              Advanced.opxBeginblock (Advanced.summarize i.ctx.rev 0 b).close
                (Advanced.tableOf i.ctx.rev 0 closed).length s := rfl
          rcases Advanced.opxBeginblock_cases (Advanced.summarize i.ctx.rev 0 b).close
            (Advanced.tableOf i.ctx.rev 0 closed).length s with ⟨status, -, heq, -⟩ | ⟨heq, -⟩
          · rw [hdispatch, heq]
            exact hfrugal
          · rw [hdispatch, heq]
            exact hfrugal
      | @inBlock closed done d rest post _ _ hsplit hd hcost hrequired hgrowth =>
          subst hcur hheight
          have hinstr : (Advanced.analysisOf i).instrs[
              (Advanced.tableOf i.ctx.rev 0 closed).length + 1 +
                (Advanced.entriesOf i.ctx.rev 0 0 done).length]? = _ :=
            Advanced.getElem?_instrs_inBlock hsplit hd
          simp only [Advanced.step, hinstr, Option.some.injEq] at h
          subst h
          rcases Advanced.decoded_cases i.ctx.rev d with ⟨-, hfn, -⟩ |
            ⟨op, hop, hdef, hfn, -, hreq, hchange⟩
          · rw [hfn]
            exact hfrugal
          · have hjumpdest : op ≠ .jumpdest := by
              rintro rfl
              exact hd (toByte_of_ofByte hop)
            have hrun := Advanced.afforded_inBlock hi.fits hs hb hsplit hcost hop
              (pushValuesOf (closed.flatten ++ done)).length
              ((Advanced.tableOf i.ctx.rev 0 closed).length + 1 +
                (Advanced.entriesOf i.ctx.rev 0 0 done).length)
            rw [hfn, Advanced.dispatch_op _ _ hjumpdest]
            generalize Exec.run i.env (Advanced.exec _ s.currentBlockCost s.toContext _ _ _) _ = r
              at hrun
            cases r with
            | ok pos' t => exact Affords.frugal hrun rfl le_rfl hfrugal
            | exit status t => exact Affords.frugal hrun rfl le_rfl hfrugal
            | fault f => trivial
      | atEnd =>
          have hinstr : (Advanced.analysisOf i).instrs[(Advanced.tableOf i.ctx.rev 0
              (blocksOf (decode i.ctx.code.bytes))).length]? = _ := Advanced.getElem?_instrs_end
          simp only [Advanced.step, hinstr, Option.some.injEq] at h
          subst h
          exact hfrugal

theorem Invocation.frugal (h0 : 0 ≤ i.ctx.msg.gas) (h63 : i.ctx.msg.gas < 2 ^ 63) (hi : i.Sound) :
    i.Frugal := by
  have hp := premises_metered h0 h63
  have hnew : i.newState.Frugal i.ctx.rev i.ctx.msg.gas := fun c hc => by cases hc
  constructor
  · intro c hc
    have hboth := invariant_of_reaches (P := fun c => Baseline.Valid i _ c ∧
      c.StateMeets (ExecutionState.Frugal i.ctx.rev i.ctx.msg.gas))
      (fun c c' h hstep =>
        ⟨h.1.step hp hstep, Baseline.frugal_step h0 hi.bounded h.1 h.2 hstep⟩) hc
      ⟨Baseline.valid_of_reaches hp .refl, by rw [Baseline.start_eq]; exact hnew⟩
    exact hboth.2
  · intro c hc
    have hstart : (Advanced.start i).StateMeets fun s =>
        s.toExecutionState.Frugal i.ctx.rev i.ctx.msg.gas := hnew
    have hboth := invariant_of_reaches (P := fun c => Advanced.BlockValid i _ c ∧
      c.StateMeets fun s => s.toExecutionState.Frugal i.ctx.rev i.ctx.msg.gas)
      (fun c c' h hstep => ⟨Advanced.blockValid_step hp (fun _ => hi.fits) hi.size h.1 hstep,
        Advanced.frugal_step h0 hi h.1 h.2 hstep⟩) hc
      ⟨Advanced.blockValid_start hp, hstart⟩
    exact hboth.2

end Runs

/-! ## Nested frames -/

section Nested

variable {i j : Invocation σ}

end Nested

end Ivmone
