import Ivmone.BlockChecks
import Ivmone.Equivalence
import Ivmone.GasShift

/-!
# The gas an execution needs

An execution that succeeds or reverts, and that did not look at the gas left, uses a fixed amount of
gas: with at least that much it does the same, and with less it is out of gas.
-/

set_option autoImplicit false

namespace Ivmone

open Lib Lib.Program

variable {σ : Type}

/-! ## Configurations of two runs -/

section Configurations

variable {S : Type}

/-- Both executions run at the same place, or both have halted. -/
inductive Config.Both (R H : S → S → Prop) : Config S → Config S → Prop
  | running (pos : Nat) {s t : S} (h : R s t) : Both R H (.running pos s) (.running pos t)
  | halted {s t : S} (h : H s t) : Both R H (.halted s) (.halted t)

/-- The execution is out of gas, without output. -/
def Config.OutOfGas (state : S → ExecutionState σ) : Config S → Prop
  | .halted s => (state s).status = .outOfGas ∧ (state s).outputSize = 0
  | _ => False

/-- The execution has not failed. -/
def Config.GoesWell (state : S → ExecutionState σ) : Config S → Prop
  | .running _ _ => True
  | .halted s => (state s).status.keepsGas
  | .fault _ => False

/-- The gas left would be negative with the difference; a running execution is in a state that meets
`I`. -/
abbrev Config.Depleted (state : S → ExecutionState σ) (δ : Int) (I : S → Prop) : Config S → Prop :=
  Config.Meets (fun _ s => Ivmone.Depleted δ (state s) ∧ I s) (fun s => Ivmone.Depleted δ (state s))
    fun _ => False

variable {state : S → ExecutionState σ} {f : Config S → Option (Config S)}

/-- Before an end that is not a failure there is none. -/
theorem goesWell_of_ends (hhalted : ∀ s, f (.halted s) = none) (hfault : ∀ x, f (.fault x) = none)
    {c c' : Config S} (h : Ends f c c') (hwell : c'.GoesWell state) : c.GoesWell state := by
  rcases Relation.ReflTransGen.cases_head h.1 with rfl | ⟨c₁, hnext, -⟩
  · exact hwell
  · have hstep : f c = some c₁ := hnext
    cases c with
    | running => trivial
    | halted s =>
        rw [hhalted] at hstep
        cases hstep
    | fault x =>
        rw [hfault] at hstep
        cases hstep

/-- Two runs of one loop. Wherever the first one ends well, the second one has gone with it to its
end, or it is out of gas and the first one has less gas left than the difference. -/
theorem ends_together {R H : S → S → Prop} {I : S → Prop} {δ : Int} {c₀ c₀' c : Config S}
    (hruns : ∀ pos s, f (.running pos s) ≠ none) (hhalted : ∀ s, f (.halted s) = none)
    (hfault : ∀ x, f (.fault x) = none)
    (hboth : ∀ pos s t c, StateTransition.Reaches f c₀ (.running pos s) → R s t →
      f (.running pos s) = some c → c.GoesWell state →
      ∃ c', f (.running pos t) = some c' ∧
        (Config.Both R H c c' ∨ c.Depleted state δ I ∧ c'.OutOfGas state))
    (halone : ∀ pos s c, StateTransition.Reaches f c₀ (.running pos s) →
      Depleted δ (state s) → I s → f (.running pos s) = some c → c.GoesWell state →
      c.Depleted state δ I)
    (hends : Ends f c₀ c) (hwell : c.GoesWell state) (hstart : Config.Both R H c₀ c₀') :
    ∃ c', Ends f c₀' c' ∧ (Config.Both R H c c' ∨ c.Depleted state δ I ∧ c'.OutOfGas state) := by
  -- the runs are compared only where the first one goes, so that is carried along
  suffices hfollower : ∃ c', Ends f c₀' c' ∧
      ((StateTransition.Reaches f c₀ c ∧ Config.Both R H c c') ∨
        (StateTransition.Reaches f c₀ c ∧ c.Depleted state δ I) ∧ c'.OutOfGas state) by
    obtain ⟨c', hends', hc'⟩ := hfollower
    exact ⟨c', hends', hc'.imp And.right (And.imp_left And.right)⟩
  refine exists_ends_of_follower
    (R := fun a b => StateTransition.Reaches f c₀ a ∧ Config.Both R H a b)
    (D := fun a => StateTransition.Reaches f c₀ a ∧ a.Depleted state δ I)
    (Z := fun b => b.OutOfGas state) ?_ ?_ ?_ ?_ hends ⟨.refl, hstart⟩
  · rintro a b a' ⟨hreaches, hab⟩ hstep hends
    have hreaches' := hreaches.tail hstep
    cases hab with
    | halted =>
        rw [hhalted] at hstep
        cases hstep
    | running pos hst =>
        obtain ⟨b', hb', hcases⟩ := hboth pos _ _ _ hreaches hst hstep
          (goesWell_of_ends hhalted hfault hends hwell)
        exact ⟨b', hb', hcases.imp (⟨hreaches', ·⟩) (And.imp_left (⟨hreaches', ·⟩))⟩
  · rintro a b ⟨hreaches, hab⟩ hended
    cases hab with
    | halted => exact hhalted _
    | running pos hst => exact absurd hended (hruns pos _)
  · rintro a a' ⟨hreaches, hdepleted⟩ hstep hends
    refine ⟨hreaches.tail hstep, ?_⟩
    cases a with
    | fault => exact hdepleted.elim
    | halted =>
        rw [hhalted] at hstep
        cases hstep
    | running pos s =>
        exact halone pos s a' hreaches hdepleted.1 hdepleted.2 hstep
          (goesWell_of_ends hhalted hfault hends hwell)
  · intro b hb
    cases b with
    | halted => exact hhalted _
    | running | fault => exact hb.elim

end Configurations

variable {env : Env σ} {gas δ limit : Int} {s t : ExecutionState σ}

/-- The outcomes of a round of the loop in the two runs, if the first one goes well. -/
inductive Followed (gas δ limit : Int) : Result σ Nat → Result σ Nat → Prop
  | ok (pos : Nat) {s t : ExecutionState σ} (h : Apart gas δ s t) (hs : Open limit s) :
      Followed gas δ limit (.ok pos s) (.ok pos t)
  | exit (status : StatusCode) {s t : ExecutionState σ} (h : Apart gas δ s t) :
      Followed gas δ limit (.exit status s) (.exit status t)
  | bail {r : Result σ Nat} {t : ExecutionState σ} (hout : t.outputSize = 0)
      (hr : r.Meets (fun _ s => Depleted δ s ∧ Open limit s)
        (fun _ s => Depleted δ s) fun _ => False) :
      Followed gas δ limit r (.exit .outOfGas t)

/-- The run has no fault, and exits with SUCCESS or REVERT at most. -/
abbrev WentWell (r : Result σ Nat) : Prop :=
  r.Meets (fun _ _ => True) (fun status _ => status.keepsGas) fun _ => False

theorem depleted_of_wentWell {r : Result σ Nat} (hwell : WentWell r)
    (h : r.Meets (fun _ t => Depleted δ t ∧ Open limit t)
      (fun status t => ¬ status.keepsGas ∨ Depleted δ t) fun _ => True) :
    r.Meets (fun _ s => Depleted δ s ∧ Open limit s) (fun _ s => Depleted δ s) fun _ => False := by
  cases r with
  | ok pos s => exact h
  | fault f => exact hwell
  | exit status s =>
      rcases h with hfails | h
      · exact absurd hwell hfails
      · exact h

theorem followed_of_gasTrails {r r' : Result σ Nat} (hwell : WentWell r)
    (h : GasTrails gas δ limit (fun _ => True) r r') : Followed gas δ limit r r' := by
  cases h with
  | ok hst => exact .ok _ hst.1.1 hst.1.2
  | exit hst => exact .exit _ hst
  | fault f => exact hwell.elim
  | failed s _ hfails => exact absurd hwell hfails
  | bail hr ht =>
      obtain ⟨rfl, hout⟩ := ht
      exact .bail hout (depleted_of_wentWell hwell
        (hr.mono (fun _ _ h => h.1) (fun _ _ => id) fun _ => id))

/-- The two runs start apart by the difference of their gas. -/
theorem apart_newState {i : Invocation σ} (h0 : 0 ≤ i.ctx.msg.gas) (h0' : 0 ≤ gas) :
    Apart gas (gas - i.ctx.msg.gas) i.newState (i.withGas gas).newState ∧
      Open i.ctx.msg.gas i.newState := by
  have hgas : i.ctx.msg.gas + (gas - i.ctx.msg.gas) = gas := by omega
  refine ⟨⟨⟨{}, ?_⟩, h0, ?_⟩, le_rfl, rfl⟩
  · show _ = { i.newState with
      toContext := i.ctx.withGas gas, gasLeft := i.ctx.msg.gas + (gas - i.ctx.msg.gas),
        ghost := {} }
    rw [hgas]
    rfl
  · show 0 ≤ i.ctx.msg.gas + (gas - i.ctx.msg.gas)
    omega

/-! ## Results -/

/-- With at least the gas that the execution of `i` has used, which ended in the state `s` with the
result `r`, executions have the same result and make the same calls to the host, and the rest of the
gas is left. With less gas they are out of gas. -/
def HasThreshold (EndsIn : Invocation σ → ExecutionState σ → Prop) (i : Invocation σ)
    (s : ExecutionState σ) (r : ExecutionResult) : Prop :=
  ∀ gas, 0 ≤ gas → gas ≤ 2 ^ 63 - 1 →
    (i.ctx.msg.gas - r.gasLeft ≤ gas →
      ∃ s', EndsIn (i.withGas gas) s' ∧ s'.calls = s.calls ∧
        makeResult s' = some { r with gasLeft := gas - (i.ctx.msg.gas - r.gasLeft) }) ∧
    (gas < i.ctx.msg.gas - r.gasLeft →
      ∃ s' r', EndsIn (i.withGas gas) s' ∧ makeResult s' = some r' ∧ r'.status = .outOfGas ∧
        r'.gasLeft = 0)

theorem makeResult_fields {r : ExecutionResult} (h : makeResult s = some r) :
    r.status = s.status ∧ r.gasLeft = if s.status.keepsGas then s.gasLeft else 0 := by
  unfold makeResult at h
  dsimp only at h
  split at h
  · rw [Option.map_eq_some_iff] at h
    obtain ⟨output, -, rfl⟩ := h
    exact ⟨rfl, rfl⟩
  · injection h with h
    subst h
    exact ⟨rfl, rfl⟩

/-- The result of the second run is that of the first one, with the difference in its gas. -/
theorem Apart.makeResult {r : ExecutionResult} (h : Apart gas δ s t)
    (hr : Ivmone.makeResult s = some r) (hkeeps : s.status.keepsGas) :
    Ivmone.makeResult t = some { r with gasLeft := r.gasLeft + δ } := by
  obtain ⟨ghost, rfl⟩ := h.same
  have hshifted : Ivmone.makeResult (s.shifted gas δ ghost) =
      if s.outputSize ≠ 0 then
        (s.memory.load? s.outputOffset s.outputSize).map fun output =>
          ⟨s.status, if s.status.keepsGas then s.gasLeft + δ else 0, output⟩
      else some ⟨s.status, if s.status.keepsGas then s.gasLeft + δ else 0, []⟩ := rfl
  rw [hshifted, if_pos hkeeps]
  unfold Ivmone.makeResult at hr
  rw [if_pos hkeeps] at hr
  by_cases hout : s.outputSize ≠ 0
  · rw [if_pos hout, Option.map_eq_some_iff] at hr
    obtain ⟨output, hload, rfl⟩ := hr
    rw [if_pos hout, hload]
    rfl
  · rw [if_neg hout] at hr ⊢
    injection hr with hr
    subst hr
    rfl

/-- The two ways in which the second run can end decide on which side of the threshold its gas
is. -/
theorem hasThreshold_of_ends {EndsIn : Invocation σ → ExecutionState σ → Prop} {i : Invocation σ}
    {r : ExecutionResult} (hr : makeResult s = some r) (hkeeps : r.status.keepsGas)
    (hends : ∀ gas, 0 ≤ gas → gas ≤ 2 ^ 63 - 1 → ∃ t, EndsIn (i.withGas gas) t ∧
      (Apart gas (gas - i.ctx.msg.gas) s t ∨
        Depleted (gas - i.ctx.msg.gas) s ∧ t.status = .outOfGas ∧ t.outputSize = 0)) :
    HasThreshold EndsIn i s r := by
  obtain ⟨hstatus, hgas⟩ := makeResult_fields hr
  rw [hstatus] at hkeeps
  rw [if_pos hkeeps] at hgas
  intro gas h0 h63
  obtain ⟨t, ht, hapart | ⟨hdepleted, hout⟩⟩ := hends gas h0 h63
  · have hsolvent' := hapart.solvent'
    refine ⟨fun hle => ⟨t, ht, ?_, ?_⟩, fun hlt => by omega⟩
    · obtain ⟨ghost, rfl⟩ := hapart.same
      rfl
    · rw [hapart.makeResult hr hkeeps]
      have hrest : r.gasLeft + (gas - i.ctx.msg.gas) = gas - (i.ctx.msg.gas - r.gasLeft) := by omega
      rw [hrest]
  · have hshort := hdepleted.short
    refine ⟨fun hle => by omega, fun hlt => ⟨t, _, ht, makeResult_of_failed ?_ hout.2, hout.1, rfl⟩⟩
    rw [hout.1]
    decide

/-! ## Baseline -/

namespace Baseline

variable {analysis : CodeAnalysis} {pos : Nat}

/-- The instruction at the code position has access to the gas left. -/
def SeesGas (analysis : CodeAnalysis) : Config (ExecutionState σ) → Prop
  | .running pos s =>
      ∃ b op, analysis.paddedCode[pos]? = some b ∧ Opcode.ofByte b = some op ∧
        op.seesGas s.rev = true
  | _ => False

theorem seesGas_running_iff (analysis : CodeAnalysis) (pos : Nat) (s : ExecutionState σ) :
    ((analysis.paddedCode[pos]?).bind Opcode.ofByte).any (Opcode.seesGas s.rev) = true ↔
      SeesGas analysis (.running pos s) := by
  rw [Option.any_eq_true]
  constructor
  · rintro ⟨op, hop, hsees⟩
    obtain ⟨b, hb, hop⟩ := Option.bind_eq_some_iff.1 hop
    exact ⟨b, op, hb, hop, hsees⟩
  · rintro ⟨b, op, hb, hop, hsees⟩
    exact ⟨op, Option.bind_eq_some_iff.2 ⟨b, hb, hop⟩, hsees⟩

instance (analysis : CodeAnalysis) (c : Config (ExecutionState σ)) :
    Decidable (SeesGas analysis c) :=
  match c with
  | .running pos s => decidable_of_iff _ (seesGas_running_iff analysis pos s)
  | .halted _ | .fault _ => isFalse id

/-- A round of the loop whose requirements are met. -/
theorem step_of_suits (env : Env σ) {b : Byte} {op : Opcode}
    (hb : analysis.paddedCode[pos]? = some b)
    (hop : Opcode.ofByte b = some op) (hdef : instr.gasCosts s.rev op ≠ instr.undefined)
    (hgas : 0 ≤ toInt64 (s.gasLeft - instr.gasCosts s.rev op)) (hsuits : Suits True op s) :
    step env analysis (.running pos s) =
      some (.ofResult ((invoke (op2fn op) analysis s.toContext pos).run env
        (s.setGas (s.gasLeft - instr.gasCosts s.rev op)))) := by
  rw [step, hb]
  simp only [checkRequirements_of_suits hop hdef hgas hsuits, dispatch, hop]
  rfl

/-- A round of the loop without enough gas for the base cost. -/
theorem step_of_short (env : Env σ) {b : Byte} {op : Opcode}
    (hb : analysis.paddedCode[pos]? = some b)
    (hop : Opcode.ofByte b = some op) (hdef : instr.gasCosts s.rev op ≠ instr.undefined)
    (hgas : toInt64 (s.gasLeft - instr.gasCosts s.rev op) < 0) :
    step env analysis (.running pos s) =
      some (.halted
        { s.setGas (s.gasLeft - instr.gasCosts s.rev op) with status := .outOfGas }) := by
  have hcost : instr.gasCost s.rev b = instr.gasCosts s.rev op := instr.gasCost_of_ofByte hop
  have hcheck := checkRequirements_of_short s b (by rwa [hcost]) (by rwa [hcost])
  rw [hcost] at hcheck
  rw [step, hb]
  simp only [hcheck]

/-- Both runs go on together. -/
abbrev Together (gas δ limit : Int) : Config (ExecutionState σ) →
    Config (ExecutionState σ) → Prop :=
  Config.Both (fun s t => Apart gas δ s t ∧ Open limit s) (Apart gas δ)

theorem wentWell_ofResult {r : Result σ Nat} (h : (Config.ofResult r).GoesWell id) :
    WentWell r := by
  cases r with
  | ok pos s => trivial
  | exit status s => exact h
  | fault f => exact h

theorem depleted_ofResult {r : Result σ Nat}
    (h : r.Meets (fun _ s => Depleted δ s ∧ Open limit s)
      (fun _ s => Depleted δ s) fun _ => False) :
    (Config.ofResult r).Depleted id δ (Open limit) := by
  cases r with
  | ok pos s => exact h
  | exit status s => exact ⟨h.solvent, h.short⟩
  | fault f => exact h

theorem together_ofResult {r r' : Result σ Nat} (h : Followed gas δ limit r r') :
    Together gas δ limit (.ofResult r) (.ofResult r') ∨
      (Config.ofResult r).Depleted id δ (Open limit) ∧ (Config.ofResult r').OutOfGas id := by
  cases h with
  | ok pos h hs => exact .inl (.running pos ⟨h, hs⟩)
  | exit status h =>
      obtain ⟨⟨ghost, rfl⟩, hsolvent, hsolvent'⟩ := h
      exact .inl (.halted ⟨⟨ghost, rfl⟩, hsolvent, hsolvent'⟩)
  | bail hout hr => exact .inr ⟨depleted_ofResult hr, rfl, hout⟩

/-- What a round of the loop is that goes well: the base cost is paid, and the implementation
runs. -/
theorem step_inv_of_goesWell {c : Config (ExecutionState σ)}
    (hstep : step env analysis (.running pos s) = some c) (hwell : c.GoesWell id)
    (hsees : ¬ SeesGas analysis (.running pos s)) :
    ∃ b op, analysis.paddedCode[pos]? = some b ∧ Opcode.ofByte b = some op ∧
      op.seesGas s.rev = false ∧ instr.gasCosts s.rev op ≠ instr.undefined ∧
      0 ≤ toInt64 (s.gasLeft - instr.gasCosts s.rev op) ∧ Suits True op s ∧
      c = .ofResult ((invoke (op2fn op) analysis s.toContext pos).run env
        (s.setGas (s.gasLeft - instr.gasCosts s.rev op))) := by
  rcases step_inv hstep with ⟨f, rfl, -⟩ | ⟨b, status, s', -, hfails, -, rfl⟩ |
    ⟨b, op, hb, hop, hdef, hpaid, hsuits, rfl⟩
  · exact hwell.elim
  · exact absurd hwell hfails
  · refine ⟨b, op, hb, hop, ?_, hdef, hpaid, hsuits, rfl⟩
    rw [← Bool.not_eq_true]
    exact fun hsees' => hsees ⟨b, op, hb, hop, hsees'⟩

/-- One round of the loop in the two runs. -/
theorem step_together (hlimit : limit < 2 ^ 63) (hlimit' : limit + δ < 2 ^ 63) (h : Apart gas δ s t)
    (hopen : Open limit s) (hsees : ¬ SeesGas analysis (.running pos s))
    {c : Config (ExecutionState σ)}
    (hstep : step env analysis (.running pos s) = some c) (hwell : c.GoesWell id) :
    ∃ c', step env analysis (.running pos t) = some c' ∧
      (Together gas δ limit c c' ∨ c.Depleted id δ (Open limit) ∧ c'.OutOfGas id) := by
  obtain ⟨b, op, hb, hop, hblind, hdef, hpaid, hsuits, rfl⟩ :=
    step_inv_of_goesWell hstep hwell hsees
  obtain ⟨h0, h32000⟩ := instr.gasCosts_range hdef
  obtain ⟨hrev, hstack, hout, -⟩ := h.fields
  have hdef' : instr.gasCosts t.rev op ≠ instr.undefined := by rwa [hrev]
  obtain ⟨hs, ht⟩ := h.setGas_eq hopen hlimit hlimit' h0 (by omega)
  have hs' := toInt64_of_paid hs
  have ht' := toInt64_of_paid ht
  have hpaid' : instr.gasCosts s.rev op ≤ s.gasLeft := by omega
  have hopen' : Open limit (s.paid (instr.gasCosts s.rev op)) := hopen.pay.mono (by omega)
  have hsettled := settled_invoke env analysis s.toContext pos hblind
  have hwent := wentWell_ofResult hwell
  rw [hs] at hwent ⊢
  by_cases hpaid'' : instr.gasCosts s.rev op ≤ t.gasLeft
  · have hsuits' : Suits True op t := by
      unfold Suits
      rw [hstack]
      exact hsuits
    have hnext := step_of_suits env hb hop hdef' (by rw [hrev]; omega) hsuits'
    rw [hrev, ht, h.context, invoke_withGas] at hnext
    have htrails := hsettled.trails hlimit hlimit' (h.pay hpaid' hpaid'') hopen'
    exact ⟨_, hnext, together_ofResult (followed_of_gasTrails hwent htrails)⟩
  · -- Only the first run can pay the base cost.
    have hnext := step_of_short env hb hop hdef' (by rw [hrev]; omega)
    rw [hrev, ht] at hnext
    have hdepleted := hsettled.depleted hlimit (h.deplete hpaid' (by omega)) hopen'
    exact ⟨_, hnext, .inr ⟨depleted_ofResult (depleted_of_wentWell hwent hdepleted), rfl,
      hout.trans hopen.noOutput⟩⟩

/-- One round of the loop in the first run alone. -/
theorem step_depleted (hlimit : limit < 2 ^ 63) (h : Depleted δ s) (hopen : Open limit s)
    (hsees : ¬ SeesGas analysis (.running pos s)) {c : Config (ExecutionState σ)}
    (hstep : step env analysis (.running pos s) = some c) (hwell : c.GoesWell id) :
    c.Depleted id δ (Open limit) := by
  obtain ⟨b, op, hb, hop, hblind, hdef, hpaid, hsuits, rfl⟩ :=
    step_inv_of_goesWell hstep hwell hsees
  obtain ⟨h0, h32000⟩ := instr.gasCosts_range hdef
  have hsolvent := h.solvent
  have hbound := hopen.bound
  have hs : s.setGas (s.gasLeft - instr.gasCosts s.rev op) = s.paid (instr.gasCosts s.rev op) :=
    setGas_of_cost hsolvent (by omega) h0 (by omega)
  have hs' := toInt64_of_paid hs
  have hopen' : Open limit (s.paid (instr.gasCosts s.rev op)) := hopen.pay.mono (by omega)
  have hsettled := settled_invoke env analysis s.toContext pos hblind
  have hwent := wentWell_ofResult hwell
  rw [hs] at hwent ⊢
  exact depleted_ofResult (depleted_of_wentWell hwent
    (hsettled.depleted hlimit (h.pay h0 (by omega)) hopen'))

/-- `execute` returns with the execution in the state `s`. -/
def EndsIn (i : Invocation σ) (s : ExecutionState σ) : Prop := .halted s ∈ execute i

theorem hasThreshold {i : Invocation σ} {r : ExecutionResult} (h0 : 0 ≤ i.ctx.msg.gas)
    (h63 : i.ctx.msg.gas ≤ 2 ^ 63 - 1) (hends : EndsIn i s) (hr : makeResult s = some r)
    (hkeeps : r.status.keepsGas)
    (hblind : ∀ c, StateTransition.Reaches (step i.env (analysisOf i)) (start i) c →
      ¬ SeesGas (analysisOf i) c) : HasThreshold EndsIn i s r := by
  have hwell : (Config.halted s).GoesWell id := by
    show s.status.keepsGas
    rwa [← (makeResult_fields hr).1]
  apply hasThreshold_of_ends hr hkeeps
  intro gas h0' h63'
  -- the second run starts in the same state but for its gas
  have hstart : Together gas (gas - i.ctx.msg.gas) i.ctx.msg.gas (start i)
      (start (i.withGas gas)) := by
    rw [start_eq, start_eq]
    exact .running 0 (apart_newState h0 h0')
  obtain ⟨c', hends', hcases⟩ := ends_together (f := step i.env (analysisOf i))
    (fun _ _ => nofun) (fun _ => rfl) (fun _ => rfl)
    (fun pos s t c hreaches hst hstep hwell =>
      step_together (by omega) (by omega) hst.1 hst.2 (hblind _ hreaches) hstep hwell)
    (fun pos s c hreaches h hopen hstep hwell =>
      step_depleted (by omega) h hopen (hblind _ hreaches) hstep hwell)
    (ends_iff_mem_eval.2 hends) hwell hstart
  have hexecute : c' ∈ execute (i.withGas gas) := ends_iff_mem_eval.1 hends'
  rcases hcases with hboth | ⟨hdepleted, hout⟩
  · cases hboth with
    | halted h => exact ⟨_, hexecute, .inl h⟩
  · cases c' with
    | running | fault => exact hout.elim
    | halted t => exact ⟨t, hexecute, .inr ⟨hdepleted, hout⟩⟩

end Baseline

end Ivmone
