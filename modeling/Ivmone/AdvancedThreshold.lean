import Ivmone.GasCorrection
import Ivmone.GasThreshold
import Ivmone.WrappedJumps

/-!
# The gas an execution by Advanced needs

Advanced takes the base costs of a block when the block begins. The law of the threshold holds for
it wherever SSTORE is not asked to give gas back to its block, which takes code of more than 4 GiB.
-/

set_option autoImplicit false

namespace Ivmone

open Lib Lib.Program

variable {σ : Type}

namespace Advanced

variable {env : Env σ} {gas δ budget limit : Int} {rev : Revision} {code : List Byte} {ip : Nat}
  {s t : AdvancedExecutionState σ} {fn : ExecFn} {arg : Argument}

/-! ## Entries that see the gas -/

/-- The function has access to the gas left. -/
def ExecFn.seesGas (rev : Revision) : ExecFn → Bool
  | .opGas | .opCall _ _ | .opCreate _ => true
  | .opSstore => decide (Revision.istanbul ≤ rev)
  | _ => false

theorem seesGas_instructionImplementations (rev : Revision) (op : Opcode) :
    (instructionImplementations op).seesGas rev = op.seesGas rev := by
  cases op with
  | push n =>
      simp only [instructionImplementations]
      split
      · rfl
      · rfl
  | _ => rfl

/-- The entry at the instruction pointer has access to the gas left. -/
def SeesGas (analysis : AdvancedCodeAnalysis) : Config (AdvancedExecutionState σ) → Prop
  | .running ip s => ∃ fn arg, analysis.instrs[ip]? = some ⟨some fn, arg⟩ ∧ fn.seesGas s.rev = true
  | _ => False

theorem seesGas_running_iff (analysis : AdvancedCodeAnalysis) (ip : Nat)
    (s : AdvancedExecutionState σ) :
    ((analysis.instrs[ip]?).bind Instruction.fn).any (ExecFn.seesGas s.rev) = true ↔
      SeesGas analysis (.running ip s) := by
  rw [Option.any_eq_true]
  constructor
  · rintro ⟨fn, hfn, hsees⟩
    obtain ⟨⟨_, arg⟩, hinstr, rfl⟩ := Option.bind_eq_some_iff.1 hfn
    exact ⟨fn, arg, hinstr, hsees⟩
  · rintro ⟨fn, arg, hinstr, hsees⟩
    exact ⟨fn, Option.bind_eq_some_iff.2 ⟨_, hinstr, rfl⟩, hsees⟩

instance (analysis : AdvancedCodeAnalysis) (c : Config (AdvancedExecutionState σ)) :
    Decidable (SeesGas analysis c) :=
  match c with
  | .running ip s => decidable_of_iff _ (seesGas_running_iff analysis ip s)
  | .halted _ | .fault _ => isFalse id

/-- The cost of the current block covers the costs up to an SSTORE that is next, so that its
correction of the gas is not negative. -/
def StoreCovered (analysis : AdvancedCodeAnalysis) : Config (AdvancedExecutionState σ) → Prop
  | .running ip s =>
      ∀ n, analysis.instrs[ip]? = some ⟨some .opSstore, .number n⟩ → n ≤ s.currentBlockCost
  | _ => True

/-- An entry that does not see the gas: only SSTORE before Istanbul changes the gas on its own. -/
theorem settled_or_sstore (env : Env σ) (analysis : AdvancedCodeAnalysis) (cost : Nat)
    (ctx : Context)
    (h : (analyze rev code).instrs[ip]? = some ⟨some fn, arg⟩) (hne : fn ≠ .opxBeginblock)
    (hsees : fn.seesGas ctx.rev = false) :
    Settled env (exec analysis cost ctx fn arg ip) ∨
      ∃ n, fn = .opSstore ∧ arg = .number n ∧ 0 ≤ n ∧ ¬ Revision.istanbul ≤ ctx.rev := by
  rcases op_of_entry h hne with rfl | ⟨op, d, gas, k, hop, rfl, rfl, hgas, -⟩
  · exact .inl (.steady (steady_exec analysis cost ctx arg ip (by simp)))
  · rw [seesGas_instructionImplementations] at hsees
    by_cases hsstore : op = .sstore
    · subst hsstore
      exact .inr ⟨gas, rfl, argOf_of_readsGas hop rfl gas k, hgas, of_decide_eq_false hsees⟩
    · exact .inl (settled_exec env analysis cost ctx _ ip hsees hsstore)

theorem exec_withGas_of_entry (analysis : AdvancedCodeAnalysis) (cost : Nat)
    (ctx : Context) (gas : Int)
    (h : (analyze rev code).instrs[ip]? = some ⟨some fn, arg⟩) (hne : fn ≠ .opxBeginblock) :
    exec analysis cost (ctx.withGas gas) fn arg ip = exec analysis cost ctx fn arg ip := by
  rcases op_of_entry h hne with rfl | ⟨op, d, -, -, -, rfl, -⟩
  · rfl
  · exact exec_withGas op analysis cost ctx gas arg ip

/-! ## One round of the loop -/

/-- The gas left, with the cost of the block that was taken in advance, is in the budget. -/
structure InBudget (budget : Int) (s : AdvancedExecutionState σ) : Prop where
  isOpen : Open (budget - s.currentBlockCost) s.toExecutionState
  cost : (s.currentBlockCost : Int) ≤ 2 ^ 32 - 1

/-- The two runs are in the same block, with the difference in their gas. -/
structure InStep (gas δ budget : Int) (s t : AdvancedExecutionState σ) : Prop where
  apart : Apart gas δ s.toExecutionState t.toExecutionState
  cost : t.currentBlockCost = s.currentBlockCost
  inBudget : InBudget budget s

/-- Both runs go on together. -/
abbrev Together (gas δ budget : Int) :
    Config (AdvancedExecutionState σ) → Config (AdvancedExecutionState σ) → Prop :=
  Config.Both (InStep gas δ budget) fun s t => Apart gas δ s.toExecutionState t.toExecutionState

/-- The first run goes on alone. -/
abbrev Alone (δ budget : Int) : Config (AdvancedExecutionState σ) → Prop :=
  Config.Depleted AdvancedExecutionState.toExecutionState δ (InBudget budget)

theorem wentWell_ofResult {cost : Nat} {r : Result σ Nat}
    (h : (ofResult cost r).GoesWell AdvancedExecutionState.toExecutionState) : WentWell r := by
  cases r with
  | ok pos s => trivial
  | exit status s => exact h
  | fault f => exact h

theorem alone_ofResult {cost : Nat} {r : Result σ Nat} (hcost : (cost : Int) ≤ 2 ^ 32 - 1)
    (h : r.Meets (fun _ s => Depleted δ s ∧ Open (budget - cost) s) (fun _ s => Depleted δ s)
      fun _ => False) : Alone δ budget (ofResult cost r) := by
  cases r with
  | ok pos s => exact ⟨h.1, h.2, hcost⟩
  | exit status s => exact ⟨h.solvent, h.short⟩
  | fault f => exact h

theorem together_ofResult {cost : Nat} {r r' : Result σ Nat} (hcost : (cost : Int) ≤ 2 ^ 32 - 1)
    (h : Followed gas δ (budget - cost) r r') :
    Together gas δ budget (ofResult cost r) (ofResult cost r') ∨
      Alone δ budget (ofResult cost r) ∧
        (ofResult cost r').OutOfGas AdvancedExecutionState.toExecutionState := by
  cases h with
  | ok pos h hs => exact .inl (.running pos ⟨h, rfl, hs, hcost⟩)
  | exit status h =>
      obtain ⟨⟨ghost, rfl⟩, hsolvent, hsolvent'⟩ := h
      exact .inl (.halted ⟨⟨ghost, rfl⟩, hsolvent, hsolvent'⟩)
  | bail hout hr => exact .inr ⟨alone_ofResult hcost hr, rfl, hout⟩

/-- A round of the loop at an entry other than BEGINBLOCK. -/
theorem step_of_entry (env : Env σ) {analysis : AdvancedCodeAnalysis}
    (h : analysis.instrs[ip]? = some ⟨some fn, arg⟩) (hne : fn ≠ .opxBeginblock) :
    step env analysis (.running ip s) = some (ofResult s.currentBlockCost
      ((exec analysis s.currentBlockCost s.toContext fn arg ip).run env s.toExecutionState)) := by
  rw [step, h]
  cases fn with
  | opxBeginblock => exact absurd rfl hne
  | _ => rfl

section Entries

variable (hinstr : (analyze rev code).instrs[ip]? = some ⟨some fn, arg⟩) (hne : fn ≠ .opxBeginblock)
  (hsees : ¬ SeesGas (analyze rev code) (.running ip s))
  (hcovered : StoreCovered (analyze rev code) (.running ip s))

include hinstr hsees in
theorem seesGas_eq_false : fn.seesGas s.rev = false := by
  rw [← Bool.not_eq_true]
  exact fun hsees' => hsees ⟨fn, arg, hinstr, hsees'⟩

include hinstr hne hsees hcovered

/-- The function of an entry in the two runs. -/
theorem entry_together (hbudget : budget < 2 ^ 63) (hbudget' : budget + δ < 2 ^ 63)
    (h : InStep gas δ budget s t) :
    GasTrails gas δ (budget - s.currentBlockCost) (fun _ => True)
      ((exec (analyze rev code) s.currentBlockCost s.toContext fn arg ip).run env
        s.toExecutionState)
      ((exec (analyze rev code) s.currentBlockCost s.toContext fn arg ip).run env
        t.toExecutionState) := by
  rcases settled_or_sstore env (analyze rev code) s.currentBlockCost s.toContext hinstr hne
    (seesGas_eq_false hinstr hsees) with hsettled | ⟨n, rfl, rfl, h0, hrev⟩
  · exact hsettled.trails (by omega) (by omega) h.apart h.inBudget.isOpen
  · exact sstore_trails env hrev ip h0 (hcovered n hinstr) h.inBudget.cost (by omega)
      (by omega) h.apart h.inBudget.isOpen

/-- The function of an entry in the first run alone. -/
theorem entry_alone (hbudget : budget < 2 ^ 63) (h : Depleted δ s.toExecutionState)
    (hs : InBudget budget s) :
    ((exec (analyze rev code) s.currentBlockCost s.toContext fn arg ip).run env
      s.toExecutionState).Meets (fun _ t => Depleted δ t ∧ Open (budget - s.currentBlockCost) t)
        (fun status t => ¬ status.keepsGas ∨ Depleted δ t) fun _ => True := by
  rcases settled_or_sstore env (analyze rev code) s.currentBlockCost s.toContext hinstr hne
    (seesGas_eq_false hinstr hsees) with hsettled | ⟨n, rfl, rfl, h0, hrev⟩
  · exact hsettled.depleted (by omega) h hs.isOpen
  · exact sstore_depleted env hrev ip h0 (hcovered n hinstr) hs.cost (by omega) h hs.isOpen

end Entries

/-! ### BEGINBLOCK -/

theorem opxBeginblock_of_short {info : BlockInfo}
    (h : toInt64 (s.gasLeft - info.gasCost) < 0) (ip : Nat) :
    opxBeginblock info ip s =
      .halted ⟨{ s.setGas (s.gasLeft - info.gasCost) with status := .outOfGas },
        s.currentBlockCost⟩ := if_pos h

theorem opxBeginblock_of_suits {info : BlockInfo} (hgas : 0 ≤ toInt64 (s.gasLeft - info.gasCost))
    (hreq : info.stackReq ≤ s.stack.height) (hgrowth : s.stack.height + info.stackMaxGrowth ≤ 1024)
    (ip : Nat) :
    opxBeginblock info ip s =
      .running (ip + 1) ⟨s.setGas (s.gasLeft - info.gasCost), info.gasCost⟩ := by
  rcases opxBeginblock_cases info ip s with ⟨-, -, -, hnot⟩ | ⟨hrun, -⟩
  · exact absurd ⟨hgas, hreq, hgrowth⟩ hnot
  · exact hrun

/-- The cost of a block that begins is part of the budget of its block. -/
theorem InBudget.begin {info : BlockInfo} (h : InBudget budget s)
    (hcost : (info.gasCost : Int) ≤ 2 ^ 32 - 1) :
    InBudget budget ⟨s.toExecutionState.paid info.gasCost, info.gasCost⟩ := by
  refine ⟨⟨?_, h.isOpen.noOutput⟩, hcost⟩
  have hbound := h.isOpen.bound
  show s.gasLeft - info.gasCost ≤ budget - info.gasCost
  omega

section Beginblock

variable {info : BlockInfo} (hcost : (info.gasCost : Int) ≤ 2 ^ 32 - 1)
  (hwell : (opxBeginblock info ip s).GoesWell AdvancedExecutionState.toExecutionState)

include hwell in
/-- A BEGINBLOCK that goes well has met the requirements of the block. -/
theorem beginblock_of_goesWell :
    0 ≤ toInt64 (s.gasLeft - info.gasCost) ∧ info.stackReq ≤ s.stack.height ∧
      s.stack.height + info.stackMaxGrowth ≤ 1024 := by
  rcases opxBeginblock_cases info ip s with ⟨status, hfails, heq, -⟩ | ⟨-, hmet⟩
  · rw [heq] at hwell
    exact absurd hwell hfails
  · exact hmet

include hcost hwell

theorem beginblock_together (hbudget : budget < 2 ^ 63) (hbudget' : budget + δ < 2 ^ 63)
    (h : InStep gas δ budget s t) :
    Together gas δ budget (opxBeginblock info ip s) (opxBeginblock info ip t) ∨
      Alone δ budget (opxBeginblock info ip s) ∧
        (opxBeginblock info ip t).OutOfGas AdvancedExecutionState.toExecutionState := by
  obtain ⟨hpaid, hreq, hgrowth⟩ := beginblock_of_goesWell hwell
  obtain ⟨-, hstack, hout, -⟩ := h.apart.fields
  obtain ⟨hs, ht⟩ := h.apart.setGas_eq h.inBudget.isOpen (by omega) (by omega)
    (Int.natCast_nonneg info.gasCost) (by omega)
  have hs' := toInt64_of_paid hs
  have ht' := toInt64_of_paid ht
  have hbegun := h.inBudget.begin hcost
  rw [opxBeginblock_of_suits hpaid hreq hgrowth, hs]
  rw [hs'] at hpaid
  by_cases hpaid' : (info.gasCost : Int) ≤ t.gasLeft
  · rw [opxBeginblock_of_suits (by omega) (by rwa [hstack]) (by rwa [hstack]), ht]
    exact .inl (.running _ ⟨h.apart.pay (by omega) hpaid', rfl, hbegun⟩)
  · -- Only the first run can pay for the block.
    rw [opxBeginblock_of_short (by omega), ht]
    exact .inr ⟨⟨h.apart.deplete (by omega) (by omega), hbegun⟩, rfl,
      hout.trans h.inBudget.isOpen.noOutput⟩

theorem beginblock_alone (hbudget : budget < 2 ^ 63) (h : Depleted δ s.toExecutionState)
    (hs : InBudget budget s) : Alone δ budget (opxBeginblock info ip s) := by
  obtain ⟨hpaid, hreq, hgrowth⟩ := beginblock_of_goesWell hwell
  have hbound := hs.isOpen.bound
  have heq : s.setGas (s.gasLeft - info.gasCost) = s.toExecutionState.paid info.gasCost :=
    setGas_of_cost h.solvent (by omega) (Int.natCast_nonneg info.gasCost) (by omega)
  have hexact := toInt64_of_paid heq
  rw [opxBeginblock_of_suits hpaid hreq hgrowth, heq]
  exact ⟨h.pay (Int.natCast_nonneg info.gasCost) (by omega), hs.begin hcost⟩

end Beginblock

section Steps

variable {c : Config (AdvancedExecutionState σ)}
  (hsees : ¬ SeesGas (analyze rev code) (.running ip s))
  (hcovered : StoreCovered (analyze rev code) (.running ip s))
  (hstep : step env (analyze rev code) (.running ip s) = some c)
  (hwell : c.GoesWell AdvancedExecutionState.toExecutionState)

include hsees hcovered hstep hwell

/-- One round of the loop in the two runs. -/
theorem step_together (hbudget : budget < 2 ^ 63) (hbudget' : budget + δ < 2 ^ 63)
    (h : InStep gas δ budget s t) :
    ∃ c', step env (analyze rev code) (.running ip t) = some c' ∧
      (Together gas δ budget c c' ∨
        Alone δ budget c ∧ c'.OutOfGas AdvancedExecutionState.toExecutionState) := by
  rcases step_inv hstep with ⟨f, rfl, -⟩ | ⟨info, hinstr, rfl⟩ | ⟨fn, arg, hinstr, hne, rfl⟩
  · exact hwell.elim
  · refine ⟨opxBeginblock info ip t, ?_, ?_⟩
    · rw [step, hinstr]
      rfl
    · exact beginblock_together (gasCost_of_beginblock hinstr) hwell hbudget hbudget' h
  · have hnext := step_of_entry (s := t) env hinstr hne
    rw [h.cost, h.apart.context, exec_withGas_of_entry _ _ _ _ hinstr hne] at hnext
    exact ⟨_, hnext, together_ofResult h.inBudget.cost
      (followed_of_gasTrails (wentWell_ofResult hwell)
      (entry_together hinstr hne hsees hcovered hbudget hbudget' h))⟩

/-- One round of the loop in the first run alone. -/
theorem step_alone (hbudget : budget < 2 ^ 63) (h : Depleted δ s.toExecutionState)
    (hs : InBudget budget s) : Alone δ budget c := by
  rcases step_inv hstep with ⟨f, rfl, -⟩ | ⟨info, hinstr, rfl⟩ | ⟨fn, arg, hinstr, hne, rfl⟩
  · exact hwell.elim
  · exact beginblock_alone (gasCost_of_beginblock hinstr) hwell hbudget h hs
  · exact alone_ofResult hs.cost (depleted_of_wentWell (wentWell_ofResult hwell)
      (entry_alone hinstr hne hsees hcovered hbudget h hs))

end Steps

/-! ## Runs -/

/-- `execute` returns with the execution in the state `s`. -/
def EndsIn (i : Invocation σ) (s : ExecutionState σ) : Prop :=
  ∃ t, .halted t ∈ execute i ∧ t.toExecutionState = s

theorem hasThreshold {i : Invocation σ} {s : ExecutionState σ} {r : ExecutionResult}
    (h0 : 0 ≤ i.ctx.msg.gas) (h63 : i.ctx.msg.gas ≤ 2 ^ 63 - 1) (hends : EndsIn i s)
    (hr : makeResult s = some r) (hkeeps : r.status.keepsGas)
    (hblind : ∀ c, StateTransition.Reaches (step i.env (analysisOf i)) (start i) c →
      ¬ SeesGas (analysisOf i) c)
    (hcovered : ∀ c, StateTransition.Reaches (step i.env (analysisOf i)) (start i) c →
      StoreCovered (analysisOf i) c) : HasThreshold EndsIn i s r := by
  obtain ⟨s, hends, rfl⟩ := hends
  have hwell : (Config.halted s).GoesWell AdvancedExecutionState.toExecutionState := by
    show s.status.keepsGas
    rwa [← (makeResult_fields hr).1]
  apply hasThreshold_of_ends hr hkeeps
  intro gas h0' h63'
  have hstart : Together gas (gas - i.ctx.msg.gas) i.ctx.msg.gas (start i)
      (start (i.withGas gas)) := by
    obtain ⟨hapart, hopen⟩ := @apart_newState σ gas i h0 h0'
    refine .running 0 ⟨hapart, rfl, hopen.mono ?_, by norm_num⟩
    show i.ctx.msg.gas ≤ i.ctx.msg.gas - ((0 : Nat) : Int)
    omega
  obtain ⟨c', hends', hcases⟩ := ends_together (f := step i.env (analysisOf i))
    (fun _ _ => nofun) (fun _ => rfl) (fun _ => rfl)
    (fun ip s t c hreaches h hstep hwell => step_together (hblind _ hreaches) (hcovered _ hreaches)
      hstep hwell (by omega) (by omega) h)
    (fun ip s c hreaches h hs hstep hwell => step_alone (hblind _ hreaches) (hcovered _ hreaches)
      hstep hwell (by omega) h hs)
    (ends_iff_mem_eval.2 hends) hwell hstart
  have hexecute : c' ∈ execute (i.withGas gas) := ends_iff_mem_eval.1 hends'
  rcases hcases with hboth | ⟨hdepleted, hout⟩
  · cases hboth with
    | halted h => exact ⟨_, ⟨_, hexecute, rfl⟩, .inl h⟩
  · cases c' with
    | running | fault => exact hout.elim
    | halted t => exact ⟨_, ⟨t, hexecute, rfl⟩, .inr ⟨hdepleted, hout⟩⟩

/-- In code of less than 2^30 bytes a run is in the block of its entry, so that the cost of the
block covers each of its instructions. -/
theorem storeCovered_of_reaches {i : Invocation σ} (hsize : i.ctx.code.bytes.length < 2 ^ 30)
    (hfit : BlockCostsFit i.ctx.rev i.ctx.code.bytes) {c : Config (AdvancedExecutionState σ)}
    (h : StateTransition.Reaches (step i.env (analysisOf i)) (start i) c) :
    StoreCovered (analysisOf i) c := by
  cases c with
  | halted | fault => trivial
  | running ip s =>
      intro n hinstr
      obtain ⟨closed, done, d, rest, post, hsplit, -, -, harg, hcost⟩ :=
        located_of_corrects hsize h hinstr rfl
      injection harg with hn
      have hblock : baseCost i.ctx.rev (done ++ d :: rest) ≤ 2 ^ 32 - 1 :=
        hfit _ (by rw [hsplit]; simp)
      have hsplit' : done ++ d :: rest = done ++ [d] ++ rest := by simp
      have hrest := baseCost_nonneg i.ctx.rev rest
      rw [hsplit', baseCost_append] at hblock hcost
      omega

end Advanced

/-- The gas an execution needs is exact. If it ends with SUCCESS or REVERT and no instruction had
access to the gas left, then executions with at least the gas it used do the same, and those with
less are out of gas. For Advanced, the costs of the blocks have to cover the SSTORE instructions, as
they do in code of less than `2 ^ 30` bytes. -/
theorem gas_threshold (i : Invocation σ) (h0 : 0 ≤ i.ctx.msg.gas) (h63 : i.ctx.msg.gas ≤ 2 ^ 63 - 1)
    {s : ExecutionState σ} {r : ExecutionResult} (hr : makeResult s = some r)
    (hkeeps : r.status.keepsGas) :
    (Baseline.EndsIn i s →
      (∀ c, StateTransition.Reaches (Baseline.step i.env (Baseline.analysisOf i))
        (Baseline.start i) c → ¬ Baseline.SeesGas (Baseline.analysisOf i) c) →
      HasThreshold Baseline.EndsIn i s r) ∧
    (Advanced.EndsIn i s →
      (∀ c, StateTransition.Reaches (Advanced.step i.env (Advanced.analysisOf i))
        (Advanced.start i) c → ¬ Advanced.SeesGas (Advanced.analysisOf i) c) →
      ((∀ c, StateTransition.Reaches (Advanced.step i.env (Advanced.analysisOf i))
        (Advanced.start i) c → Advanced.StoreCovered (Advanced.analysisOf i) c) →
        HasThreshold Advanced.EndsIn i s r) ∧
      (Advanced.BlockCostsFit i.ctx.rev i.ctx.code.bytes → i.ctx.code.bytes.length < 2 ^ 30 →
        ∀ c, StateTransition.Reaches (Advanced.step i.env (Advanced.analysisOf i))
          (Advanced.start i) c → Advanced.StoreCovered (Advanced.analysisOf i) c)) := by
  constructor
  · intro hends hblind
    exact Baseline.hasThreshold h0 h63 hends hr hkeeps hblind
  · intro hends hblind
    constructor
    · intro hcovered
      exact Advanced.hasThreshold h0 h63 hends hr hkeeps hblind hcovered
    · intro hfit hsize c hreaches
      exact Advanced.storeCovered_of_reaches hsize hfit hreaches

/-! ## Two executions -/

/-- The execution has halted with this result. -/
def Config.Returns {S : Type} (state : S → ExecutionState σ) (r : ExecutionResult) : Config S → Prop
  | .halted s => makeResult (state s) = some r
  | _ => False

instance {S : Type} (state : S → ExecutionState σ) (r : ExecutionResult) (c : Config S) :
    Decidable (c.Returns state r) :=
  match c with
  | .halted s => inferInstanceAs (Decidable (makeResult (state s) = some r))
  | .running _ _ | .fault _ => isFalse id

theorem Config.Returns.eq_halted {S : Type} {state : S → ExecutionState σ} {r : ExecutionResult}
    {c : Config S} (h : c.Returns state r) : ∃ s, c = .halted s ∧
      makeResult (state s) = some r := by
  cases c with
  | halted s => exact ⟨s, rfl, h⟩
  | running | fault => exact h.elim

section Evaluated

variable {i : Invocation σ} {r : ExecutionResult} {n : Nat}

/-- What is known of an execution from its first steps, if it ends with them. -/
theorem Baseline.endsIn_of_returns
    (h : (Lib.after (step i.env (analysisOf i)) (start i) n).Returns id r)
    (hblind : ∀ m ≤ n, ¬ SeesGas (analysisOf i) (Lib.after (step i.env (analysisOf i))
      (start i) m)) :
    ∃ s, EndsIn i s ∧ makeResult s = some r ∧
      ∀ c, StateTransition.Reaches (step i.env (analysisOf i)) (start i) c →
        ¬ SeesGas (analysisOf i) c := by
  obtain ⟨s, hs, hr⟩ := h.eq_halted
  have hend : step i.env (analysisOf i) (Lib.after (step i.env (analysisOf i)) (start i)
      n) = none := by
    rw [hs]
    rfl
  refine ⟨s, ends_iff_mem_eval.1 ⟨hs ▸ reaches_after _ n, rfl⟩, hr, ?_⟩
  intro c hc
  exact forall_reaches_of_after (P := fun c => ¬ SeesGas (analysisOf i) c) hend hblind hc

theorem Advanced.endsIn_of_returns
    (h : (Lib.after (step i.env (analysisOf i)) (start i) n).Returns
      AdvancedExecutionState.toExecutionState r)
    (hblind : ∀ m ≤ n, ¬ SeesGas (analysisOf i) (Lib.after (step i.env (analysisOf i))
      (start i) m)) :
    ∃ s, EndsIn i s ∧ makeResult s = some r ∧
      ∀ c, StateTransition.Reaches (step i.env (analysisOf i)) (start i) c →
        ¬ SeesGas (analysisOf i) c := by
  obtain ⟨s, hs, hr⟩ := h.eq_halted
  have hend : step i.env (analysisOf i) (Lib.after (step i.env (analysisOf i)) (start i)
      n) = none := by
    rw [hs]
    rfl
  refine ⟨s.toExecutionState, ⟨s, ends_iff_mem_eval.1 ⟨hs ▸ reaches_after _ n, rfl⟩, rfl⟩, hr, ?_⟩
  intro c hc
  exact forall_reaches_of_after (P := fun c => ¬ SeesGas (analysisOf i) c) hend hblind hc

end Evaluated

/-- A word is loaded from the memory, as the whole code. -/
def loadWord : Invocation Unit :=
  simpleInvocation .berlin ⟨[Opcode.msize, .mload].map Opcode.toByte, by norm_num⟩ 100 0

/-- The base costs and one word of memory. -/
theorem gas_threshold_loadWord :
    ∃ s t r, Baseline.EndsIn loadWord s ∧ Advanced.EndsIn loadWord t ∧ makeResult s = some r ∧
      makeResult t = some r ∧ r.status = .success ∧ loadWord.ctx.msg.gas - r.gasLeft = 8 ∧
      HasThreshold Baseline.EndsIn loadWord s r ∧ HasThreshold Advanced.EndsIn loadWord t r := by
  obtain ⟨s, hends, hr, hblind⟩ := Baseline.endsIn_of_returns (i := loadWord) (n := 3)
    (r := ⟨.success, 92, []⟩) (by decide +kernel) (by decide +kernel)
  obtain ⟨t, hends', hr', hblind'⟩ := Advanced.endsIn_of_returns (i := loadWord) (n := 4)
    (r := ⟨.success, 92, []⟩) (by decide +kernel) (by decide +kernel)
  obtain ⟨hbaseline, -⟩ := gas_threshold loadWord (by decide) (by decide) hr (by decide)
  obtain ⟨-, hadvanced⟩ := gas_threshold loadWord (by decide) (by decide) hr' (by decide)
  obtain ⟨hthreshold, hcovered⟩ := hadvanced hends' hblind'
  refine ⟨s, t, _, hends, hends', hr, hr', rfl, by decide, hbaseline hends hblind, ?_⟩
  exact hthreshold (hcovered (Advanced.blockCostsFit_of_length _ (by decide)) (by decide))

namespace Advanced

/-- Code that wraps around, where the entry 35 is the SSTORE. -/
def wrappedStore (gas : Int) : Invocation Unit := wrapped 25 (2 ^ 32 - 4) (by norm_num) gas

/-- A configuration at an entry of the table, or the end. -/
def InTable {σ : Type} (analysis : AdvancedCodeAnalysis) : Config (AdvancedExecutionState σ) → Prop
  | .running ip _ => ip < analysis.instrs.length
  | .halted _ => True
  | .fault _ => False

instance {σ : Type} (analysis : AdvancedCodeAnalysis) (c : Config (AdvancedExecutionState σ)) :
    Decidable (InTable analysis c) :=
  match c with
  | .running ip _ => inferInstanceAs (Decidable (ip < analysis.instrs.length))
  | .halted _ => isTrue trivial
  | .fault _ => isFalse id

/-- The entries that follow do not matter for what an entry sees. -/
theorem not_seesGas_append {analysis : AdvancedCodeAnalysis} {rest : List Instruction}
    {c : Config (AdvancedExecutionState σ)} (hin : InTable analysis c) (h : ¬ SeesGas analysis c) :
    ¬ SeesGas { analysis with instrs := analysis.instrs ++ rest } c := by
  cases c with
  | halted | fault => exact id
  | running ip s =>
      rintro ⟨fn, arg, hinstr, hsees⟩
      have hleft : (analysis.instrs ++ rest)[ip]? = analysis.instrs[ip]? :=
        List.getElem?_append_left hin
      exact h ⟨fn, arg, hleft ▸ hinstr, hsees⟩

/-- A run of the wrapped code, from its first steps. -/
theorem endsIn_wrappedStore (gas : Int) {r : ExecutionResult} {n : Nat}
    (h : (Lib.after (step (wrappedStore gas).env (wrappedAnalysis 25))
      (start (wrappedStore gas)) n).Returns AdvancedExecutionState.toExecutionState r)
    (hblind : ∀ m ≤ n,
      InTable (wrappedAnalysis 25)
        (Lib.after (step (wrappedStore gas).env (wrappedAnalysis 25))
          (start (wrappedStore gas)) m) ∧
      ¬ SeesGas (wrappedAnalysis 25)
        (Lib.after (step (wrappedStore gas).env (wrappedAnalysis 25))
          (start (wrappedStore gas)) m)) :
    ∃ s, EndsIn (wrappedStore gas) s ∧ makeResult s = some r ∧
      ∀ c, StateTransition.Reaches (step (wrappedStore gas).env (analysisOf (wrappedStore gas)))
        (start (wrappedStore gas)) c → ¬ SeesGas (analysisOf (wrappedStore gas)) c := by
  -- up to the last step the run stays in the short table, where the two analyses agree
  have hafter : ∀ m ≤ n,
      Lib.after (step (wrappedStore gas).env (analysisOf (wrappedStore gas)))
        (start (wrappedStore gas)) m =
      Lib.after (step (wrappedStore gas).env (wrappedAnalysis 25))
        (start (wrappedStore gas)) m := by
    intro m hm
    refine after_wrapped _ rfl ?_
    intro f hf
    have hin := (hblind m hm).1
    rw [show Lib.after _ _ m = Config.fault f from hf] at hin
    exact hin
  apply endsIn_of_returns
  · rw [hafter n le_rfl]
    exact h
  · intro m hm
    obtain ⟨rest, hrest⟩ := analyze_wrappedBytes (show 25 + (2 ^ 32 - 4) = 2 ^ 32 + 21 by norm_num)
    have hanalysis : analysisOf (wrappedStore gas) =
        { wrappedAnalysis 25 with instrs := (wrappedAnalysis 25).instrs ++ rest } := hrest
    rw [hafter m hm, hanalysis]
    exact not_seesGas_append (hblind m hm).1 (hblind m hm).2

/-- In code that wraps around, an execution that uses 5024 of its gas is out of gas with no more
than that. -/
theorem no_gas_threshold_wrappedStore :
    ∃ s r, 0 ≤ (wrappedStore 100000).ctx.msg.gas ∧ (wrappedStore 100000).ctx.msg.gas ≤ 2 ^ 63 - 1 ∧
      BlockCostsFit (wrappedStore 100000).ctx.rev (wrappedStore 100000).ctx.code.bytes ∧
      EndsIn (wrappedStore 100000) s ∧ makeResult s = some r ∧ r.status.keepsGas ∧
      (∀ c, StateTransition.Reaches (step (wrappedStore 100000).env
        (analysisOf (wrappedStore 100000)))
        (start (wrappedStore 100000)) c → ¬ SeesGas (analysisOf (wrappedStore 100000)) c) ∧
      ¬ HasThreshold EndsIn (wrappedStore 100000) s r := by
  obtain ⟨s, hends, hr, hblind⟩ := endsIn_wrappedStore 100000 (n := 10)
    (r := ⟨.success, 94976, []⟩) (by decide +kernel) (by decide +kernel)
  obtain ⟨t, ⟨c, ht, rfl⟩, hr', -⟩ := endsIn_wrappedStore 5024 (n := 9)
    (r := ⟨.outOfGas, 0, []⟩) (by decide +kernel) (by decide +kernel)
  refine ⟨s, _, by decide, by decide, blockCostsFit_wrappedBytes (by norm_num), hends,
    hr, by decide, hblind, ?_⟩
  intro h
  obtain ⟨t', ⟨c', ht', rfl⟩, -, hr''⟩ := (h 5024 (by norm_num) (by norm_num)).1 (by decide)
  -- Both are the end of the same execution.
  have hsame := Part.mem_unique ht' ht
  injection hsame with hsame
  rw [hsame, hr'] at hr''
  injection hr'' with hr''
  injection hr'' with hstatus
  cases hstatus

end Advanced

end Ivmone
