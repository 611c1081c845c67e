import Ivmone.GasCorrection
import Ivmone.PayableMemory

/-!
# Memory checks in whole runs

In Baseline every memory check is precise. In Advanced that depends on the correction of the gas: a
call or creation that runs with a negative gas counter would be told that memory which is there
already is free. The instruction table of code of less than `2 ^ 30` bytes never lets that happen.
-/

set_option autoImplicit false

namespace Ivmone

open Lib Lib.Program Instructions

variable {σ : Type} {env : Env σ} {ctx : Context} {s s' t : ExecutionState σ} {budget : Int}

/-! ## Instructions -/

section Takes

attribute [local simp] Uses Footprint Op.Takes Op.KeepsMemory Exec.perform Exec.pop Exec.push
  Exec.peek Exec.poke Exec.top Exec.setTop Exec.checkMemory Exec.load Exec.gasLeft Exec.int64
  Exec.setOutputOffset Exec.setOutputSize Exec.request Exec.Host.accessStorage

attribute [local simp] footprint_exit footprint_fault

theorem Op.OnStack.takes {o : Op} (h : o.OnStack) : o.Takes := by
  cases o with
  | charge | checkMemory | setGasLeft => exact h.elim
  | _ => trivial

theorem keepsMemory_paySstore (ctx : Context) : (paySstore ctx).Uses Op.KeepsMemory := by
  simp [paySstore]

/-- The cost of a cold access is small. -/
theorem paySstore_cost (ctx : Context) :
    (paySstore ctx).Sat (Footprint fun _ => True) (fun x _ => 0 ≤ x.2.2 ∧ x.2.2 ≤ 2100) () := by
  simp [paySstore, instr.coldSloadCost]
  grind

/-- The entries of Advanced that neither run an implementation of Baseline nor correct the gas. -/
theorem takes_exec {fn : Advanced.ExecFn} (analysis : Advanced.AdvancedCodeAnalysis) (cost : Nat)
    (ctx : Context) (arg : Advanced.Argument) (ip : Nat)
    (hfn : fn = .opJump ∨ fn = .opJumpi ∨ fn = .opPc ∨ fn = .opGas ∨ fn = .opPushSmall ∨
      fn = .opPushFull ∨ (∃ status, fn = .opReturn status) ∨ fn = .opUndefined) :
    (Advanced.exec analysis cost ctx fn arg ip).Uses Op.Takes := by
  have hstack : fn = .opJump ∨ fn = .opJumpi ∨ fn = .opPc ∨ fn = .opPushSmall ∨ fn = .opPushFull ∨
      fn = .opUndefined → (Advanced.exec analysis cost ctx fn arg ip).Uses Op.Takes :=
    fun h => (onStack_exec analysis cost ctx arg ip h).mono fun _ h => h.takes
  rcases hfn with h | h | h | rfl | h | h | ⟨status, rfl⟩ | h
  · exact hstack (by simp [h])
  · exact hstack (by simp [h])
  · exact hstack (by simp [h])
  · refine Uses.bind (Uses.bind ?_ fun number => by simp) fun _ => trivial
    exact (onStack_argNumber arg).mono fun _ h => h.takes
  · exact hstack (by simp [h])
  · exact hstack (by simp [h])
  · simp [Advanced.exec, Advanced.exitWith, Advanced.opReturn]
  · exact hstack (by simp [h])

end Takes

/-- The outcome of an implementation that keeps within the budget, and the rest of a round. -/
theorem next_solvent {α β : Type} {r : Result σ α} {f : α → β}
    (h : r.Meets (fun _ t => Solvent budget t) (fun _ t => ChecksPrecise t) fun _ => True) :
    (r.bind fun a t => .ok (f a) t).Meets (fun _ t => Solvent budget t) (fun _ t => ChecksPrecise t)
      fun _ => True :=
  Outcome.Meets.bind h fun _ _ ht => ht

theorem exit_solvent {r : Result σ StatusCode} {β : Type}
    (h : r.Meets (fun _ t => Solvent budget t) (fun _ t => ChecksPrecise t) fun _ => True) :
    (r.bind fun status t => (.exit status t : Result σ β)).Meets (fun _ t => Solvent budget t)
      (fun _ t => ChecksPrecise t) fun _ => True :=
  Outcome.Meets.bind h fun _ _ ht => ht.checks

/-- An instruction in Baseline. -/
theorem invoke_solvent (op : Opcode) (analysis : Baseline.CodeAnalysis) (ctx : Context) (pos : Nat)
    (hhost : env.host.CallBounded) (hbudget : budget < payableGas) (h : Solvent budget s) :
    ((Baseline.invoke (Baseline.op2fn op) analysis ctx pos).run env s).Meets
      (fun _ t => Solvent budget t) (fun _ t => ChecksPrecise t) fun _ => True := by
  cases hop : Baseline.op2fn op with
  | basic f =>
      rw [Exec.run, Baseline.invoke, run_bind]
      exact next_solvent (basic_solvent hop hhost hbudget h)
  | terminating f =>
      rw [Exec.run, Baseline.invoke, run_bind]
      exact exit_solvent (run_solvent env (takes_terminating hop) hbudget h)
  | codePosition f => exact run_solvent env (((onStack_codePosition hop analysis pos).mono fun _ h => h.takes)) hbudget h

/-- SSTORE takes its cost last. -/
theorem sstore_ok (hlow : -2 ^ 62 ≤ s.gasLeft) (hhigh : s.gasLeft < 2 ^ 62)
    (h : (sstore ctx).run env s = .ok () t) :
    0 ≤ t.gasLeft ∧ t.gasLeft ≤ s.gasLeft ∧ t.memory = s.memory := by
  rw [sstore_eq] at h
  obtain ⟨x, s1, hpay, h⟩ := run_bind_eq_ok h
  obtain ⟨status, s2, hset, hcharge⟩ := run_bind_eq_ok h
  have hgas := run_keepsGas env (keepsGas_paySstore ctx) s
  have hmemory := run_keepsMemory env (keepsMemory_paySstore ctx) s
  rw [Exec.run, hpay] at hgas hmemory
  have hany : ∀ o (s' : ExecutionState σ), True → True →
      (handle env o s').Meets (fun _ _ => True) (fun _ _ => True) fun _ => True := by
    intro o s' _ _
    cases handle env o s' <;> trivial
  have hcost := run_of_footprint hany (paySstore_cost ctx) (s := s) trivial
  rw [hpay] at hcost
  obtain ⟨h0, h62⟩ := sstoreCost_range ctx.rev hcost.2.1 hcost.2.2 status
  injection hset with _ hs2
  have hgas' : s1.gasLeft = s.gasLeft := hgas
  have hgas2 : s2.gasLeft = s1.gasLeft := by rw [← hs2]
  have hmemory2 : s2.memory = s1.memory := by rw [← hs2]
  rw [Exec.charge, Exec.perform, run_perform] at hcharge
  simp only [handle] at hcharge
  split at hcharge
  · cases hcharge
  · rename_i hpos
    injection hcharge with _ ht
    subst ht
    -- the gas may be negative here, lent or not, but it is far from the ends of the range
    have hexact : toInt64 (s2.gasLeft - sstoreCost ctx.rev x.2.2 status) =
        s2.gasLeft - sstoreCost ctx.rev x.2.2 status := toInt64_of_inInt64 ⟨by omega, by omega⟩
    refine ⟨Int.not_lt.1 hpos, ?_, hmemory2.trans hmemory⟩
    show toInt64 (s2.gasLeft - sstoreCost ctx.rev x.2.2 status) ≤ s.gasLeft
    omega

/-! ## Corrected gas -/

namespace Advanced

variable {cost : Nat} {n : Int}

/-- The amounts of gas are small. -/
theorem Solvent.small (h : Solvent (budget - cost) s) (hbudget : budget < payableGas) :
    0 ≤ s.gasLeft ∧ s.gasLeft + cost < 2 ^ 62 := by
  have hmemory : 0 ≤ memoryCost (s.memory.size / 32) := memoryCost_nonneg (by omega)
  have hfunds : s.gasLeft + memoryCost (s.memory.size / 32) ≤ budget - cost := h.funds
  have hpayable : payableGas < 2 ^ 62 := by decide
  exact ⟨h.gas, by omega⟩

theorem gasLeft_lend (hgas : 0 ≤ s.gasLeft ∧ s.gasLeft + cost < 2 ^ 62) (h0 : 0 ≤ n)
    (hn : n ≤ 2 ^ 32 - 1) : (lend s (cost - n)).gasLeft = s.gasLeft + (cost - n) := by
  have hcorrection : toInt64 (cost - n) = cost - n := toInt64_of_inInt64 ⟨by omega, by omega⟩
  show toInt64 (s.gasLeft + toInt64 (cost - n)) = _
  rw [hcorrection, toInt64_of_inInt64 ⟨by omega, by omega⟩]

/-- The state with the gas lent is within the budget if its gas is not negative. -/
theorem Solvent.lend (h : Solvent (budget - cost) s) (hbudget : budget < payableGas) (h0 : 0 ≤ n)
    (hn : n ≤ 2 ^ 32 - 1) (hcovered : n ≤ s.gasLeft + cost) :
    Solvent (budget - n) (Advanced.lend s (cost - n)) := by
  have hlent := gasLeft_lend (Solvent.small h hbudget) h0 hn
  have hfunds : s.gasLeft + memoryCost (s.memory.size / 32) ≤ budget - cost := h.funds
  refine ⟨h.words, by omega, ?_, h.checks⟩
  show (Advanced.lend s (cost - n)).gasLeft + memoryCost (s.memory.size / 32) ≤ budget - n
  omega

/-- What was lent is taken back. -/
theorem Solvent.takeBack (h : Solvent (budget - n) s) (hbudget : budget < payableGas) (h0 : 0 ≤ n)
    (hn : n ≤ 2 ^ 32 - 1) (hcost : (cost : Int) < 2 ^ 62) :
    (handle env (.charge (toInt64 (cost - n))) s).Meets (fun _ t => Solvent (budget - cost) t)
      (fun _ t => ChecksPrecise t) fun _ => True := by
  have hgas := h.gas
  have hlt := h.gas_lt (by omega)
  have hfunds : s.gasLeft + memoryCost (s.memory.size / 32) ≤ budget - n := h.funds
  rw [toInt64_of_inInt64 ⟨by omega, by omega⟩]
  simp only [handle]
  split
  · exact h.checks
  · rename_i hpos
    have hexact : toInt64 (s.gasLeft - (cost - n)) = s.gasLeft - (cost - n) :=
      toInt64_of_inInt64 ⟨by omega, by omega⟩
    refine ⟨h.words, Int.not_lt.1 hpos, ?_, h.checks⟩
    show toInt64 (s.gasLeft - (cost - n)) + memoryCost (s.memory.size / 32) ≤ budget - cost
    omega

theorem corrected_solvent {p : Exec Unit} (h : Solvent (budget - cost) s)
    (hbudget : budget < payableGas) (h0 : 0 ≤ n) (hn : n ≤ 2 ^ 32 - 1)
    (hcovered : n ≤ s.gasLeft + cost)
    (hp : ∀ {b : Int} {s : ExecutionState σ}, b < payableGas → Solvent b s →
      (p.run env s).Meets (fun _ t => Solvent b t) (fun _ t => ChecksPrecise t) fun _ => True) :
    ((corrected cost (.number n) p).run env s).Meets (fun _ t => Solvent (budget - cost) t)
      (fun _ t => ChecksPrecise t) fun _ => True := by
  have hsmall := Solvent.small h hbudget
  rw [run_corrected]
  refine Outcome.Meets.bind (hp (by omega) (Solvent.lend h hbudget h0 hn hcovered)) fun _ t ht => ?_
  exact Solvent.takeBack ht hbudget h0 hn (by omega)

/-- SSTORE checks no memory, and does not succeed with a negative gas counter. -/
theorem corrected_sstore_solvent (h : Solvent (budget - cost) s) (hbudget : budget < payableGas)
    (h0 : 0 ≤ n) (hn : n ≤ 2 ^ 32 - 1) :
    ((corrected cost (.number n) (sstore ctx)).run env s).Meets
      (fun _ t => Solvent (budget - cost) t) (fun _ t => ChecksPrecise t) fun _ => True := by
  by_cases hcovered : n ≤ s.gasLeft + cost
  · refine corrected_solvent h hbudget h0 hn hcovered fun hb hs => ?_
    exact run_solvent env (takes_sstore ctx) hb hs
  · have hsmall := Solvent.small h hbudget
    have hlent := gasLeft_lend hsmall h0 hn
    have hlentChecks : ChecksPrecise (Advanced.lend s (cost - n)) := h.checks
    have hskips := run_skipsChecks env (skips_sstore ctx) hlentChecks
    rw [run_corrected]
    cases hrun : (sstore ctx).run env (Advanced.lend s (cost - n)) with
    | fault f => trivial
    | exit status t =>
        rw [hrun] at hskips
        exact hskips
    | ok u t =>
        obtain ⟨hpos, hle, -⟩ := sstore_ok (by omega) (by omega) hrun
        omega

/-! ## Entries of the table -/

/-- The calls and creations. -/
def ExecFn.isCall : ExecFn → Bool
  | .opCall _ _ | .opCreate _ => true
  | _ => false

/-- The gas is not negative with which a call or creation at the instruction pointer will run. -/
def Covered (analysis : AdvancedCodeAnalysis) : Config (AdvancedExecutionState σ) → Prop
  | .running ip s => ∀ fn n, analysis.instrs[ip]? = some ⟨some fn, .number n⟩ → fn.isCall = true →
      n ≤ s.gasLeft + s.currentBlockCost
  | _ => True

/-- An instruction in Advanced. -/
theorem exec_solvent {op : Opcode} {d : Decoded} {gas : Int} {k ip : Nat}
    (hop : Opcode.ofByte d.opcode = some op) (h0 : 0 ≤ gas) (hgas : gas ≤ 2 ^ 32 - 1)
    (analysis : AdvancedCodeAnalysis) (ctx : Context) (hhost : env.host.CallBounded)
    (hbudget : budget < payableGas) (h : Solvent (budget - cost) s)
    (hcovered : (instructionImplementations op).isCall = true → gas ≤ s.gasLeft + cost) :
    ((exec analysis cost ctx (instructionImplementations op) (argOf gas k d) ip).run env s).Meets
      (fun _ t => Solvent (budget - cost) t) (fun _ t => ChecksPrecise t) fun _ => True := by
  have hbudget' : budget - cost < payableGas := by omega
  have htakes : ∀ {fn}, (fn = .opJump ∨ fn = .opJumpi ∨ fn = .opPc ∨ fn = .opGas ∨
      fn = .opPushSmall ∨
      fn = .opPushFull ∨ (∃ status, fn = .opReturn status) ∨ fn = .opUndefined) →
      ((exec analysis cost ctx fn (argOf gas k d) ip).run env s).Meets
        (fun _ t => Solvent (budget - cost) t) (fun _ t => ChecksPrecise t) fun _ => True :=
    fun hfn => run_solvent env (takes_exec analysis cost ctx _ ip hfn) hbudget' h
  by_cases hreads : op.readsGas = true
  · -- The correction is only known not to be too large for calls and creations.
    rw [argOf_of_readsGas hop hreads] at htakes ⊢
    cases op with
    | gas => exact htakes (by simp [instructionImplementations])
    | sstore =>
        show ((next ip (corrected cost (.number gas) (sstore ctx))).run env s).Meets _ _ _
        rw [next, Exec.run, run_bind]
        exact next_solvent (corrected_sstore_solvent h hbudget h0 hgas)
    | call | callcode | delegatecall | staticcall =>
        show ((next ip (corrected cost (.number gas) (call _ _ ctx))).run env s).Meets _ _ _
        rw [next, Exec.run, run_bind]
        exact next_solvent (corrected_solvent h hbudget h0 hgas (hcovered rfl) fun hb hs =>
          call_solvent hhost hb hs)
    | create | create2 =>
        show ((next ip (corrected cost (.number gas) (create _ ctx))).run env s).Meets _ _ _
        rw [next, Exec.run, run_bind]
        exact next_solvent (corrected_solvent h hbudget h0 hgas (hcovered rfl) fun hb hs =>
          create_solvent hhost hb hs)
    | _ => cases hreads
  · have himpl := implemented op
    generalize hbase : Baseline.op2fn op = base at himpl
    generalize hfn : instructionImplementations op = fn at himpl
    cases himpl with
    | plain =>
        rw [exec, next, Exec.run, run_bind]
        exact next_solvent (basic_solvent hbase hhost hbudget' h)
    | corrected _ hreads' => exact absurd hreads' hreads
    | gas => exact absurd rfl hreads
    | jumpdest => trivial
    | jump | jumpi | pc | pushSmall | pushFull => exact htakes (by simp)
    | return_ => exact htakes (by simp)
    | terminating hexec =>
        rw [hexec, exitWith, Exec.run, run_bind]
        exact exit_solvent (run_solvent env (takes_terminating hbase) hbudget' h)

/-! ## Whole runs -/

/-- All checks in the state of a configuration are precise, and while the execution runs its gas is
within the budget. -/
abbrev Affordable (budget : Int) : Config (AdvancedExecutionState σ) → Prop :=
  Config.Meets (fun _ s => Solvent (budget - s.currentBlockCost) s.toExecutionState)
    (fun s => ChecksPrecise s.toExecutionState) fun _ => True

theorem affordable_beginblock {info : BlockInfo} {s : AdvancedExecutionState σ}
    (hbudget : budget < payableGas) (hcost : (info.gasCost : Int) ≤ 2 ^ 32 - 1)
    (h : Solvent (budget - s.currentBlockCost) s.toExecutionState) (ip : Nat) :
    Affordable budget (opxBeginblock info ip s) := by
  have hsmall := Solvent.small h hbudget
  rcases opxBeginblock_cases info ip s with ⟨status, -, heq, -⟩ | ⟨heq, hgas, -⟩
  · rw [heq]
    exact h.checks
  · rw [heq]
    have hfunds : s.gasLeft + memoryCost (s.memory.size / 32) ≤ budget -
        s.currentBlockCost := h.funds
    have hexact : toInt64 (s.gasLeft - info.gasCost) = s.gasLeft - info.gasCost :=
      toInt64_of_inInt64 ⟨by omega, by omega⟩
    refine ⟨h.words, hgas, ?_, h.checks⟩
    show toInt64 (s.gasLeft - info.gasCost) + memoryCost
        (s.memory.size / 32) ≤ budget - info.gasCost
    omega

/-- The cost of a BEGINBLOCK is a 32-bit value. -/
theorem gasCost_of_beginblock {rev : Revision} {code : List Byte} {ip : Nat} {info : BlockInfo}
    (h : (analyze rev code).instrs[ip]? = some ⟨some .opxBeginblock, .block info⟩) :
    (info.gasCost : Int) ≤ 2 ^ 32 - 1 := by
  have hentry := entry_of_mem_instrs (List.mem_of_getElem? h)
  generalize hinstr : (⟨some .opxBeginblock, .block info⟩ : Instruction) = entry at hentry
  cases hentry with
  | beginblock b =>
      injection hinstr with _ harg
      injection harg with hinfo
      rw [hinfo]
      exact gasCost_beginblockOf_le rev b
  | undefined arg =>
      injection hinstr with hfn
      cases hfn
  | op hop hjumpdest =>
      injection hinstr with hfn
      injection hfn with hfn
      exact absurd hfn.symm (instructionImplementations_ne_beginblock hjumpdest)

/-- The other entries are those of instructions, or of undefined ones. -/
theorem op_of_entry {rev : Revision} {code : List Byte} {ip : Nat} {fn : ExecFn} {arg : Argument}
    (h : (analyze rev code).instrs[ip]? = some ⟨some fn, arg⟩) (hne : fn ≠ .opxBeginblock) :
    fn = .opUndefined ∨ ∃ op d gas k, Opcode.ofByte (Decoded.opcode d) = some op ∧
      fn = instructionImplementations op ∧ arg = argOf gas k d ∧ 0 ≤ gas ∧
      (BlockCostsFit rev code → gas ≤ 2 ^ 32 - 1) := by
  have hentry := entry_of_mem_instrs (List.mem_of_getElem? h)
  generalize hinstr : (⟨some fn, arg⟩ : Instruction) = entry at hentry
  cases hentry with
  | beginblock b =>
      injection hinstr with hfn
      injection hfn with hfn
      exact absurd hfn hne
  | undefined arg' =>
      injection hinstr with hfn
      injection hfn with hfn
      exact .inl hfn
  | @op op d gas k hop hjumpdest hdef hgas hfits hvalue =>
      injection hinstr with hfn harg
      injection hfn with hfn
      exact .inr ⟨op, d, gas, k, hop, hfn, harg, hgas, hfits⟩

theorem affordable_ofResult {s : AdvancedExecutionState σ} {r : Result σ Nat}
    (h : r.Meets (fun _ t => Solvent (budget - s.currentBlockCost) t) (fun _ t => ChecksPrecise t)
      fun _ => True) : Affordable budget (ofResult s.currentBlockCost r) := by
  cases r with
  | ok ip t => exact h
  | exit status t => exact h
  | fault f => trivial

theorem affordable_step {rev : Revision} {code : List Byte} (hfit : BlockCostsFit rev code)
    (hhost : env.host.CallBounded) (hbudget : budget < payableGas)
    {c c' : Config (AdvancedExecutionState σ)} (hc : Affordable budget c)
    (hcovered : Covered (analyze rev code) c) (h : step env (analyze rev code) c = some c') :
    Affordable budget c' := by
  cases c with
  | halted | fault => cases h
  | running ip s =>
      rcases step_inv h with ⟨f, rfl, -⟩ | ⟨info, hinstr, rfl⟩ | ⟨fn, arg, hinstr, hne, rfl⟩
      · trivial
      · exact affordable_beginblock hbudget (gasCost_of_beginblock hinstr) hc ip
      · apply affordable_ofResult
        rcases op_of_entry hinstr hne with rfl | ⟨op, d, gas, k, hop, rfl, rfl, h0, hgas⟩
        · exact ChecksPrecise.congr hc.checks rfl
        · refine exec_solvent hop h0 (hgas hfit) _ _ hhost hbudget hc fun hcall => ?_
          have hreads : op.readsGas = true := by
            cases op with
            | call | callcode | delegatecall | staticcall | create | create2 => rfl
            | push n =>
                simp only [instructionImplementations] at hcall
                split at hcall <;> cases hcall
            | _ => cases hcall
          rw [argOf_of_readsGas hop hreads] at hinstr
          exact hcovered _ _ hinstr hcall

/-- In code of less than `2 ^ 30` bytes the correction is never negative. -/
theorem covered_of_reaches {i : Invocation σ} (hsize : i.ctx.code.bytes.length < 2 ^ 30)
    (hfit : BlockCostsFit i.ctx.rev i.ctx.code.bytes) (hhost : i.env.host.CallBounded)
    (h0 : 0 ≤ i.ctx.msg.gas) (h63 : i.ctx.msg.gas < 2 ^ 63) {c : Config (AdvancedExecutionState σ)}
    (h : StateTransition.Reaches (step i.env (analysisOf i)) (start i) c) :
    Covered (analysisOf i) c := by
  cases c with
  | halted | fault => trivial
  | running ip s =>
      intro fn n hinstr hcall
      have hcorrects : fn.corrects = true := by
        cases fn with
        | opCall | opCreate => rfl
        | _ => cases hcall
      obtain ⟨closed, done, d, rest, post, hsplit, -, -, harg, hcost⟩ :=
        located_of_corrects hsize h hinstr hcorrects
      injection harg with hn
      have hvalid := blockValid_of_reaches (premises_metered h0 h63) (fun _ => hfit) hsize h
      obtain ⟨hs, -, -⟩ := hvalid.resolve_left fun hd => not_derailed_of_callBounded hhost h0 hd.2
      have hgas := hs.gas trivial
      have hle := hfit (done ++ d :: rest) (by rw [hsplit]; simp)
      have hrest := baseCost_nonneg i.ctx.rev rest
      have hsum : baseCost i.ctx.rev (done ++ d :: rest) =
          baseCost i.ctx.rev (done ++ [d]) + baseCost i.ctx.rev rest := by
        rw [← baseCost_append, List.append_assoc]
        rfl
      omega

/-- A run in which every call and creation is covered. -/
def CoveredRun (i : Invocation σ) : Config (AdvancedExecutionState σ) → Prop :=
  Relation.ReflTransGen
    (fun c c' => Covered (analysisOf i) c ∧ step i.env (analysisOf i) c = some c') (start i)

theorem affordable_of_coveredRun {i : Invocation σ}
    (hfit : BlockCostsFit i.ctx.rev i.ctx.code.bytes)
    (hhost : i.env.host.CallBounded) (hgas : i.ctx.msg.gas < payableGas)
    (hstart : Solvent i.ctx.msg.gas i.newState) {c : Config (AdvancedExecutionState σ)}
    (h : CoveredRun i c) : Affordable i.ctx.msg.gas c := by
  induction h with
  | refl =>
      show Solvent (i.ctx.msg.gas - ((0 : Nat) : Int)) i.newState
      rwa [Int.natCast_zero, Int.sub_zero]
  | tail _ hstep ih => exact affordable_step hfit hhost hgas ih hstep.1 hstep.2

/-- Every run of code of less than `2 ^ 30` bytes is covered. -/
theorem coveredRun_of_reaches {i : Invocation σ} (hsize : i.ctx.code.bytes.length < 2 ^ 30)
    (hfit : BlockCostsFit i.ctx.rev i.ctx.code.bytes) (hhost : i.env.host.CallBounded)
    (h0 : 0 ≤ i.ctx.msg.gas) (h63 : i.ctx.msg.gas < 2 ^ 63) {c : Config (AdvancedExecutionState σ)}
    (h : StateTransition.Reaches (step i.env (analysisOf i)) (start i) c) : CoveredRun i c := by
  induction h with
  | refl => exact .refl
  | tail hbefore hstep ih =>
      exact ih.tail ⟨covered_of_reaches hsize hfit hhost h0 h63 hbefore, hstep⟩

end Advanced

/-- The start of an execution. -/
theorem solvent_newState {i : Invocation σ} (h0 : 0 ≤ i.ctx.msg.gas) :
    Solvent i.ctx.msg.gas i.newState where
  words := rfl
  gas := h0
  funds := by
    have hempty : memoryCost (((0 : Nat) : Int) / 32) = 0 := by decide
    show i.ctx.msg.gas + memoryCost (((0 : Nat) : Int) / 32) ≤ i.ctx.msg.gas
    omega
  checks _ h := absurd h List.not_mem_nil

/-- The configurations of Baseline. -/
abbrev Baseline.Affordable (budget : Int) : Config (ExecutionState σ) → Prop :=
  Config.Meets (fun _ s => Solvent budget s) ChecksPrecise fun _ => True

theorem Baseline.affordable_step {analysis : Baseline.CodeAnalysis} (hhost : env.host.CallBounded)
    (hbudget : budget < payableGas) {c c' : Config (ExecutionState σ)}
    (hc : Baseline.Affordable budget c) (h : Baseline.step env analysis c = some c') :
    Baseline.Affordable budget c' := by
  cases c with
  | halted | fault => cases h
  | running pos s =>
      have hs : Solvent budget s := hc
      rcases Baseline.step_inv h with ⟨f, rfl, -⟩ | ⟨b, status, s', -, -, rfl | ⟨-, -, rfl⟩, rfl⟩ |
        ⟨b, op, -, -, hdef, hgas, -, rfl⟩
      · trivial
      · exact hs.checks
      · exact hs.checks
      · have hlt := hs.gas_lt hbudget
        have hge := hs.gas
        obtain ⟨hcost, hcost'⟩ := instr.gasCosts_range hdef
        have hexact : toInt64 (s.gasLeft - instr.gasCosts s.rev op) =
            s.gasLeft - instr.gasCosts s.rev op := toInt64_of_inInt64 ⟨by omega, by omega⟩
        have hpaid : Solvent budget (s.setGas (s.gasLeft - instr.gasCosts s.rev op)) :=
          hs.take hcost hexact hgas rfl rfl
        have hrun := invoke_solvent op analysis s.toContext pos hhost hbudget hpaid
        generalize Exec.run env (Baseline.invoke (Baseline.op2fn op) analysis s.toContext pos) _ = r
          at hrun
        cases r with
        | ok pos' t => exact hrun
        | exit status t => exact hrun
        | fault f => trivial

/-- With payable gas, every memory check is precise in Baseline, and in Advanced in every run in
which no call or creation is entered with a negative gas counter; that is every run of code of less
than `2 ^ 30` bytes. -/
theorem memory_limit_precise (i : Invocation σ) (hhost : i.env.host.CallBounded)
    (h0 : 0 ≤ i.ctx.msg.gas) (hgas : i.ctx.msg.gas < 3 * 2 ^ 27 + 2 ^ 45) :
    (∀ c, StateTransition.Reaches (Baseline.step i.env (Baseline.analysisOf i))
      (Baseline.start i) c → c.StateMeets ChecksPrecise) ∧
    (Advanced.BlockCostsFit i.ctx.rev i.ctx.code.bytes →
      (∀ c, Advanced.CoveredRun i c → c.StateMeets fun s => ChecksPrecise s.toExecutionState) ∧
      (i.ctx.code.bytes.length < 2 ^ 30 →
        ∀ c, StateTransition.Reaches (Advanced.step i.env (Advanced.analysisOf i))
          (Advanced.start i) c → Advanced.CoveredRun i c)) := by
  have hbudget : i.ctx.msg.gas < payableGas := by
    have hpayable : payableGas = 3 * 2 ^ 27 + 2 ^ 45 := by decide
    omega
  have hstart := solvent_newState h0
  refine ⟨fun c hc => ?_, fun hfit => ⟨fun c hc => ?_, fun hsize c hc => ?_⟩⟩
  · have hbaseline : Baseline.Affordable i.ctx.msg.gas (Baseline.start i) := by
      rw [Baseline.start_eq]
      exact hstart
    have haffordable := invariant_of_reaches (fun _ _ => Baseline.affordable_step hhost hbudget) hc
      hbaseline
    cases c with
    | running pos s => exact haffordable.checks
    | halted s => exact haffordable
    | fault f => trivial
  · have haffordable := Advanced.affordable_of_coveredRun hfit hhost hbudget hstart hc
    cases c with
    | running ip s => exact haffordable.checks
    | halted s => exact haffordable
    | fault f => trivial
  · exact Advanced.coveredRun_of_reaches hsize hfit hhost h0 (by omega) hc

theorem memory_limit_precise_truncatedPush :
    (∀ c, StateTransition.Reaches (Baseline.step truncatedPush.env
      (Baseline.analysisOf truncatedPush))
      (Baseline.start truncatedPush) c → c.StateMeets ChecksPrecise) ∧
    (∀ c, StateTransition.Reaches (Advanced.step truncatedPush.env
      (Advanced.analysisOf truncatedPush)) (Advanced.start truncatedPush) c → c.StateMeets fun s =>
        ChecksPrecise s.toExecutionState) := by
  obtain ⟨hbaseline, hadvanced⟩ :=
    memory_limit_precise truncatedPush emptyHost_callBounded (by decide) (by decide)
  obtain ⟨hprecise, hcovered⟩ := hadvanced (Advanced.blockCostsFit_of_length _ (by decide))
  exact ⟨hbaseline, fun c hc => hprecise c (hcovered (by decide) c hc)⟩

end Ivmone
