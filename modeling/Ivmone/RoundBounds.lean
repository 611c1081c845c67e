import Ivmone.GasCorrection
import Ivmone.PayableRuns
import Ivmone.Termination

/-!
# The number of rounds

Gas bounds the work: both loops have been left after a number of rounds that depends on the gas of
the message and not on the size of the code. In Baseline every round but the last one costs gas. In
Advanced the cost of a block is paid by its BEGINBLOCK, which itself is for free; so the gas pays
two rounds for each instruction, and a block that is not the last one has an instruction.

SSTORE is the only basic instruction without a base cost. It is paid for at the end, unless the host
answers with a status of its own.
-/

set_option autoImplicit false

namespace Ivmone

open Lib Lib.Program Instructions

variable {σ : Type}

/-- A host that reports one of the storage statuses for which SSTORE has a cost. -/
def Host.StoresKnown (host : Host σ) : Prop :=
  ∀ (addr : Address) (key value : UInt256) (st : σ) (code : Int),
    (host (.setStorage addr key value) st).1 ≠ .other code

/-! ## SSTORE -/

section Sstore

variable {env : Env σ} {ctx : Context} {s t : ExecutionState σ}

theorem sstoreCost_pos (rev : Revision) {cost : Int} (h0 : 0 ≤ cost) {status : StorageStatus}
    (hstatus : ∀ code, status ≠ .other code) : 1 ≤ sstoreCost rev cost status := by
  cases status with
  | unchanged | modifiedAgain =>
      simp only [sstoreCost, instr.warmStorageReadCost]
      split_ifs <;> omega
  | modified | deleted =>
      simp only [sstoreCost, instr.coldSloadCost]
      split_ifs <;> omega
  | added =>
      simp only [sstoreCost]
      omega
  | other code => exact absurd rfl (hstatus code)

theorem sstore_pays (hhost : env.host.StoresKnown) (h0 : 0 ≤ s.gasLeft) (h63 : s.gasLeft < 2 ^ 63)
    (h : (sstore ctx).run env s = .ok () t) : 0 ≤ t.gasLeft ∧ t.gasLeft + 1 ≤ s.gasLeft := by
  rw [sstore_eq] at h
  obtain ⟨x, s1, hpay, h⟩ := run_bind_eq_ok h
  obtain ⟨status, s2, hset, hcharge⟩ := run_bind_eq_ok h
  obtain ⟨-, -, hgas⟩ := paySstore_ok hpay
  -- of the operations before the charge only the cost they compute matters here
  have hany : ∀ o (s' : ExecutionState σ), True → True →
      (handle env o s').Meets (fun _ _ => True) (fun _ _ => True) fun _ => True := by
    intro o s' _ _
    cases handle env o s' <;> trivial
  have hcost := run_of_footprint hany (paySstore_cost ctx) (s := s) trivial
  rw [hpay] at hcost
  obtain ⟨-, hcost0, hcost1⟩ := hcost
  injection hset with hanswer hs2
  have hgas2 : s2.gasLeft = s.gasLeft := by rw [← hs2, ← hgas]
  have hpos : 1 ≤ sstoreCost ctx.rev x.2.2 status := by
    rw [← hanswer]
    exact sstoreCost_pos ctx.rev hcost0 fun code => hhost _ _ _ _ code
  obtain ⟨hnonneg, hlt⟩ := sstoreCost_range ctx.rev hcost0 hcost1 status
  obtain ⟨hcovered, rfl⟩ := charge_ok (hgas2 ▸ h0) (hgas2 ▸ h63) hnonneg hlt hcharge
  exact ⟨by dsimp only; omega, by dsimp only; omega⟩

end Sstore

/-! ## Baseline -/

namespace Baseline

variable {i : Invocation σ} {rules : Rules} {pos pos' : Nat} {s s' : ExecutionState σ}

/-- An instruction that may be free and does not leave the loop is SSTORE. -/
theorem invoke_free {env : Env σ} {op : Opcode} (hfree : instr.isFree op = true)
    {analysis : CodeAnalysis} {ctx : Context}
    (h : (invoke (op2fn op) analysis ctx pos).run env s = .ok pos' s') :
    (sstore ctx).run env s = .ok () s' := by
  have hleaves : ∀ f : Context → Exec StatusCode, op2fn op = .terminating f → False := by
    intro f hop
    rw [hop] at h
    obtain ⟨status, t, -, hexit⟩ := run_bind_eq_ok h
    cases hexit
  cases op with
  | sstore =>
      obtain ⟨u, t, hrun, hpure⟩ := run_bind_eq_ok h
      injection hpure with _ ht
      exact ht ▸ hrun
  | stop | return_ | revert | invalid | selfdestruct => exact (hleaves _ rfl).elim
  | _ => cases hfree

/-- A round that is not the last one costs gas. -/
theorem step_pays (hp : Premises i rules) (hm : rules.metered) (hcalls : i.env.host.CallBounded)
    (hstores : i.env.host.StoresKnown) (harrives : Arrives i.ctx.code.bytes 0 pos)
    (hs : Running i rules s)
    (h : step i.env (analysisOf i) (.running pos s) = some (.running pos' s')) :
    s'.gasLeft + 1 ≤ s.gasLeft := by
  rcases step_cases harrives hs with ⟨s'', hstep, -⟩ | ⟨op, hfetched, hne, hgas, hsuits, hstep⟩
  · rw [hstep] at h
    cases h
  · obtain ⟨h0, h1⟩ := instr.gasCosts_range hne
    have hs1 := hs.setGas h0 (by omega) hgas
    have hleft : (s.setGas (s.gasLeft - instr.gasCosts s.rev op)).gasLeft =
        s.gasLeft - instr.gasCosts s.rev op := hs.setGas_gasLeft h0 (by omega) hm
    have hsteps := steps_of_step hp harrives hs hfetched hne hgas hsuits
    rw [hstep] at h
    injection h with h
    cases hrun : (invoke (op2fn op) (analysisOf i) s.toContext pos).run i.env
      (s.setGas (s.gasLeft - instr.gasCosts s.rev op)) with
    | exit status s'' =>
        rw [hrun] at h
        cases h
    | fault f =>
        rw [hrun] at h
        cases h
    | ok pos'' s'' =>
        rw [hrun] at h hsteps
        cases h
        cases hfree : instr.isFree op with
        | false =>
            obtain ⟨-, hcont⟩ := hsteps.resolve_left fun hd =>
              not_derailed_of_callBounded hcalls (hs1.gas hm) hd.2
            have hpaid := hcont.gas hm
            -- the base cost is subtracted first, and no instruction leaves more gas than it finds
            have hpos := instr.gasCosts_pos hne hfree
            rw [hleft] at hpaid
            omega
        | true =>
            -- SSTORE pays by itself, as much as the status the host answers with costs
            have hle := (hs1.follows.gas hm).1
            have hlt := rules.ceiling_lt
            obtain ⟨-, hpaid⟩ := sstore_pays hstores (hs1.gas hm) (by omega)
              (invoke_free hfree hrun)
            rw [hleft] at hpaid
            omega

theorem step_after_gas (h0 : 0 ≤ i.ctx.msg.gas) (h63 : i.ctx.msg.gas < 2 ^ 63)
    (hcalls : i.env.host.CallBounded) (hstores : i.env.host.StoresKnown) :
    step i.env (analysisOf i)
      (after (step i.env (analysisOf i)) (start i) (i.ctx.msg.gas.toNat + 1)) = none := by
  have hp := premises_metered h0 h63
  -- the fuel is the gas left, and a round that goes on spends at least 1 of it
  apply step_after_eq_none (P := fun n c => Valid i (metered i.ctx.msg.gas h63) c ∧
    ∀ pos s, c = .running pos s → s.gasLeft ≤ n)
  · rintro n c c' ⟨hvalid, hfuel⟩ hstep
    have hvalid' := hvalid.step hp hstep
    cases c' with
    | halted s' => exact .inl rfl
    | fault f => exact .inl rfl
    | running pos' s' =>
        cases c with
        | halted s => cases hstep
        | fault f => cases hstep
        | running pos s =>
            obtain ⟨harrives, hs⟩ := hvalid.resolve_left fun hd =>
              not_derailed_of_callBounded hcalls h0 hd.2
            obtain ⟨-, hs'⟩ := hvalid'.resolve_left fun hd =>
              not_derailed_of_callBounded hcalls h0 hd.2
            have hpaid := step_pays hp trivial hcalls hstores harrives hs hstep
            have hle := hfuel pos s rfl
            have hnonneg := hs'.gas trivial
            refine .inr ⟨s'.gasLeft.toNat, by omega, hvalid', ?_⟩
            rintro _ _ ⟨⟩
            omega
  · refine ⟨valid_of_reaches hp .refl, ?_⟩
    intro pos s hstart
    rw [start_eq] at hstart
    cases hstart
    show i.ctx.msg.gas ≤ i.ctx.msg.gas.toNat
    omega

end Baseline

/-! ## Advanced -/

namespace Advanced

variable {i : Invocation σ} {rules : Rules} {s : AdvancedExecutionState σ}

/-- What was lent to an SSTORE is taken back, so it pays for itself. -/
theorem opSstore_pays {env : Env σ} {analysis : AdvancedCodeAnalysis} {ctx : Context} {cost : Nat}
    {n : Int} {ip ip' : Nat} {t t' : ExecutionState σ} (hhost : env.host.StoresKnown)
    (hm : rules.metered) (hc : Correctable rules t cost n) (hle : n ≤ cost)
    (h : (exec analysis cost ctx .opSstore (.number n) ip).run env t = .ok ip' t') :
    t'.gasLeft + 1 ≤ t.gasLeft := by
  obtain ⟨_, t1, hrun, hpure⟩ := run_bind_eq_ok h
  injection hpure with _ ht
  subst ht
  have hrun' := (run_corrected env cost n (sstore ctx) t).symm.trans hrun
  obtain ⟨_, t2, hstore, hcharge⟩ := Outcome.bind_eq_ok hrun'
  obtain ⟨hlent, hgas, -⟩ := hc.lend_gasLeft hm
  have hceiling := hc.ceiling hm
  have hnumber := hc.number hm
  have hcost := hc.cost hm
  have hsafe := hc.gas hm
  have hlt := rules.ceiling_lt
  obtain ⟨hleft, hpaid⟩ := sstore_pays hhost (by omega) (by omega) hstore
  rw [hlent] at hcharge
  rw [← run_perform (handle env) (.charge (cost - n)) t2] at hcharge
  obtain ⟨-, rfl⟩ := charge_ok hleft (by omega) (by omega) (by omega) hcharge
  dsimp only
  omega

/-- An instruction that may be free and is followed by another entry is SSTORE. -/
theorem NextEntry.eq_sstore {analysis : AdvancedCodeAnalysis} {ip ip' : Nat} {op : Opcode}
    (h : NextEntry analysis ip op ip') (hfree : instr.isFree op = true) : op = .sstore := by
  rcases h with ⟨-, hleaves, -⟩ | ⟨hjump, -⟩
  · cases op with
    | sstore => rfl
    | stop | return_ | revert | invalid | selfdestruct => exact absurd rfl (hleaves _)
    | _ => cases hfree
  · rcases hjump with rfl | rfl <;> cases hfree

/-! ### Rounds that are paid for -/

/-- `Located` with a number of rounds that is paid for by the gas left: two for each instruction
that the gas may still buy, and one more at a BEGINBLOCK and in the middle of a block. -/
inductive Funded (rev : Revision) (code : List Byte) : Nat → Int → Nat → Nat → Nat → Prop
  | atBlock {closed : List (List Decoded)} {b : List Decoded} {post : List (List Decoded)}
      {rounds : Nat} {gas : Int} {cost height : Nat}
      (hsplit : blocksOf (decode code) = closed ++ b :: post) (hrounds : 2 * gas + 1 ≤ rounds) :
      Funded rev code rounds gas (tableOf rev 0 closed).length cost height
  | inBlock {closed : List (List Decoded)} {done : List Decoded} {d : Decoded} {rest : List Decoded}
      {post : List (List Decoded)} {rounds : Nat} {gas : Int} {cost height : Nat}
      (hsplit : blocksOf (decode code) = closed ++ (done ++ d :: rest) :: post)
      (hd : d.opcode ≠ Opcode.jumpdest.toByte)
      (hcost : (cost : Int) = min (baseCost rev (done ++ d :: rest)) (2 ^ 32 - 1))
      (hrequired : stackRequired rev (d :: rest) ≤ height)
      (hgrowth : height + maxGrowth rev (d :: rest) ≤ 1024)
      (hrounds : 2 * (gas + baseCost rev (d :: rest)) ≤ rounds) :
      Funded rev code rounds gas
        ((tableOf rev 0 closed).length + 1 + (entriesOf rev 0 0 done).length) cost height
  | atEnd {rounds : Nat} {gas : Int} {cost height : Nat} (hrounds : 2 * gas ≤ rounds) :
      Funded rev code rounds gas (tableOf rev 0 (blocksOf (decode code))).length cost height

/-- After the instructions `done` of a block, one of which has been paid for unless there is
none. -/
theorem Funded.of_split {rev : Revision} {code : List Byte} {closed : List (List Decoded)}
    {done rest : List Decoded} {post : List (List Decoded)} {rounds : Nat} {gas : Int}
    {cost height : Nat} (hsplit : blocksOf (decode code) = closed ++ (done ++ rest) :: post)
    (hcost : (cost : Int) = min (baseCost rev (done ++ rest)) (2 ^ 32 - 1))
    (hrequired : stackRequired rev rest ≤ height) (hgrowth : height + maxGrowth rev rest ≤ 1024)
    (hrounds : 2 * (gas + baseCost rev rest) ≤ rounds)
    (hdone : done ≠ [] → 2 * (gas + baseCost rev rest) + 1 ≤ rounds) :
    Funded rev code rounds gas
      ((tableOf rev 0 closed).length + 1 + (entriesOf rev 0 0 done).length) cost height := by
  induction rest generalizing done with
  | nil =>
      rw [List.append_nil] at hsplit
      rw [baseCost, Int.add_zero] at hrounds hdone
      have hnext : (tableOf rev 0 closed).length + 1 + (entriesOf rev 0 0 done).length =
          (tableOf rev 0 (closed ++ [done])).length := by
        rw [tableOf_append_singleton, List.length_append, List.length_cons,
          length_entriesOf 0 0 0 (pushValuesOf closed.flatten).length]
        omega
      rw [hnext]
      cases post with
      | nil =>
          rw [← hsplit]
          exact .atEnd hrounds
      | cons b post =>
          have hsplit' : blocksOf (decode code) = closed ++ [done] ++ b :: post := by
            rw [hsplit, List.append_assoc]
            rfl
          -- only the last block may be empty
          have hne : done ≠ [] := by
            rintro rfl
            cases isBlock_of_append hsplit
          exact .atBlock hsplit' (hdone hne)
  | cons d rest ih =>
      by_cases hd : d.opcode = Opcode.jumpdest.toByte
      · have hentries : entriesOf rev 0 0 (done ++ [d]) = entriesOf rev 0 0 done := by
          simp [entriesOf_append, entriesOf, entryOf, hd]
        have happend : done ++ d :: rest = done ++ [d] ++ rest := by simp
        obtain ⟨hpaid, hreq, hchange⟩ := jumpdest_requirements rev hd
        rw [happend] at hsplit hcost
        rw [stackRequired, hreq, hchange] at hrequired
        rw [maxGrowth, hchange] at hgrowth
        rw [baseCost, hpaid] at hrounds
        rw [← hentries]
        exact ih hsplit hcost (by omega) (by omega) (by omega) fun _ => by omega
      · exact .inBlock hsplit hd hcost hrequired hgrowth hrounds

/-- An instruction that is followed by another entry has been paid for by at least 1. -/
theorem Funded.next {rev : Revision} {code : List Byte} (hsize : code.length < 2 ^ 30)
    {closed : List (List Decoded)} {done : List Decoded} {d : Decoded} {rest : List Decoded}
    {post : List (List Decoded)} {op : Opcode} {rounds : Nat} {gas : Int} {ip' cost height : Nat}
    (hsplit : blocksOf (decode code) = closed ++ (done ++ d :: rest) :: post)
    (hd : d.opcode ≠ Opcode.jumpdest.toByte)
    (hcost : (cost : Int) = min (baseCost rev (done ++ d :: rest)) (2 ^ 32 - 1))
    (hrequired : stackRequired rev (d :: rest) ≤ height - changeOf rev d)
    (hgrowth : height - changeOf rev d + maxGrowth rev (d :: rest) ≤ 1024)
    (hrounds : 2 * (gas + baseCost rev rest) + 1 ≤ rounds)
    (hnext : NextEntry (analyze rev code)
      ((tableOf rev 0 closed).length + 1 + (entriesOf rev 0 0 done).length) op ip') :
    Funded rev code rounds gas ip' cost height := by
  rcases hnext with ⟨-, -, rfl⟩ | ⟨-, hjumped⟩
  · have happend : done ++ d :: rest = done ++ [d] ++ rest := by simp
    have hentries : (entriesOf rev 0 0 done).length + 1 =
        (entriesOf rev 0 0 (done ++ [d])).length := by
      simp [entriesOf_append, entriesOf, entryOf, hd]
    rw [happend] at hsplit hcost
    rw [stackRequired] at hrequired
    rw [maxGrowth] at hgrowth
    rw [Nat.add_assoc, hentries]
    exact .of_split hsplit hcost (by omega) (by omega) (by omega) fun _ => hrounds
  · obtain ⟨closed', d', b', post', hsplit', rfl⟩ := hjumped.exists_block hsize
    have hrest := baseCost_nonneg rev rest
    exact .atBlock hsplit' (by omega)

/-- An instruction of a block that goes on to another entry costs gas: its base cost, which has been
paid in advance, or what SSTORE charges. -/
theorem inBlock_pays (hm : rules.metered)
    (hfit : BlockCostsFit i.ctx.rev i.ctx.code.bytes) (hstores : i.env.host.StoresKnown)
    (hs : Running i rules s.toExecutionState) (hb : Budget rules s)
    {closed : List (List Decoded)} {done : List Decoded} {d : Decoded} {rest : List Decoded}
    {post : List (List Decoded)}
    (hsplit : blocksOf (decode i.ctx.code.bytes) = closed ++ (done ++ d :: rest) :: post)
    (hcost : (s.currentBlockCost : Int) = min (baseCost i.ctx.rev (done ++ d :: rest)) (2 ^ 32 - 1))
    {op : Opcode} (hop : Opcode.ofByte d.opcode = some op)
    (hdef : instr.gasCosts i.ctx.rev op ≠ instr.undefined)
    (hcostOf : costOf i.ctx.rev d = instr.gasCosts i.ctx.rev op) {ip ip' : Nat}
    (hnext : NextEntry (analysisOf i) ip op ip') {t : ExecutionState σ}
    (hpaid : t.gasLeft ≤ s.gasLeft)
    (hrun : (exec (analysisOf i) s.currentBlockCost s.toContext (instructionImplementations op)
      (argOf (baseCost i.ctx.rev (done ++ [d])) (pushValuesOf (closed.flatten ++ done)).length d)
      ip).run i.env s.toExecutionState = .ok ip' t) :
    t.gasLeft + 1 ≤ s.gasLeft + costOf i.ctx.rev d := by
  have hrange := costOf_range i.ctx.rev d
  cases hfree : instr.isFree op with
  | false =>
      have hpos := instr.gasCosts_pos hdef hfree
      omega
  | true =>
      -- SSTORE runs with the gas that has been paid for the instructions after it; as the cost of
      -- the block fits, no more than that is lent
      obtain rfl := hnext.eq_sstore hfree
      have harg : argOf (baseCost i.ctx.rev (done ++ [d]))
          (pushValuesOf (closed.flatten ++ done)).length d =
            .number (baseCost i.ctx.rev (done ++ [d])) := by
        simp only [argOf, hop]
      rw [harg] at hrun
      have hle : baseCost i.ctx.rev (done ++ d :: rest) ≤ 2 ^ 32 - 1 := by
        apply hfit
        rw [hsplit]
        simp
      have hsum : baseCost i.ctx.rev (done ++ d :: rest) =
          baseCost i.ctx.rev (done ++ [d]) + baseCost i.ctx.rev rest := by
        rw [← baseCost_append, List.append_assoc]
        rfl
      have hnonneg := baseCost_nonneg i.ctx.rev (done ++ [d])
      have hrest := baseCost_nonneg i.ctx.rev rest
      have hstore := opSstore_pays hstores hm
        (hb.correctable hs fun _ => ⟨hnonneg, by omega⟩) (by omega) hrun
      omega

/-- A round of the loop that is not the last one takes one of the rounds that are paid for. -/
theorem Funded.step (hp : Premises i rules) (hm : rules.metered)
    (hfit : BlockCostsFit i.ctx.rev i.ctx.code.bytes) (hsize : i.ctx.code.bytes.length < 2 ^ 30)
    (hcalls : i.env.host.CallBounded) (hstores : i.env.host.StoresKnown)
    (hs : Running i rules s.toExecutionState) (hb : Budget rules s) {ip : Nat} {rounds : Nat}
    (h : Funded i.ctx.rev i.ctx.code.bytes rounds s.gasLeft ip s.currentBlockCost s.stack.height)
    {ip' : Nat} {s' : AdvancedExecutionState σ}
    (hstep : step i.env (analysisOf i) (.running ip s) = some (.running ip' s')) :
    Running i rules s'.toExecutionState ∧ Budget rules s' ∧ ∃ rounds' < rounds,
      Funded i.ctx.rev i.ctx.code.bytes rounds' s'.gasLeft ip' s'.currentBlockCost
        s'.stack.height := by
  have h0 : 0 ≤ i.newState.gasLeft := (hp.gas hm).1
  have hgas := hs.gas hm
  have hlimit := s.stack.height_le
  generalize hcur : s.currentBlockCost = cost at h
  generalize hheight : s.stack.height = height at h
  cases h with
  | @atBlock closed b post _ _ _ _ hsplit hrounds =>
      have hmeets := meets_opxBeginblock hs (gasCost_beginblockOf_le i.ctx.rev b)
        (tableOf i.ctx.rev 0 closed).length
      have hinstr : (analysisOf i).instrs[(tableOf i.ctx.rev 0 closed).length]? =
          some (beginblockOf i.ctx.rev b) := getElem?_instrs_of_append hsplit
      simp only [Advanced.step, hinstr, Option.some.injEq] at hstep
      replace hstep : opxBeginblock (summarize i.ctx.rev 0 b).close
        (tableOf i.ctx.rev 0 closed).length s = .running ip' s' := hstep
      rw [hstep] at hmeets
      obtain ⟨rfl, hs', hb', hcost, hstack, hleft, hreq, hgrowth⟩ := hmeets
      obtain ⟨hreq', hgrowth'⟩ :=
        (stack_check_iff i.ctx.rev 0 (length_lt_of_split hsize hsplit) hlimit).1 ⟨hreq, hgrowth⟩
      have hfits : baseCost i.ctx.rev b ≤ 2 ^ 32 - 1 := by
        apply hfit
        rw [hsplit]
        simp
      have hcost' : (s'.currentBlockCost : Int) =
          min (baseCost i.ctx.rev ([] ++ b)) (2 ^ 32 - 1) := by
        rw [hcost, close_gasCost]
        rfl
      -- the cost of the block moves from the gas left to the instructions that are to come
      have hpaid := hleft hm
      rw [close_gasCost] at hpaid
      rw [← hstack] at hreq' hgrowth'
      refine ⟨hs', hb', rounds - 1, by omega, .of_split hsplit hcost' hreq' hgrowth' ?_ ?_⟩
      · omega
      · exact fun h => absurd rfl h
  | @inBlock closed done d rest post _ _ _ _ hsplit hd hcost hrequired hgrowth hrounds =>
      subst hcur hheight
      have hinstr : (analysisOf i).instrs[_]? = _ := getElem?_instrs_inBlock hsplit hd
      simp only [Advanced.step, hinstr, Option.some.injEq] at hstep
      obtain ⟨hitems, hroom⟩ := suits_of_required _ hrequired hgrowth
      rcases decoded_cases i.ctx.rev d with ⟨-, hfn, -⟩ |
        ⟨op, hop, hdef, hfn, hcostOf, hreq, hchange⟩
      · rw [hfn] at hstep
        cases hstep
      · have hjumpdest : op ≠ .jumpdest := by
          intro h
          exact hd (by rw [toByte_of_ofByte hop, h])
        have hsteps := meets_inBlock hp (fun _ => hfit) hs hb hsplit hd hcost hitems hroom hop hreq
          hchange ((tableOf i.ctx.rev 0 closed).length + 1 + (entriesOf i.ctx.rev 0 0 done).length)
        have hmeets := meets_ofResult hs hb hsteps
        rw [hfn, dispatch_op _ _ hjumpdest] at hstep
        rw [hstep] at hmeets
        obtain ⟨hnext, hs', hb', hcost', hcont⟩ := hmeets.resolve_left fun hderailed =>
          not_derailed_of_callBounded hcalls h0 hderailed.2
        cases hrun : (exec (analysisOf i) s.currentBlockCost s.toContext
            (instructionImplementations op) (argOf (baseCost i.ctx.rev (done ++ [d]))
              (pushValuesOf (closed.flatten ++ done)).length d)
            ((tableOf i.ctx.rev 0 closed).length + 1 +
              (entriesOf i.ctx.rev 0 0 done).length)).run i.env s.toExecutionState with
        | exit status t =>
            rw [hrun] at hstep
            cases hstep
        | fault f =>
            rw [hrun] at hstep
            cases hstep
        | ok ip'' t =>
            rw [hrun] at hstep
            cases hstep
            have hheight' := hcont.height trivial
            have hpaid : t.gasLeft + 1 ≤ s.gasLeft + costOf i.ctx.rev d :=
              inBlock_pays hm hfit hstores hs hb hsplit hcost hop hdef hcostOf hnext
                (hcont.gas hm).2 hrun
            have hleft : baseCost i.ctx.rev (d :: rest) =
                costOf i.ctx.rev d + baseCost i.ctx.rev rest := by rw [baseCost]
            have hrest := baseCost_nonneg i.ctx.rev rest
            have hgas' : 0 ≤ t.gasLeft := hs'.gas hm
            -- at least one of the rounds is left over, for the gas left is not negative
            refine ⟨hs', hb', rounds - 1, by omega, ?_⟩
            have hrounds' : 2 * (t.gasLeft + baseCost i.ctx.rev rest) + 1 ≤
                ((rounds - 1 : Nat) : Int) := by
              omega
            exact .next hsize hsplit hd hcost (by omega) (by omega) hrounds' hnext
  | atEnd hrounds =>
      have hinstr : (analysisOf i).instrs[_]? = _ := getElem?_instrs_end
      -- the entry at the end of the table is STOP
      simp only [Advanced.step, hinstr, Option.some.injEq] at hstep
      cases hstep

theorem step_after_gas (h0 : 0 ≤ i.ctx.msg.gas) (h63 : i.ctx.msg.gas < 2 ^ 63)
    (hfit : BlockCostsFit i.ctx.rev i.ctx.code.bytes) (hsize : i.ctx.code.bytes.length < 2 ^ 30)
    (hcalls : i.env.host.CallBounded) (hstores : i.env.host.StoresKnown) :
    step i.env (analysisOf i)
      (after (step i.env (analysisOf i)) (start i) (2 * i.ctx.msg.gas.toNat + 2)) = none := by
  have hp := premises_metered h0 h63
  apply step_after_eq_none (P := fun rounds c => ∃ ip s, c = .running ip s ∧
    Running i (metered i.ctx.msg.gas h63) s.toExecutionState ∧
    Budget (metered i.ctx.msg.gas h63) s ∧
    Funded i.ctx.rev i.ctx.code.bytes rounds s.gasLeft ip s.currentBlockCost s.stack.height)
  · rintro rounds _ c' ⟨ip, s, rfl, hs, hb, hfunded⟩ hstep
    cases c' with
    | halted s' => exact .inl rfl
    | fault f => exact .inl rfl
    | running ip' s' =>
        obtain ⟨hs', hb', rounds', hlt, hfunded'⟩ :=
          hfunded.step hp trivial hfit hsize hcalls hstores hs hb hstep
        exact .inr ⟨rounds', hlt, ip', s', rfl, hs', hb', hfunded'⟩
  · refine ⟨0, _, rfl, hp.running, budget_start hp, ?_⟩
    have hsplit : blocksOf (decode i.ctx.code.bytes) =
        [] ++ (cutBlocks (decode i.ctx.code.bytes)).1 ::
          (cutBlocks (decode i.ctx.code.bytes)).2 := rfl
    apply Funded.atBlock hsplit
    show 2 * i.ctx.msg.gas + 1 ≤ ((2 * i.ctx.msg.gas.toNat + 1 : Nat) : Int)
    omega

end Advanced

/-! ## Both loops -/

/-- After one round for each unit of gas, and one more, the loop of Baseline has been left. In
Advanced it is two rounds for each unit of gas, and two more. -/
theorem rounds_bounded_by_gas (i : Invocation σ) (h0 : 0 ≤ i.ctx.msg.gas)
    (h63 : i.ctx.msg.gas ≤ 2 ^ 63 - 1) (hcalls : i.env.host.CallBounded)
    (hstores : i.env.host.StoresKnown) :
    Exits i.env.host (after (Baseline.step i.env (Baseline.analysisOf i)) (Baseline.start i)
      (i.ctx.msg.gas.toNat + 1)) ∧
    (i.ctx.code.bytes.length < 2 ^ 30 → Advanced.BlockCostsFit i.ctx.rev i.ctx.code.bytes →
      Exits i.env.host (after (Advanced.step i.env (Advanced.analysisOf i)) (Advanced.start i)
        (2 * i.ctx.msg.gas.toNat + 2))) := by
  have hlt : i.ctx.msg.gas < 2 ^ 63 := by omega
  refine ⟨?_, fun hsize hfit => ?_⟩
  · have hend := Baseline.step_after_gas h0 hlt hcalls hstores
    have hreach := reaches_after (f := Baseline.step i.env (Baseline.analysisOf i))
      (Baseline.start i) (i.ctx.msg.gas.toNat + 1)
    generalize after (Baseline.step i.env (Baseline.analysisOf i)) (Baseline.start i)
      (i.ctx.msg.gas.toNat + 1) = c at hend hreach
    have hvalid := Baseline.valid_of_reaches (premises_perhapsFitting i) hreach
    cases c with
    | running pos s => exact absurd hend (by simp [Baseline.step])
    | halted s => exact .inl ⟨s, rfl⟩
    | fault f => exact exits_of_excused hvalid
  · have hend := Advanced.step_after_gas h0 hlt hfit hsize hcalls hstores
    have hreach := reaches_after (f := Advanced.step i.env (Advanced.analysisOf i))
      (Advanced.start i) (2 * i.ctx.msg.gas.toNat + 2)
    generalize after (Advanced.step i.env (Advanced.analysisOf i)) (Advanced.start i)
      (2 * i.ctx.msg.gas.toNat + 2) = c at hend hreach
    have hvalid := Advanced.blockValid_of_reaches (premises_perhapsFitting i) False.elim hsize
      hreach
    cases c with
    | running ip s => exact absurd hend (by simp [Advanced.step])
    | halted s => exact .inl ⟨s, rfl⟩
    | fault f => exact exits_of_excused hvalid

theorem rounds_bounded_by_gas_truncatedPush :
    Exits truncatedPush.env.host
      (after (Baseline.step truncatedPush.env (Baseline.analysisOf truncatedPush))
        (Baseline.start truncatedPush) (truncatedPush.ctx.msg.gas.toNat + 1)) ∧
    Exits truncatedPush.env.host
      (after (Advanced.step truncatedPush.env (Advanced.analysisOf truncatedPush))
        (Advanced.start truncatedPush) (2 * truncatedPush.ctx.msg.gas.toNat + 2)) := by
  have hstores : truncatedPush.env.host.StoresKnown := by
    intro addr key value st code h
    cases h
  have h := rounds_bounded_by_gas truncatedPush (by decide) (by decide) emptyHost_callBounded
    hstores
  exact ⟨h.1, h.2 (by decide) (Advanced.blockCostsFit_of_length _ (by decide))⟩

end Ivmone
