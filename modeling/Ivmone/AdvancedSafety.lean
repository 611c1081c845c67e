import Ivmone.StepSafety
import Ivmone.BlockRequirements

/-!
# The instruction functions of Advanced

Every entry of the instruction table is a BEGINBLOCK or the function of a decoded instruction with
the argument it expects. The run of such a function meets the specification of its opcode, also
where the gas left is corrected for the costs of its block.
-/

set_option autoImplicit false

namespace Ivmone.Advanced

open Lib Instructions

/-! ## Entries -/

/-- The base cost of no block exceeds the largest value of the cost in a BEGINBLOCK. -/
def BlockCostsFit (rev : Revision) (code : List Byte) : Prop :=
  ∀ b ∈ blocksOf (decode code), baseCost rev b ≤ 2 ^ 32 - 1

theorem baseCost_le (rev : Revision) (ds : List Decoded) : baseCost rev ds ≤ 32000 * ds.length := by
  induction ds with
  | nil => exact le_rfl
  | cons d ds ih =>
      have hd := costOf_range rev d
      rw [baseCost, List.length_cons]
      push_cast
      omega

/-- Only large code has blocks of such a cost. -/
theorem blockCostsFit_of_length (rev : Revision) {code : List Byte} (h : code.length ≤ 2 ^ 17) :
    BlockCostsFit rev code := by
  intro b hb
  have hcost := baseCost_le rev b
  have hlength : b.length ≤ (decode code).length := by
    rw [← flatten_blocksOf (decode code)]
    exact (List.sublist_flatten_of_mem hb).length_le
  have hdecode := length_decode_le code
  omega

/-- The large push value of an instruction is at index `k` of the table of values. -/
def PushValueAt (values : List UInt256) (k : Nat) (d : Decoded) : Prop :=
  ∀ v ∈ largePushOf d, values[k]? = some v

/-- The entries of the instruction table; the base costs they hold are bounded if `fit`. -/
inductive Entry (rev : Revision) (fit : Prop) (values : List UInt256) : Instruction → Prop
  | beginblock (b : List Decoded) : Entry rev fit values (beginblockOf rev b)
  | undefined (arg : Argument) : Entry rev fit values { fn := some .opUndefined, arg := arg }
  | op {op : Opcode} {d : Decoded} {gas : Int} {k : Nat} (hop : Opcode.ofByte d.opcode = some op)
      (hjumpdest : op ≠ .jumpdest) (hdef : instr.gasCosts rev op ≠ instr.undefined)
      (hgas : 0 ≤ gas) (hfit : fit → gas ≤ 2 ^ 32 - 1) (hvalue : PushValueAt values k d) :
      Entry rev fit values { fn := some (instructionImplementations op), arg := argOf gas k d }

section Entries

variable {rev : Revision} {fit : Prop} {values : List UInt256}

/-- The entry of one instruction. -/
theorem entry_of_mem_entryOf {d : Decoded} {gas : Int} {k : Nat} (hgas : 0 ≤ gas)
    (hfit : fit → gas ≤ 2 ^ 32 - 1) (hvalue : PushValueAt values k d) {instr : Instruction}
    (h : instr ∈ entryOf rev gas k d) : Entry rev fit values instr := by
  unfold entryOf at h
  split at h
  · cases h
  · rename_i hne
    rw [List.mem_singleton] at h
    subst h
    rcases opTable_cases rev d.opcode with ⟨-, heq⟩ | ⟨op, hop, hdef, heq⟩
    · rw [heq]
      exact .undefined _
    · rw [heq]
      refine .op hop (fun hop' => hne ?_) hdef hgas hfit hvalue
      rw [toByte_of_ofByte hop, hop']

/-- An instruction has at most one large push value, so it stands at the first index. -/
theorem pushValueAt_append (pre : List UInt256) (d : Decoded) (post : List UInt256) :
    PushValueAt (pre ++ (largePushOf d ++ post)) pre.length d := by
  intro v hv
  unfold largePushOf at hv ⊢
  split at hv
  · split at hv
    · cases hv
    · rename_i hn
      rw [List.mem_singleton] at hv
      rw [if_neg hn, hv]
      simp
  · cases hv

theorem entry_of_mem_entriesOf {ds : List Decoded} {gas : Int} {pre post : List UInt256}
    (hgas : 0 ≤ gas) (hfit : fit → gas + baseCost rev ds ≤ 2 ^ 32 - 1)
    (hvalues : values = pre ++ (pushValuesOf ds ++ post)) {instr : Instruction}
    (h : instr ∈ entriesOf rev gas pre.length ds) : Entry rev fit values instr := by
  -- `gas` and `pre` are what the instructions before `ds` have cost and pushed
  induction ds generalizing gas pre with
  | nil => cases h
  | cons d ds ih =>
      have hd := costOf_range rev d
      have hds := baseCost_nonneg rev ds
      have hsplit : pushValuesOf (d :: ds) = largePushOf d ++ pushValuesOf ds := rfl
      rw [baseCost] at hfit
      rcases List.mem_append.1 h with h | h
      · refine entry_of_mem_entryOf (by omega) (fun hf => ?_) (fun v hv => ?_) h
        · have := hfit hf
          omega
        · rw [hvalues, hsplit, List.append_assoc]
          exact pushValueAt_append pre d _ v hv
      · have hlength : pre.length + (largePushOf d).length = (pre ++ largePushOf d).length :=
          List.length_append.symm
        rw [hlength] at h
        refine ih (by omega) (fun hf => ?_) ?_ h
        · have := hfit hf
          omega
        · rw [hvalues, hsplit]
          simp

theorem entry_of_mem_tableOf {blocks : List (List Decoded)} {pre post : List UInt256}
    (hfit : fit → ∀ b ∈ blocks, baseCost rev b ≤ 2 ^ 32 - 1)
    (hvalues : values = pre ++ (pushValuesOf blocks.flatten ++ post)) {instr : Instruction}
    (h : instr ∈ tableOf rev pre.length blocks) : Entry rev fit values instr := by
  induction blocks generalizing pre with
  | nil => cases h
  | cons b bs ih =>
      rw [List.flatten_cons, pushValuesOf_append] at hvalues
      rcases List.mem_cons.1 h with rfl | h
      · exact .beginblock b
      · rcases List.mem_append.1 h with h | h
        · rw [List.append_assoc] at hvalues
          refine entry_of_mem_entriesOf le_rfl (fun hf => ?_) hvalues h
          have := hfit hf b List.mem_cons_self
          omega
        · have hlength : pre.length + (pushValuesOf b).length = (pre ++ pushValuesOf b).length :=
            List.length_append.symm
          rw [hlength] at h
          refine ih (fun hf b' hb' => hfit hf b' (List.mem_cons_of_mem _ hb')) ?_ h
          rw [hvalues]
          simp

/-- The entries of the table that the analysis makes. -/
theorem entry_of_mem_instrs {code : List Byte} {instr : Instruction}
    (h : instr ∈ (analyze rev code).instrs) :
    Entry rev (BlockCostsFit rev code) (analyze rev code).pushValues instr := by
  rw [analyze_eq] at h ⊢
  rcases List.mem_append.1 h with h | h
  · have hvalues : (ofBlocks rev (blocksOf (decode code))).pushValues =
        [] ++ (pushValuesOf (blocksOf (decode code)).flatten ++ []) := by
      rw [List.nil_append, List.append_nil]
      rfl
    exact entry_of_mem_tableOf (fun hf => hf) hvalues h
  · rw [List.mem_singleton] at h
    subst h
    have hstop : ∀ rev, instr.gasCosts rev .stop ≠ instr.undefined := by
      intro rev
      cases rev <;> decide
    exact .op (d := ⟨0, Opcode.stop.toByte, []⟩) (k := 0) rfl (by decide) (hstop rev) le_rfl
      (fun _ => by decide) (fun v hv => by cases hv)

end Entries

/-! ## Functions of their own -/

section Functions

variable {rules : Rules} {a : Abs} {analysis : AdvancedCodeAnalysis} {ip : Nat}

/-- An instruction pointer that `find_jumpdest` returns. -/
def JumpedTo (analysis : AdvancedCodeAnalysis) (ip : Nat) : Prop :=
  ∃ d : Nat, d ≤ 2 ^ 31 - 1 ∧ findJumpdest analysis d = ip

theorem sat_popJumpTarget {Q : Option Nat → Abs → Prop} (hheight : 1 ≤ a.height)
    (hQ : ∀ target, (∀ t, target = some t → JumpedTo analysis t) →
      Q target { a with height := a.height - 1 }) :
    (popJumpTarget analysis).Sat (Safe rules) Q a := by
  simp only [popJumpTarget, Program.sat_bind, Program.sat_ite, Program.sat_pure, sat_pop]
  refine ⟨hheight, fun dst => ⟨fun _ => hQ none fun t ht => ?_, fun hle => hQ _ fun t ht => ?_⟩⟩
  · cases ht
  · split at ht
    · cases ht
    · injection ht with ht
      exact ⟨dst.toNat, by omega, by omega⟩

theorem sat_jumpTo {target : Option Nat} {Q : Nat → Abs → Prop} (hout : a.outputSize = 0)
    (hQ : ∀ t, target = some t → Q t a) : (jumpTo target).Sat (Safe rules) Q a := by
  cases target with
  | none => exact ⟨by decide, hout⟩
  | some t => exact hQ t rfl

theorem sat_opJump (hready : a.Ready rules 1 (-1)) :
    (opJump analysis).Sat (Safe rules)
      (fun t a' => JumpedTo analysis t ∧ a.Leads rules (-1) a') a := by
  obtain ⟨hreq, hroom, hout, hgas⟩ := hready
  simp only [opJump, Program.sat_bind]
  refine sat_popJumpTarget (by omega) fun target htarget => ?_
  refine sat_jumpTo (by exact hout) fun t ht => ⟨htarget t ht, ?_⟩
  exact ⟨by simp only; omega, le_rfl, hout, Paid.refl _⟩

theorem sat_opJumpi (hready : a.Ready rules 2 (-2)) :
    (opJumpi analysis ip).Sat (Safe rules)
      (fun t a' => (JumpedTo analysis t ∨ t = ip + 1) ∧ a.Leads rules (-2) a') a := by
  obtain ⟨hreq, hroom, hout, hgas⟩ := hready
  simp only [opJumpi, Program.sat_bind, Program.sat_ite, Program.sat_pure, sat_peek]
  refine ⟨by omega, fun cond => ⟨fun _ => ?_, fun _ => ?_⟩⟩
  · refine sat_popJumpTarget (by omega) fun target htarget => ?_
    simp only [sat_pop]
    refine ⟨by omega, fun _ => sat_jumpTo (by exact hout) fun t ht => ⟨.inl (htarget t ht), ?_⟩⟩
    exact ⟨by simp only; omega, le_rfl, hout, Paid.refl _⟩
  · simp only [sat_pop]
    refine ⟨by omega, fun _ => ⟨by omega, fun _ => ⟨.inr trivial, ?_⟩⟩⟩
    exact ⟨by simp only; omega, le_rfl, hout, Paid.refl _⟩

theorem sat_next_push {item : UInt256} (hready : a.Ready rules 0 1) :
    (next ip (Exec.push item)).Sat (Safe rules)
      (fun t a' => t = ip + 1 ∧ a.Leads rules 1 a') a := by
  obtain ⟨hreq, hroom, hout, hgas⟩ := hready
  simp only [next, Program.sat_bind, Program.sat_pure, sat_push]
  exact ⟨by omega, trivial, by simp only; omega, le_rfl, hout, Paid.refl _⟩

theorem sat_next_opGas (hreads : rules.readsGas) {cost : Nat} {n : Int}
    (hready : a.Ready rules 0 1)
    (hcost : rules.metered → a.gas + cost ≤ rules.ceiling ∧ (cost : Int) ≤ 2 ^ 32 - 1 ∧
      0 ≤ n ∧ n ≤ 2 ^ 32 - 1) :
    (next ip (opGas cost (.number n))).Sat (Safe rules)
      (fun t a' => t = ip + 1 ∧ a.Leads rules 1 a') a := by
  obtain ⟨hreq, hroom, hout, hgas⟩ := hready
  have hlt := rules.ceiling_lt
  simp only [next, opGas, argNumber, Program.sat_bind, Program.sat_pure, sat_push, sat_int64,
    sat_gasLeft]
  refine ⟨hreads, fun hm => ?_, fun x hx => ⟨hreads, fun g hg =>
    ⟨hreads, fun hm => ?_, fun y _ => ?_⟩⟩⟩
  · have := hcost hm
    exact ⟨by omega, by omega⟩
  · have h1 := hcost hm
    have h2 := hx hm
    have h3 := hg hm
    have h4 := hgas hm
    exact ⟨by omega, by omega⟩
  · exact ⟨by omega, trivial, by simp only; omega, le_rfl, hout, Paid.refl _⟩

theorem terminatingSpec_opReturn {status : StatusCode} (hkeeps : status.keepsGas) :
    TerminatingSpec rules 2 (opReturn status) := by
  rintro a ⟨hreq, hroom, hout, hgas⟩
  simp only [opReturn, Program.sat_bind, Program.sat_pure, Program.sat_ite, sat_peek,
    sat_checkMemory, sat_setOutputOffset, sat_setOutputSize]
  refine ⟨by omega, fun offset => ⟨by omega, fun size =>
    ⟨hout, fun m g hm hg hsize => ⟨fun hs => ?_, fun hs => ?_⟩⟩⟩⟩
  · exact ⟨hm, hg, fun hs => ⟨hkeeps, hsize.end_le hs⟩⟩
  · exact ⟨hm, hg, fun hne => absurd hne hs⟩

end Functions

/-! ## Corrected gas -/

variable {σ : Type}

/-- The state with an amount of gas lent. -/
def lend (s : ExecutionState σ) (x : Int) : ExecutionState σ :=
  (s.noteInt64 x).setGas (s.gasLeft + toInt64 x)

theorem run_corrected (env : Env σ) (cost : Nat) (n : Int) (p : Exec Unit) (s : ExecutionState σ) :
    (corrected cost (.number n) p).run env s =
      (p.run env (lend s (cost - n))).bind fun _ s' =>
        handle env (.charge (toInt64 (cost - n))) s' := by
  have hcharge : ∀ s' : ExecutionState σ,
      Program.run (handle env) (Exec.charge (toInt64 (cost - n))) s' =
        handle env (.charge (toInt64 (cost - n))) s' := fun s' => Program.run_perform _ _ s'
  have hlent : (corrected cost (.number n) p).run env s =
      Program.run (handle env) (p >>= fun _ => Exec.charge (toInt64 (cost - n)))
        (lend s (cost - n)) := rfl
  rw [hlent, Program.run_bind]
  simp only [hcharge]
  rfl

section Corrected

variable {env : Env σ} {rules : Rules} {known : Prop} {t s : ExecutionState σ}
  {cost : Nat} {n : Int}

/-- What a correction needs: the costs are 32-bit values, and the gas lent is part of the gas of the
execution. -/
structure Correctable (rules : Rules) (s : ExecutionState σ) (cost : Nat) (n : Int) : Prop where
  ceiling : rules.metered → s.gasLeft + cost ≤ rules.ceiling
  cost : rules.metered → (cost : Int) ≤ 2 ^ 32 - 1
  number : rules.metered → 0 ≤ n ∧ n ≤ 2 ^ 32 - 1
  gas : rules.metered → 0 ≤ s.gasLeft

theorem Correctable.lend_gasLeft (h : Correctable rules s cost n) (hm : rules.metered) :
    toInt64 (cost - n) = cost - n ∧ (lend s (cost - n)).gasLeft = s.gasLeft + (cost - n) ∧
      (lend s (cost - n)).ghost.overflow = s.ghost.overflow := by
  have h1 := h.ceiling hm
  have h2 := h.cost hm
  have h3 := h.number hm
  have h4 := h.gas hm
  have h5 := rules.ceiling_lt
  have hx : InInt64 (cost - n) := ⟨by omega, by omega⟩
  have hgas : InInt64 (s.gasLeft + (cost - n)) := ⟨by omega, by omega⟩
  have hx' := toInt64_of_inInt64 hx
  refine ⟨hx', ?_, ?_⟩
  · show toInt64 (s.gasLeft + toInt64 (cost - n)) = _
    rw [hx', toInt64_of_inInt64 hgas]
  · show (s.ghost.overflow || !decide (InInt64 (cost - n)) ||
      !decide (InInt64 (s.gasLeft + toInt64 (cost - n)))) = _
    rw [hx', decide_eq_true hx, decide_eq_true hgas]
    simp

theorem Correctable.startable (h : Correctable rules s cost n) (hs : Startable rules s) :
    Startable rules (lend s (cost - n)) := by
  refine ⟨hs.sized, hs.outputSize, fun hm => ?_⟩
  obtain ⟨-, hgas, hoverflow⟩ := h.lend_gasLeft hm
  have h1 := h.ceiling hm
  have h2 := h.cost hm
  have h3 := h.number hm
  have h4 := h.gas hm
  rw [hgas, hoverflow]
  exact ⟨by omega, by omega, (hs.gas hm).2.2⟩

theorem Correctable.follows (h : Correctable rules s cost n) (hs : Startable rules s) :
    Follows rules s (lend s (cost - n)) := by
  refine ⟨rfl, le_rfl, hs.sized, ⟨[], by simp [lend, ExecutionState.setGas,
    ExecutionState.noteInt64], fun _ _ hc => by cases hc⟩, ?_⟩
  exact fun hm => ((h.startable hs).gas hm).2

/-- The gas that was lent is taken back. -/
theorem Correctable.takeBack (h : Correctable rules s cost n) {change : Int} {s' : ExecutionState σ}
    (hc : Continues rules known change (lend s (cost - n)) s') (hm : rules.metered) :
    InInt64 (s'.gasLeft - toInt64 (cost - n)) ∧ s'.gasLeft - toInt64 (cost - n) ≤ s.gasLeft := by
  obtain ⟨hx, hgas, -⟩ := h.lend_gasLeft hm
  have h1 := h.ceiling hm
  have h2 := h.cost hm
  have h3 := h.number hm
  have h4 := h.gas hm
  have h5 := rules.ceiling_lt
  have hpaid := hc.gas hm
  rw [hgas] at hpaid
  rw [hx]
  exact ⟨⟨by omega, by omega⟩, by omega⟩

theorem Correctable.charge (h : Correctable rules s cost n) (hs : Startable rules s) {change : Int}
    {s' : ExecutionState σ} (hc : Continues rules known change (lend s (cost - n)) s') (ip : Nat) :
    StepsFrom env rules known change (· = ip) t s
      ((handle env (.charge (toInt64 (cost - n))) s').bind fun _ s'' => .ok ip s'') := by
  have hcost : InInt64 (toInt64 (cost - n)) := inInt64_toInt64 _
  have hfollows : Follows rules s (s'.setGas (s'.gasLeft - toInt64 (cost - n))) := by
    obtain ⟨h1, h2, h3, h4, h5⟩ := (h.follows hs).trans hc.follows
    refine ⟨h1, h2, h3, h4, fun hm => ?_⟩
    obtain ⟨hrange, hle⟩ := h.takeBack hc hm
    refine ⟨?_, ?_⟩
    · show toInt64 (s'.gasLeft - toInt64 (cost - n)) ≤ rules.ceiling
      have hceiling := (hs.gas hm).2.1
      rw [toInt64_of_inInt64 hrange]
      omega
    · show (s'.ghost.overflow || !decide (InInt64 (s'.gasLeft - toInt64 (cost - n)))) = false
      rw [(h5 hm).2, decide_eq_true hrange]
      rfl
  simp only [handle]
  rw [noteInt64_of_inInt64 hcost]
  -- the charge that takes the correction back may still run out of gas
  by_cases hneg : (s'.setGas (s'.gasLeft - toInt64 (cost - n))).gasLeft < 0
  · rw [if_pos hneg]
    refine .inr ⟨hfollows, fun hne => absurd hc.outputSize hne, fun hkeeps => ?_⟩
    exact absurd hkeeps (by decide)
  · rw [if_neg hneg]
    refine .inr ⟨rfl, hfollows, hc.outputSize, hc.height, fun hm => ?_⟩
    obtain ⟨hrange, hle⟩ := h.takeBack hc hm
    have hgas : (s'.setGas (s'.gasLeft - toInt64 (cost - n))).gasLeft =
        s'.gasLeft - toInt64 (cost - n) := toInt64_of_inInt64 hrange
    have h4 := h.gas hm
    omega

/-- An instruction that runs with corrected gas. -/
theorem steps_corrected (hlimit : rules.limit = 1024) (hfits : rules.fits → env.host.CopyFits)
    (hs : Startable rules s) {op : Opcode} {p : Exec Unit}
    (hp : Spec rules (instr.traits op).stackHeightRequired (instr.traits op).stackHeightChange p)
    (hsuits : Suits known op s) (hcorrect : Correctable rules s cost n)
    (ht : rules.metered → 0 ≤ t.gasLeft → 0 ≤ s.gasLeft ∧ n ≤ cost) (ip : Nat) :
    StepsFrom env rules known (instr.traits op).stackHeightChange (· = ip + 1) t s
      ((next ip (corrected cost (.number n) p)).run env s) := by
  have hstart := hcorrect.startable hs
  have hspec := run_spec hlimit hfits hstart (show Suits known op
      (lend s (cost - n)) from hsuits) hp
  -- lending only adds gas: when `t` has some left so has the lent state, and a host that
  -- derails the one derails the other
  have hderailed : ∀ s' : ExecutionState σ, rules.metered → Derailed env (lend s (cost - n)) s' →
      Derailed env t s' := by
    rintro s' hm ⟨msg, st, hmsg, hrest⟩
    refine ⟨msg, st, fun h0 => hmsg ?_, hrest⟩
    have hlent := (hcorrect.lend_gasLeft hm).2.1
    have h1 := ht hm h0
    omega
  show Outcome.Meets _ _ _ (Program.run (handle env)
    (corrected cost (.number n) p >>= fun _ => pure (ip + 1)) s)
  rw [Program.run_bind]
  show Outcome.Meets _ _ _ (((corrected cost (.number n) p).run env s).bind _)
  rw [run_corrected]
  generalize p.run env (lend s (cost - n)) = r at hspec
  cases r with
  | ok _ s' =>
      rcases hspec with ⟨hm, hd⟩ | hcont
      · have hcalls := handle_calls env (.charge (toInt64 (cost - n))) s'
        have hd' := hderailed s' hm hd
        simp only [Outcome.bind]
        generalize handle env (.charge (toInt64 (cost - n))) s' = r at hcalls
        cases r with
        | ok _ s'' => exact .inl ⟨hm, hd'.mono hcalls⟩
        | exit status s'' => exact .inl ⟨hm, hd'.mono hcalls⟩
        | fault f => exact .inr (.inr hm)
      · exact hcorrect.charge hs hcont (ip + 1)
  | exit status s' =>
      rcases hspec with ⟨hm, hd⟩ | hexit
      · exact .inl ⟨hm, hderailed s' hm hd⟩
      · refine .inr ⟨(hcorrect.follows hs).trans hexit.follows, ?_, ?_⟩
        · exact fun hne => absurd hexit.outputSize hne
        · exact fun hkeeps => absurd hkeeps hexit.status
  | fault f => exact hspec

end Corrected

/-! ## The function of an entry -/

/-- The instruction pointers after the instruction `op` at `ip`. -/
def NextEntry (analysis : AdvancedCodeAnalysis) (ip : Nat) (op : Opcode) (ip' : Nat) : Prop :=
  (op ≠ .jump ∧ (∀ f, Baseline.op2fn op ≠ .terminating f) ∧ ip' = ip + 1) ∨
    ((op = .jump ∨ op = .jumpi) ∧ JumpedTo analysis ip')

theorem nextEntry_of_basic {analysis : AdvancedCodeAnalysis} {ip : Nat} {op : Opcode}
    {f : Context → Exec Unit} (hbase : Baseline.op2fn op = .basic f) :
    NextEntry analysis ip op (ip + 1) := by
  refine .inl ⟨fun h => ?_, fun g h => ?_, rfl⟩
  · rw [h] at hbase
    cases hbase
  · rw [h] at hbase
    cases hbase

theorem required_of_opReturn {op : Opcode} {status : StatusCode}
    (h : instructionImplementations op = .opReturn status) :
    (instr.traits op).stackHeightRequired = 2 := by
  cases op with
  | return_ | revert => rfl
  | push n =>
      simp only [instructionImplementations] at h
      split at h <;> cases h
  | _ => cases h

theorem argOf_of_readsGas {op : Opcode} {d : Decoded} (hop : Opcode.ofByte d.opcode = some op)
    (hreads : op.readsGas = true) (gas : Int) (k : Nat) : argOf gas k d = .number gas := by
  unfold argOf
  rw [hop]
  cases op with
  | gas | sstore | call | callcode | delegatecall | staticcall | create | create2 => rfl
  | _ => cases hreads

/-- The function of the entry of a large PUSH. -/
theorem exec_opPushFull {analysis : AdvancedCodeAnalysis} {d : Decoded} {n : Fin 32} {k : Nat}
    (hop : Opcode.ofByte d.opcode = some (.push n)) (hn : ¬ n < 8)
    (hvalue : PushValueAt analysis.pushValues k d) (cost : Nat) (ctx : Context) (ip : Nat) :
    exec analysis cost ctx .opPushFull (.pushValue k) ip =
      next ip (Exec.push (largePushValue (n.val + 1) d.data)) := by
  have hget : analysis.pushValues[k]? = some (largePushValue (n.val + 1) d.data) := by
    apply hvalue
    rw [largePushOf_pushFull hop hn]
    exact List.mem_singleton.2 rfl
  simp only [exec, opPushFull, hget]

section Exec

variable {env : Env σ} {rules : Rules} {known : Prop} {t s : ExecutionState σ}
  {analysis : AdvancedCodeAnalysis} {cost : Nat} {ip : Nat} {op : Opcode} {d : Decoded} {gas : Int}
  {k : Nat}

theorem steps_anchor {change : Int} {next next' : Nat → Prop} {r : Result σ Nat}
    (h : Steps env rules known change next s r) (ht : rules.metered → 0 ≤ t.gasLeft → 0 ≤ s.gasLeft)
    (hnext : ∀ pos, next pos → next' pos) : StepsFrom env rules known change next' t s r := by
  have hderailed : ∀ s', rules.metered → Derailed env s s' → Derailed env t s' := by
    rintro s' hm ⟨msg, st, hmsg, hrest⟩
    exact ⟨msg, st, fun h0 => hmsg (ht hm h0), hrest⟩
  refine h.mono ?_ ?_ fun _ => id
  · rintro pos s' (⟨hm, hd⟩ | ⟨hpos, hcont⟩)
    · exact .inl ⟨hm, hderailed s' hm hd⟩
    · exact .inr ⟨hnext pos hpos, hcont⟩
  · rintro status s' (⟨hm, hd⟩ | hleaves)
    · exact .inl ⟨hm, hderailed s' hm hd⟩
    · exact .inr hleaves

/-- The function of the entry of a decoded instruction. -/
theorem exec_steps (hlimit : rules.limit = 1024) (hreads : rules.readsGas)
    (hfits : rules.fits → env.host.CopyFits) (hstatic : rules.isStatic → s.msg.isStatic = true)
    (hop : Opcode.ofByte d.opcode = some op) (hjumpdest : op ≠ .jumpdest)
    (hvalue : PushValueAt analysis.pushValues k d) (hs : Startable rules s)
    (hsuits : Suits known op s) (hcorrect : Correctable rules s cost gas)
    (ht : rules.metered → 0 ≤ t.gasLeft → 0 ≤ s.gasLeft ∧ gas ≤ cost) :
    StepsFrom env rules known (instr.traits op).stackHeightChange (NextEntry analysis ip op) t s
      ((exec analysis cost s.toContext (instructionImplementations op) (argOf gas k d) ip).run env
        s) := by
  have hsafe : rules.metered → 0 ≤ t.gasLeft → 0 ≤ s.gasLeft := fun hm h0 => (ht hm h0).1
  have himpl := implemented op
  generalize hbase : Baseline.op2fn op = base at himpl
  generalize hfn : instructionImplementations op = fn at himpl
  cases himpl with
  | plain hplain =>
      refine steps_anchor (run_basic hlimit hreads hfits hstatic hs hbase hsuits (ip + 1)) hsafe ?_
      rintro pos rfl
      exact nextEntry_of_basic hbase
  | corrected hexec hreadsGas =>
      rw [hexec, argOf_of_readsGas hop hreadsGas]
      refine (steps_corrected hlimit hfits hs (spec_basic hbase hstatic fun _ => hreads) hsuits
        hcorrect ht ip).mono ?_ (fun _ _ => id) fun _ => id
      rintro pos s' (hd | ⟨rfl, hcont⟩)
      · exact .inl hd
      · exact .inr ⟨nextEntry_of_basic hbase, hcont⟩
  | gas =>
      rw [argOf_of_readsGas hop rfl]
      refine steps_anchor (run_steps hlimit hfits hs hsuits fun a hgas hready =>
        sat_next_opGas hreads hready fun hm => ?_) hsafe ?_
      · rw [hgas]
        exact ⟨hcorrect.ceiling hm, hcorrect.cost hm, hcorrect.number hm⟩
      · rintro pos rfl
        exact nextEntry_of_basic hbase
  | jumpdest => exact absurd rfl hjumpdest
  | jump =>
      refine steps_anchor (run_steps hlimit hfits hs hsuits fun a _ hready => sat_opJump hready)
        hsafe ?_
      exact fun pos hpos => .inr ⟨.inl rfl, hpos⟩
  | jumpi =>
      refine steps_anchor (run_steps hlimit hfits hs hsuits fun a _ hready => sat_opJumpi hready)
        hsafe ?_
      rintro pos (hpos | rfl)
      · exact .inr ⟨.inr rfl, hpos⟩
      · exact .inl ⟨by decide, fun f hf => (by cases hf), rfl⟩
  | pc =>
      rw [argOf_pc hop]
      refine steps_anchor (run_steps hlimit hfits hs hsuits fun a _ hready => sat_next_push hready)
        hsafe ?_
      rintro pos rfl
      exact .inl ⟨by decide, fun f hf => (by cases hf), rfl⟩
  | pushSmall hn =>
      rw [argOf_pushSmall hop hn]
      refine steps_anchor (run_steps hlimit hfits hs hsuits fun a _ hready => sat_next_push hready)
        hsafe ?_
      rintro pos rfl
      exact .inl ⟨fun h => (by cases h), fun f hf => (by cases hf), rfl⟩
  | pushFull hn =>
      rw [argOf_pushFull hop hn, exec_opPushFull hop hn hvalue]
      refine steps_anchor (run_steps hlimit hfits hs hsuits fun a _ hready => sat_next_push hready)
        hsafe ?_
      rintro pos rfl
      exact .inl ⟨fun h => (by cases h), fun f hf => (by cases hf), rfl⟩
  | return_ hkeeps =>
      have hrequired := required_of_opReturn hfn
      refine steps_anchor (run_terminating hlimit hfits hs hsuits ?_) hsafe fun _ h => h
      rw [hrequired]
      exact terminatingSpec_opReturn hkeeps
  | terminating hexec =>
      rw [hexec]
      exact steps_anchor (run_terminating hlimit hfits hs hsuits (spec_terminating hbase hstatic))
        hsafe fun _ h => h

end Exec

end Ivmone.Advanced
