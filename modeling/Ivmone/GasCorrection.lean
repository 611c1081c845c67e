import Ivmone.GasInvariant
import Ivmone.Lib.Footprint

/-!
# The corrected gas of Advanced

A block is paid for as a whole when it is entered. An instruction that has to know the gas left adds
what has been paid in advance, the base costs of the instructions of the block that follow: the cost
of the block less the number in its entry, which the analysis has summed up to this instruction.

The run is recorded in a ledger: the gas with which the current block was entered, and the dynamic
costs charged since then. In every run the gas left is that gas less the cost of the block and the
dynamic costs, unless an `int64_t` computation has overflowed before, after which the source has no
defined behaviour.
-/

set_option autoImplicit false

namespace Ivmone

open Lib Lib.Program Instructions

variable {σ : Type} {env : Env σ} {s t : ExecutionState σ}

/-! ## What an implementation charges -/

/-- What an operation takes from the gas left. -/
def Op.gasTaken (o : Op) (s : ExecutionState σ) : Int :=
  match o with
  | .charge cost => cost
  | .checkMemory offset size =>
      match regionEnd offset size with
      | some newSize =>
          if s.memory.size < newSize then growthCost s.memory.size newSize else 0
      | none => 0
  -- The gas given to a call and not returned.
  | .setGasLeft gas => s.gasLeft - gas
  | _ => 0

/-- The gas an implementation charges in a run. -/
def Exec.charged {α : Type} (env : Env σ) (p : Exec α) (s : ExecutionState σ) : Int :=
  p.tally (handle env) Op.gasTaken s

theorem setGas_of_defined {exact : Int} (h : (s.setGas exact).ghost.overflow = false) :
    s.ghost.overflow = false ∧ (s.setGas exact).gasLeft = exact := by
  obtain ⟨hs, hin⟩ := Bool.or_eq_false_iff.1 h
  exact ⟨hs, toInt64_of_inInt64 (by simpa using hin)⟩

theorem noteInt64_of_defined {exact : Int} (h : (s.noteInt64 exact).ghost.overflow = false) :
    s.ghost.overflow = false := (Bool.or_eq_false_iff.1 h).1

theorem growMemory_taken {alloc : Allocator} {newSize : Nat} {passed : Bool}
    (h : s.growMemory alloc newSize = .ok passed t) (ht : t.ghost.overflow = false) :
    s.ghost.overflow = false ∧ t.gasLeft = s.gasLeft - growthCost s.memory.size newSize := by
  have hpaid : ∀ s' : ExecutionState σ, (s'.setGas (s.gasLeft -
      growthCost s.memory.size newSize)).ghost.overflow = false → s'.ghost.overflow = false ∧
      (s'.setGas (s.gasLeft - growthCost s.memory.size newSize)).gasLeft =
        s.gasLeft - growthCost s.memory.size newSize := fun s' => setGas_of_defined
  -- The five results that are noted before the cost is paid leave the gas alone.
  unfold ExecutionState.growMemory at h
  dsimp only at h
  split at h
  · injection h with _ hst
    subst hst
    obtain ⟨hs, hgas⟩ := hpaid _ ht
    refine ⟨?_, hgas⟩
    iterate 5 replace hs := noteInt64_of_defined hs
    exact hs
  · split at h
    · injection h with _ hst
      subst hst
      obtain ⟨hs, hgas⟩ := hpaid _ ht
      refine ⟨?_, hgas⟩
      iterate 5 replace hs := noteInt64_of_defined hs
      exact hs
    · cases h

theorem checkMemory_taken {alloc : Allocator} {offset : UInt256} {size : MemorySize} {passed : Bool}
    (h : s.checkMemory alloc offset size = .ok passed t) (ht : t.ghost.overflow = false) :
    s.ghost.overflow = false ∧ t.gasLeft = s.gasLeft - (Op.checkMemory offset size).gasTaken s := by
  rw [checkMemory_eq] at h
  unfold Op.gasTaken
  split at h
  · rename_i hend
    injection h with _ hst
    subst hst
    simp only [hend]
    exact ⟨ht, (Int.sub_zero _).symm⟩
  · rename_i newSize hend
    simp only [hend]
    split at h
    · rename_i hlt
      rw [if_pos hlt]
      exact growMemory_taken h ht
    · rename_i hge
      injection h with _ hst
      subst hst
      rw [if_neg hge]
      exact ⟨ht, (Int.sub_zero _).symm⟩

theorem handle_taken (env : Env σ) (o : Op) (s : ExecutionState σ) (r : o.Res)
    (t : ExecutionState σ) (h : handle env o s = .ok r t) (ht : t.ghost.overflow = false) :
    s.ghost.overflow = false ∧ t.gasLeft = s.gasLeft - o.gasTaken s := by
  have hsame : t.gasLeft = s.gasLeft → t.gasLeft = s.gasLeft - 0 := fun heq => by omega
  cases o with
  | pop | push | peek | poke | load | store =>
      simp only [handle] at h
      split at h
      · injection h with _ hst
        subst hst
        exact ⟨ht, hsame rfl⟩
      · cases h
  | charge cost =>
      simp only [handle] at h
      split at h
      · cases h
      · injection h with _ hst
        subst hst
        obtain ⟨hs, hgas⟩ := setGas_of_defined ht
        exact ⟨noteInt64_of_defined hs, hgas⟩
  | checkMemory offset size =>
      simp only [handle] at h
      obtain ⟨passed, s', hcheck, h⟩ := Outcome.bind_eq_ok h
      split at h
      · injection h with _ hst
        subst hst
        have htaken := checkMemory_taken hcheck ht
        exact htaken
      · cases h
  | setGasLeft gas =>
      injection h with _ hst
      subst hst
      refine ⟨ht, ?_⟩
      -- a counter that is set has given up whatever it held before
      show gas = s.gasLeft - (s.gasLeft - gas)
      omega
  | int64 exact =>
      injection h with _ hst
      subst hst
      exact ⟨noteInt64_of_defined ht, hsame rfl⟩
  | exit | fault => cases h
  | _ =>
      injection h with _ hst
      subst hst
      exact ⟨ht, hsame rfl⟩

/-- What an implementation has taken from the gas left. -/
theorem run_charged {α : Type} {p : Exec α} {x : α} (h : p.run env s = .ok x t)
    (ht : t.ghost.overflow = false) :
    s.ghost.overflow = false ∧ t.gasLeft = s.gasLeft - p.charged env s :=
  run_tally (handle_taken env) h ht

namespace Advanced

/-! ## The ledger -/

/-- The implementation that an entry runs with corrected gas. -/
def ExecFn.lentTo : ExecFn → Option (Context → Exec Unit)
  | .opSstore => some sstore
  | .opCall kind isStatic => some (call kind isStatic)
  | .opCreate kind => some (create kind)
  | _ => none

/-- The entries for which the gas left is corrected. -/
def ExecFn.corrects : ExecFn → Bool
  | .opGas | .opSstore | .opCall _ _ | .opCreate _ => true
  | _ => false

/-- The dynamic cost of an entry: what its implementation charges, in the state it is started in. -/
def dynamicCost (env : Env σ) (analysis : AdvancedCodeAnalysis) (fn : ExecFn)
    (arg : Argument) (ip : Nat) (s : AdvancedExecutionState σ) : Int :=
  match fn.lentTo, arg with
  | some f, .number n =>
      (f s.toContext).charged env (lend s.toExecutionState (s.currentBlockCost - n))
  | some _, _ => 0
  | none, _ =>
      (exec analysis s.currentBlockCost s.toContext fn arg ip).charged env s.toExecutionState

/-- The BEGINBLOCK of the current block, the gas with which it was executed, and the dynamic costs
charged since then. -/
structure Ledger where
  block : Nat
  entryGas : Int
  dynamicCosts : Int

/-- The ledger after the entry at the instruction pointer. -/
def Ledger.note (env : Env σ) (analysis : AdvancedCodeAnalysis)
    (c : Config (AdvancedExecutionState σ)) (l : Ledger) : Ledger :=
  match c with
  | .running ip s =>
      match analysis.instrs[ip]? with
      | some ⟨some .opxBeginblock, _⟩ => ⟨ip, s.gasLeft, 0⟩
      | some ⟨some fn, arg⟩ =>
          { l with dynamicCosts := l.dynamicCosts + dynamicCost env analysis fn arg ip s }
      | _ => l
  | _ => l

/-- Before the first block no cost has been charged. -/
def Ledger.start (i : Invocation σ) : Ledger := ⟨0, i.ctx.msg.gas, 0⟩

variable {analysis : AdvancedCodeAnalysis} {ip : Nat}

theorem note_beginblock {arg : Argument} {s : AdvancedExecutionState σ} {l : Ledger}
    (h : analysis.instrs[ip]? = some ⟨some .opxBeginblock, arg⟩) :
    Ledger.note env analysis (.running ip s) l = ⟨ip, s.gasLeft, 0⟩ := by
  simp only [Ledger.note, h]

theorem note_of_ne {fn : ExecFn} {arg : Argument} {s : AdvancedExecutionState σ} {l : Ledger}
    (h : analysis.instrs[ip]? = some ⟨some fn, arg⟩) (hne : fn ≠ .opxBeginblock) :
    Ledger.note env analysis (.running ip s) l =
      { l with dynamicCosts := l.dynamicCosts + dynamicCost env analysis fn arg ip s } := by
  simp only [Ledger.note, h]

/-! ## One entry -/

/-- What was lent is taken back: the net effect on the gas left is the cost of the
implementation. -/
theorem corrected_charged {cost : Nat} {arg : Argument} {p : Exec Unit} {ip' : Nat}
    (h : (next ip (corrected cost arg p)).run env s = .ok ip' t) (ht : t.ghost.overflow = false) :
    ∃ n, arg = .number n ∧ s.ghost.overflow = false ∧
      t.gasLeft = s.gasLeft - p.charged env (lend s (cost - n)) := by
  obtain ⟨_, s', hrun, hpure⟩ := run_bind_eq_ok h
  injection hpure with _ hst
  subst hst
  cases arg with
  | number n =>
      have hrun' := (run_corrected env cost n p s).symm.trans hrun
      obtain ⟨_, s1, hp, hcharge⟩ := Outcome.bind_eq_ok hrun'
      obtain ⟨hs1, hgas1⟩ := handle_taken env _ _ _ _ hcharge ht
      obtain ⟨hlent, hgas2⟩ := run_charged hp hs1
      obtain ⟨hnoted, hgas3⟩ := setGas_of_defined hlent
      refine ⟨n, rfl, noteInt64_of_defined hnoted, ?_⟩
      have hback : (Op.charge (toInt64 (cost - n))).gasTaken s1 = toInt64 (cost - n) := rfl
      have hgas3' : (lend s (cost - n)).gasLeft = s.gasLeft + toInt64 (cost - n) := hgas3
      omega
  | pushValue | smallPushValue | block => cases hrun

/-- The gas left after an entry other than a BEGINBLOCK. -/
theorem exec_charged {fn : ExecFn} {arg : Argument} {s : AdvancedExecutionState σ} {ip' : Nat}
    (h : (exec analysis s.currentBlockCost s.toContext fn arg ip).run env s.toExecutionState =
      .ok ip' t) (ht : t.ghost.overflow = false) :
    s.ghost.overflow = false ∧ t.gasLeft = s.gasLeft - dynamicCost env analysis fn arg ip s := by
  have hlent : ∀ f, fn.lentTo = some f →
      exec analysis s.currentBlockCost s.toContext fn arg ip =
        next ip (corrected s.currentBlockCost arg (f s.toContext)) := by
    intro f hf
    cases fn with
    | opSstore | opCall | opCreate =>
        injection hf with hf
        subst hf
        rfl
    | _ => cases hf
  unfold dynamicCost
  cases hf : fn.lentTo with
  | none => exact run_charged h ht
  | some f =>
      rw [hlent f hf] at h
      obtain ⟨n, rfl, hs, hgas⟩ := corrected_charged h ht
      exact ⟨hs, hgas⟩

theorem next_ok {p : Exec Unit} {ip' : Nat} (h : run (handle env) (next ip p) s = .ok ip' t) :
    ip' = ip + 1 := by
  obtain ⟨_, s', -, hpure⟩ := run_bind_eq_ok h
  injection hpure with hip
  exact hip.symm

theorem exitWith_ne_ok {p : Exec StatusCode} {ip' : Nat} :
    run (handle env) (exitWith p) s ≠ .ok ip' t := by
  intro h
  obtain ⟨status, s', -, hexit⟩ := run_bind_eq_ok h
  cases hexit

theorem popJumpTarget_ok {target : Nat}
    (h : run (handle env) (popJumpTarget analysis) s = .ok (some target) t) :
    JumpedTo analysis target := by
  obtain ⟨dst, s', -, h⟩ := run_bind_eq_ok h
  split at h
  · injection h with h
    cases h
  · injection h with h
    split at h
    · cases h
    · injection h with h
      exact ⟨dst.toNat, by omega, by omega⟩

theorem jumpTo_ok {target : Option Nat} {ip' : Nat}
    (h : run (handle env) (jumpTo target) s = .ok ip' t) : target = some ip' := by
  cases target with
  | none => cases h
  | some target =>
      injection h with h
      rw [h]

/-- An entry is followed by the next one, or by one that `find_jumpdest` has returned. -/
theorem exec_next {cost : Nat} {ctx : Context} {fn : ExecFn} {arg : Argument} {ip' : Nat}
    (h : (exec analysis cost ctx fn arg ip).run env s = .ok ip' t) :
    ip' = ip + 1 ∨ JumpedTo analysis ip' := by
  cases fn with
  | opStop | opInvalid | opUndefined | opxBeginblock => cases h
  | opReturn | opSelfdestruct => exact absurd h exitWith_ne_ok
  | opJump =>
      obtain ⟨target, s1, hpop, hjump⟩ := run_bind_eq_ok h
      obtain rfl := jumpTo_ok hjump
      exact .inr (popJumpTarget_ok hpop)
  | opJumpi =>
      obtain ⟨cond, s1, -, h⟩ := run_bind_eq_ok h
      split at h
      · obtain ⟨target, s2, hpop, h⟩ := run_bind_eq_ok h
        obtain ⟨_, s3, -, hjump⟩ := run_bind_eq_ok h
        obtain rfl := jumpTo_ok hjump
        exact .inr (popJumpTarget_ok hpop)
      · obtain ⟨_, s2, -, h⟩ := run_bind_eq_ok h
        obtain ⟨_, s3, -, hpure⟩ := run_bind_eq_ok h
        injection hpure with hip
        exact .inl hip.symm
  | op | opSstore | opPc | opGas | opPushSmall | opPushFull | opCall | opCreate =>
      exact .inl (next_ok h)

/-! ## The ledger in a run -/

/-- The gas left is the gas at the entry of the block less its cost and the dynamic costs. -/
def Balanced : Config (AdvancedExecutionState σ) × Ledger → Prop
  | (.running _ s, l) =>
      s.ghost.overflow = false → s.gasLeft = l.entryGas - s.currentBlockCost - l.dynamicCosts
  | _ => True

theorem balanced_step {x y : Config (AdvancedExecutionState σ) × Ledger} (hx : Balanced x)
    (h : recorded (step env analysis) (Ledger.note env analysis) x = some y) : Balanced y := by
  obtain ⟨c, l⟩ := x
  obtain ⟨c', l'⟩ := y
  obtain ⟨hstep, rfl⟩ := recorded_eq_some.1 h
  cases c with
  | halted | fault => cases hstep
  | running ip s =>
      rcases step_inv hstep with ⟨f, rfl, -⟩ | ⟨info, hinstr, rfl⟩ | ⟨fn, arg, hinstr, hne, rfl⟩
      · trivial
      · rw [note_beginblock hinstr]
        rcases opxBeginblock_cases info ip s with ⟨status, -, heq, -⟩ | ⟨heq, -⟩
        · rw [heq]
          trivial
        · rw [heq]
          intro hdefined
          obtain ⟨-, hgas⟩ := setGas_of_defined hdefined
          show (s.setGas (s.gasLeft - info.gasCost)).gasLeft = s.gasLeft - info.gasCost - 0
          omega
      · rw [note_of_ne hinstr hne]
        cases hrun : (exec analysis s.currentBlockCost s.toContext fn arg ip).run env
            s.toExecutionState with
        | exit | fault => trivial
        | ok ip' s' =>
            intro hdefined
            obtain ⟨hs, hgas⟩ := exec_charged hrun hdefined
            have hbefore := hx hs
            show s'.gasLeft = l.entryGas - s.currentBlockCost - (l.dynamicCosts + _)
            omega

/-- The entry at an index is a BEGINBLOCK. -/
def IsBeginblock (analysis : AdvancedCodeAnalysis) (ip : Nat) : Prop :=
  ∃ arg, analysis.instrs[ip]? = some ⟨some .opxBeginblock, arg⟩

/-- The instruction pointer is at a BEGINBLOCK, or in the block of the ledger. -/
def InBlockOf (analysis : AdvancedCodeAnalysis) : Config (AdvancedExecutionState σ) × Ledger → Prop
  | (.running ip _, l) =>
      IsBeginblock analysis ip ∨
        (l.block < ip ∧ IsBeginblock analysis l.block ∧
          ∀ j, l.block < j → j ≤ ip → ¬ IsBeginblock analysis j)
  | _ => True

theorem isBeginblock_of_jumpedTo {rev : Revision} {code : List Byte} (hsize : code.length < 2 ^ 30)
    (h : JumpedTo (analyze rev code) ip) : IsBeginblock (analyze rev code) ip := by
  obtain ⟨closed, d, b, post, hsplit, rfl⟩ := h.exists_block hsize
  exact ⟨_, getElem?_instrs_of_append hsplit⟩

theorem inBlockOf_step {rev : Revision} {code : List Byte} (hsize : code.length < 2 ^ 30)
    {x y : Config (AdvancedExecutionState σ) × Ledger} (hx : InBlockOf (analyze rev code) x)
    (h : recorded (step env (analyze rev code)) (Ledger.note env (analyze rev code)) x = some y) :
    InBlockOf (analyze rev code) y := by
  obtain ⟨c, l⟩ := x
  obtain ⟨c', l'⟩ := y
  obtain ⟨hstep, rfl⟩ := recorded_eq_some.1 h
  cases c with
  | halted | fault => cases hstep
  | running ip s =>
      rcases step_inv hstep with ⟨f, rfl, -⟩ | ⟨info, hinstr, rfl⟩ | ⟨fn, arg, hinstr, hne, rfl⟩
      · trivial
      · rw [note_beginblock hinstr]
        rcases opxBeginblock_cases info ip s with ⟨status, -, heq, -⟩ | ⟨heq, -⟩
        · rw [heq]
          trivial
        · rw [heq]
          by_cases hnext : IsBeginblock (analyze rev code) (ip + 1)
          · exact .inl hnext
          · refine .inr ⟨Nat.lt_succ_self ip, ⟨_, hinstr⟩, fun j hlt hle => ?_⟩
            obtain rfl : j = ip + 1 := Nat.le_antisymm hle hlt
            exact hnext
      · rw [note_of_ne hinstr hne]
        have hnot : ¬ IsBeginblock (analyze rev code) ip := by
          rintro ⟨arg', hbegin⟩
          rw [hinstr] at hbegin
          injection hbegin with hbegin
          injection hbegin with hfn
          injection hfn with hfn
          exact hne hfn
        obtain ⟨hlt, hblock, hbetween⟩ := hx.resolve_left hnot
        cases hrun : (exec (analyze rev code) s.currentBlockCost s.toContext fn arg ip).run env
            s.toExecutionState with
        | exit | fault => trivial
        | ok ip' s' =>
            rcases exec_next hrun with rfl | hjumped
            · -- The block goes on, unless the next entry is the BEGINBLOCK of the one after it.
              by_cases hnext : IsBeginblock (analyze rev code) (ip + 1)
              · exact .inl hnext
              · refine .inr ⟨Nat.lt_succ_of_lt hlt, hblock, fun j hj hle => ?_⟩
                rcases Nat.le_succ_iff.1 hle with hle | rfl
                · exact hbetween j hj hle
                · exact hnext
            · exact .inl (isBeginblock_of_jumpedTo hsize hjumped)

theorem fn_ne_beginblock {rev : Revision} {d : Decoded} (hd : d.opcode ≠ Opcode.jumpdest.toByte) :
    (opTable rev d.opcode).fn ≠ some .opxBeginblock := by
  rcases decoded_cases rev d with ⟨-, hfn, -⟩ | ⟨op, hop, -, hfn, -⟩
  · rw [hfn]
    exact nofun
  · rw [hfn]
    have hne : op ≠ .jumpdest := by
      rintro rfl
      exact hd (toByte_of_ofByte hop)
    intro heq
    injection heq with heq
    exact instructionImplementations_ne_beginblock hne heq

/-- The instructions of a block have entries of their own. -/
theorem fn_ne_beginblock_of_mem {rev : Revision} {e : Instruction} {ds : List Decoded} :
    ∀ {gas : Int} {k : Nat}, e ∈ entriesOf rev gas k ds → e.fn ≠ some .opxBeginblock := by
  induction ds with
  | nil => exact fun h => by cases h
  | cons d ds ih =>
      intro gas k h
      rw [entriesOf, List.mem_append] at h
      rcases h with h | h
      · unfold entryOf at h
        split at h
        · cases h
        · rename_i hd
          rw [List.mem_singleton.1 h]
          exact fn_ne_beginblock hd
      · exact ih h

/-- Behind its BEGINBLOCK a block has no other. -/
theorem not_isBeginblock_inBlock {rev : Revision} {code : List Byte} {closed : List (List Decoded)}
    {b : List Decoded} {post : List (List Decoded)}
    (hsplit : blocksOf (decode code) = closed ++ b :: post)
    {j : Nat} (hlt : (tableOf rev 0 closed).length < j)
    (hle : j < (tableOf rev 0 closed).length + 1 + (entriesOf rev 0 0 b).length) :
    ¬ IsBeginblock (analyze rev code) j := by
  rintro ⟨arg, hbegin⟩
  obtain ⟨k, rfl⟩ := Nat.exists_eq_add_of_lt hlt
  have hk : k < (entriesOf rev 0 (pushValuesOf closed.flatten).length b).length := by
    rw [length_entriesOf 0 0 _ 0]
    omega
  rw [analyze_eq] at hbegin
  simp only [hsplit, tableOf_append, tableOf, Nat.zero_add] at hbegin
  rw [List.append_assoc, List.getElem?_append_right (by omega), Nat.add_assoc,
    Nat.add_sub_cancel_left, List.cons_append, List.getElem?_cons_succ, List.append_assoc,
    List.getElem?_append_left hk] at hbegin
  exact fn_ne_beginblock_of_mem (List.mem_of_getElem? hbegin) rfl

/-- The BEGINBLOCK of the ledger is that of the block of the instruction. -/
theorem block_eq_of_inBlockOf {rev : Revision} {code : List Byte} {closed : List (List Decoded)}
    {done : List Decoded} {d : Decoded} {rest : List Decoded} {post : List (List Decoded)}
    {s : AdvancedExecutionState σ} {l : Ledger}
    (hsplit : blocksOf (decode code) = closed ++ (done ++ d :: rest) :: post)
    (hd : d.opcode ≠ Opcode.jumpdest.toByte)
    (h : InBlockOf (analyze rev code)
      (.running ((tableOf rev 0 closed).length + 1 + (entriesOf rev 0 0 done).length) s, l)) :
    l.block = (tableOf rev 0 closed).length := by
  have hlength : (entriesOf rev 0 0 done).length <
      (entriesOf rev 0 0 (done ++ d :: rest)).length := by
    rw [entriesOf_append, List.length_append, entriesOf, entryOf, if_neg hd, List.length_append,
      List.length_singleton]
    omega
  have hnot := @not_isBeginblock_inBlock rev code closed _ post hsplit
  obtain ⟨hlt, hblock, hbetween⟩ := h.resolve_left (hnot (by omega) (by omega))
  rcases Nat.lt_trichotomy l.block (tableOf rev 0 closed).length with hbefore | heq | hafter
  · exact absurd ⟨_, getElem?_instrs_of_append hsplit⟩ (hbetween _ hbefore (by omega))
  · exact heq
  · exact absurd hblock (hnot hafter (by omega))

/-! ## The correction -/

theorem corrects_instructionImplementations (op : Opcode) :
    (instructionImplementations op).corrects = op.readsGas := by
  cases op with
  | push n =>
      simp only [instructionImplementations]
      split
      · rfl
      · rfl
  | _ => rfl

/-- Where an entry with corrected gas is, and the number it has. -/
theorem located_of_corrects {i : Invocation σ} (hsize : i.ctx.code.bytes.length < 2 ^ 30)
    {s : AdvancedExecutionState σ}
    (hreaches : StateTransition.Reaches (step i.env (analysisOf i)) (start i) (.running ip s))
    {fn : ExecFn} {arg : Argument} (hinstr : (analysisOf i).instrs[ip]? = some ⟨some fn, arg⟩)
    (hcorrects : fn.corrects = true) :
    ∃ closed done d rest post,
      blocksOf (decode i.ctx.code.bytes) = closed ++ (done ++ d :: rest) :: post ∧
      d.opcode ≠ Opcode.jumpdest.toByte ∧
      ip = (tableOf i.ctx.rev 0 closed).length + 1 + (entriesOf i.ctx.rev 0 0 done).length ∧
      arg = .number (baseCost i.ctx.rev (done ++ [d])) ∧
      (s.currentBlockCost : Int) = min (baseCost i.ctx.rev (done ++ d :: rest)) (2 ^ 32 - 1) := by
  obtain ⟨-, -, hloc⟩ :=
    (blockValid_of_reaches (premises_lenient i) False.elim hsize hreaches).resolve_left fun h => h.1
  generalize hcur : s.currentBlockCost = cost at hloc
  generalize s.stack.height = height at hloc
  -- Neither a BEGINBLOCK nor the STOP at the end corrects the gas.
  cases hloc with
  | atBlock hsplit =>
      have hbegin := @getElem?_instrs_of_append i.ctx.rev _ _ _ _ hsplit
      rw [analysisOf, hbegin] at hinstr
      injection hinstr with hinstr
      injection hinstr with hfn
      injection hfn with hfn
      subst hfn
      cases hcorrects
  | atEnd =>
      have hend := @getElem?_instrs_end i.ctx.rev i.ctx.code.bytes
      rw [analysisOf, hend] at hinstr
      injection hinstr with hinstr
      injection hinstr with hfn
      injection hfn with hfn
      subst hfn
      cases hcorrects
  | @inBlock closed done d rest post _ _ hsplit hd hcost hrequired hgrowth =>
      have hentry := @getElem?_instrs_inBlock i.ctx.rev _ _ _ _ _ _ hsplit hd
      rw [analysisOf, hentry] at hinstr
      injection hinstr with hinstr
      injection hinstr with hfn harg
      refine ⟨closed, done, d, rest, post, hsplit, hd, rfl, ?_, hcost⟩
      rcases decoded_cases i.ctx.rev d with ⟨-, hundefined, -⟩ | ⟨op, hop, -, himpl, -⟩
      · rw [hundefined] at hfn
        injection hfn with hfn
        subst hfn
        cases hcorrects
      · rw [himpl] at hfn
        injection hfn with hfn
        subst hfn
        rw [corrects_instructionImplementations] at hcorrects
        rw [← harg, argOf_of_readsGas hop hcorrects]

theorem defined_of_callBounded {i : Invocation σ} (hsize : i.ctx.code.bytes.length < 2 ^ 30)
    (hfit : BlockCostsFit i.ctx.rev i.ctx.code.bytes) (hhost : i.env.host.CallBounded)
    (h0 : 0 ≤ i.ctx.msg.gas) (h63 : i.ctx.msg.gas < 2 ^ 63) {s : AdvancedExecutionState σ}
    (hreaches : StateTransition.Reaches (step i.env (analysisOf i)) (start i) (.running ip s)) :
    s.ghost.overflow = false := by
  have hvalid := blockValid_of_reaches (premises_metered h0 h63) (fun _ => hfit) hsize hreaches
  obtain ⟨hs, -, -⟩ := hvalid.resolve_left fun h => not_derailed_of_callBounded hhost h0 h.2
  exact (hs.follows.gas trivial).2

/-- An entry other than a BEGINBLOCK stays in the block. -/
theorem currentBlockCost_of_step {s s' : AdvancedExecutionState σ} {ip' : Nat} {fn : ExecFn}
    {arg : Argument} (hinstr : analysis.instrs[ip]? = some ⟨some fn, arg⟩)
    (hne : fn ≠ .opxBeginblock)
    (h : step env analysis (.running ip s) = some (.running ip' s')) :
    s'.currentBlockCost = s.currentBlockCost := by
  rcases step_inv h with ⟨f, hfault, -⟩ | ⟨info, hbegin, -⟩ | ⟨fn', arg', -, -, hresult⟩
  · cases hfault
  · rw [hinstr] at hbegin
    injection hbegin with hbegin
    injection hbegin with hfn
    injection hfn with hfn
    exact absurd hfn hne
  · cases hrun : (exec analysis s.currentBlockCost s.toContext fn' arg' ip).run env
        s.toExecutionState with
    | exit | fault =>
        rw [hrun] at hresult
        cases hresult
    | ok =>
        rw [hrun] at hresult
        injection hresult with _ hs
        rw [hs]

theorem inBlockOf_start (i : Invocation σ) :
    InBlockOf (analysisOf i) (start i, Ledger.start i) := by
  have hsplit : blocksOf (decode i.ctx.code.bytes) =
      [] ++ (cutBlocks (decode i.ctx.code.bytes)).1 ::
        (cutBlocks (decode i.ctx.code.bytes)).2 := rfl
  exact .inl ⟨_, @getElem?_instrs_of_append i.ctx.rev _ _ _ _ hsplit⟩

theorem balanced_start (i : Invocation σ) : Balanced (start i, Ledger.start i) := by
  intro _
  show i.ctx.msg.gas = i.ctx.msg.gas - ((0 : Nat) : Int) - 0
  omega

theorem balanced_of_reaches {i : Invocation σ} {x : Config (AdvancedExecutionState σ) × Ledger}
    (h : StateTransition.Reaches
      (recorded (step i.env (analysisOf i)) (Ledger.note i.env (analysisOf i)))
      (start i, Ledger.start i) x) : Balanced x :=
  invariant_of_reaches (fun _ _ => balanced_step) h (balanced_start i)

/-- When an entry with corrected gas is about to be executed, the corrected gas is the gas at the
entry of the block less the base costs up to this instruction and the dynamic costs since; the
correction is the base costs of the rest of the block; and if the run goes on, the gas left is again
net of the base cost of the whole block. No computation overflows if the host returns no more gas
than it was given. -/
theorem gas_correction_invariant (i : Invocation σ) (hsize : i.ctx.code.bytes.length < 2 ^ 30)
    (hfit : BlockCostsFit i.ctx.rev i.ctx.code.bytes) {ip : Nat} {s : AdvancedExecutionState σ}
    {l : Ledger}
    (hreaches : StateTransition.Reaches
      (recorded (step i.env (analysisOf i)) (Ledger.note i.env (analysisOf i)))
      (start i, Ledger.start i) (.running ip s, l))
    {fn : ExecFn} {arg : Argument} (hinstr : (analysisOf i).instrs[ip]? = some ⟨some fn, arg⟩)
    (hcorrects : fn.corrects = true) :
    (i.env.host.CallBounded → 0 ≤ i.ctx.msg.gas → i.ctx.msg.gas < 2 ^ 63 →
      s.ghost.overflow = false) ∧
    ∃ closed done d rest post number,
      blocksOf (decode i.ctx.code.bytes) = closed ++ (done ++ d :: rest) :: post ∧
      ip = (tableOf i.ctx.rev 0 closed).length + 1 + (entriesOf i.ctx.rev 0 0 done).length ∧
      l.block = (tableOf i.ctx.rev 0 closed).length ∧ arg = .number number ∧
      (s.ghost.overflow = false → s.gasLeft + (s.currentBlockCost - number) =
        l.entryGas - baseCost i.ctx.rev (done ++ [d]) - l.dynamicCosts) ∧
      0 ≤ s.currentBlockCost - number ∧ s.currentBlockCost - number = baseCost i.ctx.rev rest ∧
      ∀ ip' s', step i.env (analysisOf i) (.running ip s) = some (.running ip' s') →
        s'.ghost.overflow = false →
        s'.gasLeft = l.entryGas - baseCost i.ctx.rev (done ++ d :: rest) -
          (l.dynamicCosts + dynamicCost i.env (analysisOf i) fn arg ip s) := by
  have hrun := reaches_of_recorded hreaches
  have hblock : InBlockOf (analysisOf i) (.running ip s, l) :=
    invariant_of_reaches (fun _ _ => inBlockOf_step hsize) hreaches (inBlockOf_start i)
  have hne : fn ≠ .opxBeginblock := by
    rintro rfl
    cases hcorrects
  refine ⟨fun hhost h0 h63 => defined_of_callBounded hsize hfit hhost h0 h63 hrun, ?_⟩
  obtain ⟨closed, done, d, rest, post, hsplit, hd, rfl, rfl, hcost⟩ :=
    located_of_corrects hsize hrun hinstr hcorrects
  have hsum : baseCost i.ctx.rev (done ++ d :: rest) =
      baseCost i.ctx.rev (done ++ [d]) + baseCost i.ctx.rev rest := by
    rw [← baseCost_append, List.append_assoc]
    rfl
  have hle := hfit (done ++ d :: rest) (by rw [hsplit]; simp)
  have hrest := baseCost_nonneg i.ctx.rev rest
  refine ⟨closed, done, d, rest, post, _, hsplit, rfl, block_eq_of_inBlockOf hsplit hd hblock, rfl,
    fun hdefined => ?_, by omega, by omega, fun ip' s' hstep hdefined => ?_⟩
  · have hgas : s.gasLeft = l.entryGas - s.currentBlockCost - l.dynamicCosts :=
      balanced_of_reaches hreaches hdefined
    omega
  · -- The next configuration is in the ledger too, and still in the block.
    have hnext := balanced_of_reaches (hreaches.tail (recorded_eq_some.2 ⟨hstep, rfl⟩)) hdefined
    rw [note_of_ne hinstr hne, currentBlockCost_of_step hinstr hne hstep] at hnext
    dsimp only at hnext
    omega

/-- A GAS, as the whole code. -/
def onlyGas : Invocation Unit := simpleInvocation .berlin ⟨[Opcode.gas.toByte], by norm_num⟩ 100 0

theorem blocksOf_onlyGas : blocksOf (decode onlyGas.ctx.code.bytes) =
    [] ++ ([] ++ instructionAt onlyGas.ctx.code.bytes 0 Opcode.gas.toByte :: []) :: [] := by
  rw [decode, decodeFrom_of_some rfl, decodeFrom_of_le (by decide)]
  rfl

theorem gas_correction_invariant_onlyGas :
    ∃ s l, StateTransition.Reaches
        (recorded (step onlyGas.env (analysisOf onlyGas))
          (Ledger.note onlyGas.env (analysisOf onlyGas)))
        (start onlyGas, Ledger.start onlyGas) (.running 1 s, l) ∧
      (analysisOf onlyGas).instrs[1]? = some ⟨some .opGas, .number 2⟩ ∧
      ∃ closed done d rest post,
        blocksOf (decode onlyGas.ctx.code.bytes) = closed ++ (done ++ d :: rest) :: post ∧
        s.gasLeft + (s.currentBlockCost - 2) =
          l.entryGas - baseCost .berlin (done ++ [d]) - l.dynamicCosts := by
  have hbegin : (analysisOf onlyGas).instrs[0]? = _ :=
    @getElem?_instrs_of_append .berlin _ _ _ _ blocksOf_onlyGas
  have hinstr : (analysisOf onlyGas).instrs[1]? = some ⟨some .opGas, .number 2⟩ :=
    @getElem?_instrs_inBlock .berlin _ _ _ _ _ _ blocksOf_onlyGas (by decide)
  have hstep : ∃ s, step onlyGas.env (analysisOf onlyGas) (start onlyGas) =
      some (.running 1 s) := by
    refine ⟨⟨onlyGas.newState.setGas (100 - 2), 2⟩, ?_⟩
    simp only [step, start, hbegin]
    rfl
  obtain ⟨s, hstep⟩ := hstep
  have hrun : StateTransition.Reaches (step onlyGas.env (analysisOf onlyGas)) (start onlyGas)
      (.running 1 s) := .single hstep
  obtain ⟨l, hreaches⟩ := exists_recorded hrun (Ledger.start onlyGas)
  obtain ⟨hdefined, closed, done, d, rest, post, number, hsplit, -, -, harg, hgas, -⟩ :=
    gas_correction_invariant onlyGas (by decide) (blockCostsFit_of_length _ (by decide)) hreaches
      hinstr rfl
  obtain rfl : (2 : Int) = number := by injection harg
  exact ⟨s, l, hreaches, hinstr, closed, done, d, rest, post, hsplit,
    hgas (hdefined emptyHost_callBounded (by decide) (by decide))⟩

end Advanced

end Ivmone
