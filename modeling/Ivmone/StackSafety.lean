import Ivmone.AdvancedRuns
import Ivmone.StackFrame

/-!
# Stack safety

`Stack` checks nothing. Baseline checks the height of the stack before every instruction and
Advanced once for every block; either check is enough, as every implementation stays within the
items that `instruction_traits.hpp` records for its opcode.
-/

set_option autoImplicit false

namespace Ivmone

open Lib

variable {σ : Type}

/-- The rules of an execution with any host and any gas. -/
def lenient : Rules where
  limit := 1024
  isStatic := False
  fits := False
  metered := False
  ceiling := 0
  ceiling_lt := by norm_num
  readsGas := True

theorem premises_lenient (i : Invocation σ) : Premises i lenient :=
  ⟨rfl, trivial, False.elim, False.elim, False.elim⟩

/-- An implementation of `op` in the state `s` touches no more than the required items: they are
there, no access leaves the stack, what it does is the same with anything below them, and when it
lets execution continue it has changed the height as recorded. -/
structure UsesTop (env : Env σ) (op : Opcode) (p : Exec Nat) (s : ExecutionState σ) : Prop where
  required : (instr.traits op).stackHeightRequired ≤ s.stack.height
  inside : p.run env s ≠ .fault .stack
  frame : ∀ (deep : List UInt256) (t : ExecutionState σ), Over deep s t →
    (instr.traits op).stackHeightRequired ≤ t.stack.height →
    Framed deep (p.run env s) (p.run env t)
  change : ∀ (pos : Nat) (s' : ExecutionState σ), p.run env s = .ok pos s' →
    (s'.stack.height : Int) = s.stack.height + (instr.traits op).stackHeightChange

/-- An implementation whose steps are known in every state that suits it. -/
theorem usesTop_of_steps {env : Env σ} {op : Opcode} {p : Exec Nat} {s : ExecutionState σ}
    (hs : Startable lenient s) (hsuits : Suits True op s)
    (hp : ∀ t : ExecutionState σ, t.toContext = s.toContext → Startable lenient t →
      Suits True op t → ∃ next anchor,
      StepsFrom env lenient True (instr.traits op).stackHeightChange next anchor t (p.run env t)) :
    UsesTop env op p s := by
  have hinside : ∀ t : ExecutionState σ, t.toContext = s.toContext → Startable lenient t →
      Suits True op t → ¬ Outside (p.run env t) := by
    intro t hctx ht hsuits' hout
    obtain ⟨next, anchor, hsteps⟩ := hp t hctx ht hsuits'
    rw [show p.run env t = .fault .stack from hout] at hsteps
    rcases hsteps with ⟨-, hnot⟩ | ⟨hf, -⟩ | hm
    · exact hnot trivial
    · cases hf
    · exact hm
  refine ⟨(hsuits trivial).1, hinside s rfl hs hsuits, fun deep t hover hreq => ?_,
    fun pos s' heq => ?_⟩
  · have hheight : s.stack.height = t.stack.height + deep.length := by
      rw [← Stack.length_items s.stack, hover.items, List.length_append, Stack.length_items]
    have hctx : t.toContext = s.toContext := by rw [hover.rest]
    have hstart : Startable lenient t := by
      obtain ⟨h1, h2, -⟩ := hs
      rw [hover.rest] at h1 h2
      exact ⟨h1, h2, False.elim⟩
    have hsuits' : Suits True op t := by
      intro _
      have := (hsuits trivial).2
      exact ⟨hreq, by omega⟩
    exact run_framed env p hover (hinside t hctx hstart hsuits') (hinside s rfl hs hsuits)
  · obtain ⟨next, anchor, hsteps⟩ := hp s rfl hs hsuits
    rw [heq] at hsteps
    rcases hsteps with ⟨hm, -⟩ | ⟨-, hcont⟩
    · exact hm.elim
    · exact hcont.height trivial

/-- The height of the stack is at most 1024 in every state of a configuration, and there is no fault
of a stack access. -/
def Config.StackInside {S : Type} (stack : S → Stack) (P : Nat → S → Prop) : Config S → Prop :=
  Config.Meets (fun pos s => (stack s).height ≤ 1024 ∧ P pos s) (fun s => (stack s).height ≤ 1024)
    (· ≠ .stack)

theorem not_stack_of_excused {f : Fault} (h : Excused lenient True f) : f = .memory := by
  rcases h with ⟨-, hnot⟩ | ⟨hf, -⟩ | hm
  · exact absurd trivial hnot
  · exact hf
  · exact hm.elim

/-- What Baseline has established when it dispatches an instruction. -/
def Baseline.DispatchesSafely (i : Invocation σ) (pos : Nat) (s : ExecutionState σ) : Prop :=
  ∀ op, Baseline.Fetched i.ctx.code.bytes pos op →
    (Baseline.checkRequirements s op.toByte).1 = .success →
    UsesTop i.env op
      (Baseline.invoke (Baseline.op2fn op) (Baseline.analysisOf i) s.toContext pos)
      (Baseline.checkRequirements s op.toByte).2

/-- What Advanced has established when it calls the function of an entry: the entry is a BEGINBLOCK,
or that of an undefined instruction, or that of the instruction `op`. -/
def Advanced.DispatchesSafely (i : Invocation σ) (ip : Nat)
    (s : Advanced.AdvancedExecutionState σ) : Prop :=
  ∃ instr, (Advanced.analysisOf i).instrs[ip]? = some instr ∧
    (instr.fn = some .opxBeginblock ∨ instr.fn = some .opUndefined ∨
      ∃ op, instr.fn = (Advanced.opTable i.ctx.rev op.toByte).fn ∧
        instr.fn = some (Advanced.instructionImplementations op) ∧
        UsesTop i.env op
          (Advanced.exec (Advanced.analysisOf i) s.currentBlockCost s.toContext
            (Advanced.instructionImplementations op) instr.arg ip)
          s.toExecutionState)

theorem Baseline.dispatchesSafely {i : Invocation σ} {pos : Nat} {s : ExecutionState σ}
    (harrives : Arrives i.ctx.code.bytes 0 pos) (hs : Running i lenient s) :
    Baseline.DispatchesSafely i pos s := by
  intro op hfetched hsuccess
  rcases Baseline.checkRequirements_cases s op.toByte with ⟨status, s', hcheck, hstatus, -⟩ |
    ⟨op', hop, hne, hcheck, hgas, hsuits⟩
  · rw [hcheck] at hsuccess
    exact absurd (.inl hsuccess) hstatus
  · rw [ofByte_toByte] at hop
    injection hop with hop
    subst hop
    obtain ⟨h0, h1⟩ := instr.gasCosts_range hne
    have hs' := hs.setGas h0 (by omega) hgas
    rw [hcheck]
    refine usesTop_of_steps hs'.startable hsuits fun t hctx ht hsuits' => ?_
    have hctx' : s.toContext = t.toContext := hctx.symm
    rw [hctx']
    exact ⟨_, _, Baseline.invoke_steps rfl trivial False.elim False.elim
      i.ctx.code.size_lt ht hsuits' harrives hfetched⟩

/-- The function of the entry of a decoded instruction. -/
theorem Advanced.usesTop_exec {env : Env σ} {analysis : Advanced.AdvancedCodeAnalysis}
    {s : ExecutionState σ} {op : Opcode} {d : Decoded} {k : Nat} (hs : Startable lenient s)
    (hsuits : Suits True op s) (hop : Opcode.ofByte d.opcode = some op) (hjumpdest : op ≠ .jumpdest)
    (hvalue : Advanced.PushValueAt analysis.pushValues k d) (cost : Nat) (gas : Int) (ip : Nat) :
    UsesTop env op
      (Advanced.exec analysis cost s.toContext (Advanced.instructionImplementations op)
        (Advanced.argOf gas k d) ip) s := by
  refine usesTop_of_steps hs hsuits fun t hctx ht hsuits' => ?_
  have hcorrect : Advanced.Correctable lenient t cost gas :=
    ⟨False.elim, False.elim, False.elim, False.elim⟩
  rw [← hctx]
  exact ⟨_, s, Advanced.exec_steps rfl trivial False.elim False.elim hop hjumpdest hvalue ht hsuits'
    hcorrect False.elim⟩

theorem Advanced.dispatchesSafely {i : Invocation σ} {ip : Nat}
    {s : Advanced.AdvancedExecutionState σ} (hs : Running i lenient s.toExecutionState)
    (hloc : Advanced.Located i.ctx.rev i.ctx.code.bytes ip s.currentBlockCost s.stack.height) :
    Advanced.DispatchesSafely i ip s := by
  generalize hcur : s.currentBlockCost = cost at hloc
  generalize hheight : s.stack.height = height at hloc
  cases hloc with
  | atBlock hsplit => exact ⟨_, Advanced.getElem?_instrs_of_append hsplit, .inl rfl⟩
  | @inBlock closed done d rest post _ _ hsplit hd hcost hrequired hgrowth =>
      subst hcur hheight
      refine ⟨_, Advanced.getElem?_instrs_inBlock hsplit hd, .inr ?_⟩
      rcases Advanced.decoded_cases i.ctx.rev d with ⟨-, hfn, -⟩ |
        ⟨op, hop, hdef, hfn, -, hreq, hchange⟩
      · exact .inl hfn
      · have hbyte := toByte_of_ofByte hop
        have hjumpdest : op ≠ .jumpdest := fun h => hd (by rw [hbyte, h])
        have hsuits : Suits True op s.toExecutionState := by
          rw [Suits, ← hreq, ← hchange]
          exact fun _ => Advanced.suits_of_required _ hrequired hgrowth
        refine .inr ⟨op, by rw [hbyte], hfn, ?_⟩
        exact Advanced.usesTop_exec hs.startable hsuits hop hjumpdest
          (Advanced.pushValueAt_inBlock hsplit) _ _ _
  | atEnd =>
      refine ⟨_, Advanced.getElem?_instrs_end, .inr (.inr ⟨.stop, ?_, rfl, ?_⟩)⟩
      · exact (Advanced.opTable_stop _).symm
      · have hsuits : Suits True .stop s.toExecutionState := fun _ =>
          ⟨Int.natCast_nonneg _, by have := s.stack.height_le; simp [instr.traits]; omega⟩
        exact Advanced.usesTop_exec (d := ⟨0, Opcode.stop.toByte, []⟩) (k := 0) hs.startable hsuits
          rfl (by decide) (fun v hv => by cases hv) _ 0 _

/-- Stack safety of both interpreters, for every code of less than `2 ^ 30` bytes, message and host:
in every configuration of a run the height of the stack is at most 1024 and no access has left the
stack, and every instruction that is dispatched stays within the items recorded for its opcode. -/
theorem stack_safety (i : Invocation σ) (hsize : i.ctx.code.bytes.length < 2 ^ 30) :
    (∀ c, StateTransition.Reaches (Baseline.step i.env (Baseline.analysisOf i))
      (Baseline.start i) c → c.StackInside (fun s => s.stack) (Baseline.DispatchesSafely i)) ∧
    (∀ c, StateTransition.Reaches (Advanced.step i.env (Advanced.analysisOf i))
      (Advanced.start i) c → c.StackInside (fun s => s.stack) (Advanced.DispatchesSafely i)) := by
  constructor
  · intro c hc
    have hvalid := Baseline.valid_of_reaches (premises_lenient i) hc
    cases c with
    | running pos s =>
        obtain ⟨harrives, hs⟩ := hvalid.resolve_left fun h => h.1
        exact ⟨s.stack.height_le, Baseline.dispatchesSafely harrives hs⟩
    | halted s => exact s.stack.height_le
    | fault f =>
        intro hf
        have hmem := not_stack_of_excused hvalid
        rw [hf] at hmem
        cases hmem
  · intro c hc
    have hvalid := Advanced.blockValid_of_reaches (premises_lenient i) False.elim hsize hc
    cases c with
    | running ip s =>
        obtain ⟨hs, -, hloc⟩ := hvalid.resolve_left fun h => h.1
        exact ⟨s.stack.height_le, Advanced.dispatchesSafely hs hloc⟩
    | halted s => exact s.stack.height_le
    | fault f =>
        intro hf
        have hmem := not_stack_of_excused hvalid
        rw [hf] at hmem
        cases hmem

theorem stack_safety_truncatedPush :
    (Baseline.start truncatedPush).StackInside (fun s => s.stack)
        (Baseline.DispatchesSafely truncatedPush) ∧
      (Advanced.start truncatedPush).StackInside (fun s => s.stack)
        (Advanced.DispatchesSafely truncatedPush) := by
  have h := stack_safety truncatedPush (by decide)
  exact ⟨h.1 _ Relation.ReflTransGen.refl, h.2 _ Relation.ReflTransGen.refl⟩

end Ivmone
