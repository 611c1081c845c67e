import Ivmone.StackSafety

/-!
# Code positions and instruction pointers

Neither loop checks where it reads the next instruction. Baseline stays at the instructions of the
code or at the STOP its analysis has written at the end of the padded code; Advanced stays in the
instruction table, whose shape is that of the basic blocks of the code.
-/

set_option autoImplicit false

namespace Ivmone

open Lib

variable {σ : Type}

/-! ## Baseline -/

/-- Where the code iterator may point: to an instruction of the code, which is what is read there,
or to the STOP at the end of the buffer; and the data of a PUSH is within the buffer. -/
structure Baseline.PositionSafe (code : List Byte) (padded : List Byte) (pos : Nat) : Prop where
  start : (IsStart code pos ∧ padded[pos]? = code[pos]?) ∨
    (pos + 1 = padded.length ∧ padded[pos]? = some Opcode.stop.toByte)
  fetch : pos < padded.length
  data : ∀ (b : Byte) (n : Fin 32), padded[pos]? = some b → Opcode.ofByte b = some (.push n) →
    pos + 1 + (n.val + 1) ≤ padded.length

theorem Baseline.positionSafe {code : List Byte} (uninit : Nat → Byte) {pos : Nat}
    (h : Arrives code 0 pos) :
    Baseline.PositionSafe code (Baseline.analyze uninit code).paddedCode pos := by
  have hlength := Baseline.length_paddedCode uninit code
  have hend := Baseline.le_codeEnd h
  by_cases hlt : pos < code.length
  · refine ⟨.inl ⟨⟨h, hlt⟩, Baseline.getElem?_paddedCode_of_lt uninit code hlt⟩, by omega, ?_⟩
    intro b n hb hop
    rw [Baseline.getElem?_paddedCode_of_lt uninit code hlt] at hb
    exact Nat.le_of_lt (Baseline.push_data_in_code h hb hop)
  · have hpos := Baseline.eq_codeEnd h (Nat.le_of_not_lt hlt)
    have hstop : (Baseline.analyze uninit code).paddedCode[pos]? = some Opcode.stop.toByte := by
      rw [hpos, Baseline.getElem?_paddedCode_codeEnd]
    refine ⟨.inr ⟨by omega, hstop⟩, by omega, ?_⟩
    intro b n hb hop
    rw [hstop] at hb
    injection hb with hb
    rw [← hb, ofByte_toByte] at hop
    cases hop

/-- In every run of Baseline the code iterator is at an instruction of the code or at the final
STOP, every read of code is within the allocated bytes, and the `default` case is never taken. -/
theorem code_position_safety (i : Invocation σ) {c : Config (ExecutionState σ)}
    (h : StateTransition.Reaches (Baseline.step i.env (Baseline.analysisOf i))
      (Baseline.start i) c) :
    (Baseline.analysisOf i).paddedCode.length =
      (Baseline.scan i.ctx.code.bytes 0 (List.replicate i.ctx.code.bytes.length false)).1 + 1 ∧
    c.Meets
      (fun pos _ =>
        Baseline.PositionSafe i.ctx.code.bytes (Baseline.analysisOf i).paddedCode pos)
      (fun _ => True) (fun f => f ≠ .codePosition ∧ f ≠ .unreachable) := by
  have hvalid := Baseline.valid_of_reaches (premises_lenient i) h
  refine ⟨Baseline.length_paddedCode i.uninitCode i.ctx.code.bytes, ?_⟩
  cases c with
  | running pos s =>
      obtain ⟨harrives, -⟩ := hvalid.resolve_left fun h => h.1
      exact Baseline.positionSafe i.uninitCode harrives
  | halted s => trivial
  | fault f =>
      have hmem := not_stack_of_excused hvalid
      subst hmem
      exact ⟨by decide, by decide⟩

/-- The data of the truncated PUSH1 is read from the buffer, which ends with a STOP after it. -/
theorem code_position_safety_truncatedPush :
    Baseline.PositionSafe truncatedPush.ctx.code.bytes
      (Baseline.analysisOf truncatedPush).paddedCode 0 := by
  have h := (code_position_safety truncatedPush
    (c := Baseline.start truncatedPush) Relation.ReflTransGen.refl).2
  rw [Baseline.start_eq] at h
  exact h

/-! ## Advanced -/

namespace Advanced

/-- An entry is a BEGINBLOCK. -/
def Instruction.IsBeginblock (instr : Instruction) : Prop :=
  ∃ info, instr = { fn := some .opxBeginblock, arg := .block info }

end Advanced

end Ivmone
