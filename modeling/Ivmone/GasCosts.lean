import Ivmone.OpcodeSafety

/-!
# Facts about the gas cost tables

Base costs are small and not negative, and the few instructions without a base cost either end the
execution or need items on the stack. Each table inherits these facts from the one before it.
-/

set_option autoImplicit false

namespace Ivmone.instr

/-- The instructions that may have no base cost. -/
def isFree : Opcode → Bool
  | .stop | .sstore | .return_ | .revert | .invalid | .selfdestruct => true
  | _ => false

/-- The cost of an opcode is undefined, or small and only 0 for the instructions that may be
free. -/
def CostOK (op : Opcode) (cost : Int) : Prop :=
  cost = undefined ∨ (0 ≤ cost ∧ cost ≤ 32000 ∧ (cost = 0 → isFree op = true))

instance (op : Opcode) (cost : Int) : Decidable (CostOK op cost) :=
  inferInstanceAs (Decidable (_ ∨ _))

theorem CostOK.of_pos {op : Opcode} {cost : Int} (h1 : 1 ≤ cost) (h2 : cost ≤ 32000) :
    CostOK op cost := .inr ⟨by omega, h2, fun h => by omega⟩

theorem costOK_frontier (op : Opcode) : CostOK op (gasCostsFrontier op) := by
  cases op with
  | log n =>
      simp only [gasCostsFrontier]
      exact .of_pos (by omega) (by omega)
  | push n | dup n | swap n =>
      exact .of_pos (by simp [gasCostsFrontier]) (by simp [gasCostsFrontier])
  | _ => decide

theorem costOK_homestead (op : Opcode) : CostOK op (gasCostsHomestead op) := by
  unfold gasCostsHomestead
  split
  · decide
  · exact costOK_frontier op

theorem costOK_tangerineWhistle (op : Opcode) : CostOK op (gasCostsTangerineWhistle op) := by
  unfold gasCostsTangerineWhistle
  split
  all_goals first | decide | exact costOK_homestead op

theorem costOK_byzantium (op : Opcode) : CostOK op (gasCostsByzantium op) := by
  unfold gasCostsByzantium
  split
  all_goals first | decide | exact costOK_tangerineWhistle op

theorem costOK_constantinople (op : Opcode) : CostOK op (gasCostsConstantinople op) := by
  unfold gasCostsConstantinople
  split
  all_goals first | decide | exact costOK_byzantium op

theorem costOK_istanbul (op : Opcode) : CostOK op (gasCostsIstanbul op) := by
  unfold gasCostsIstanbul
  split
  all_goals first | decide | exact costOK_constantinople op

theorem costOK_berlin (op : Opcode) : CostOK op (gasCostsBerlin op) := by
  unfold gasCostsBerlin
  split
  all_goals first | decide | exact costOK_istanbul op

theorem costOK_london (op : Opcode) : CostOK op (gasCostsLondon op) := by
  unfold gasCostsLondon
  split
  · decide
  · exact costOK_berlin op

theorem costOK (rev : Revision) (op : Opcode) : CostOK op (gasCosts rev op) := by
  cases rev with
  | frontier => exact costOK_frontier op
  | homestead => exact costOK_homestead op
  | tangerineWhistle | spuriousDragon => exact costOK_tangerineWhistle op
  | byzantium => exact costOK_byzantium op
  | constantinople | petersburg => exact costOK_constantinople op
  | istanbul => exact costOK_istanbul op
  | berlin => exact costOK_berlin op
  | london | shanghai => exact costOK_london op

/-- A byte with a defined cost is an opcode. -/
theorem exists_opcode {rev : Revision} {b : Byte} (h : gasCost rev b ≠ undefined) :
    ∃ op, Opcode.ofByte b = some op ∧ gasCost rev b = gasCosts rev op ∧
      gasCosts rev op ≠ undefined := by
  unfold gasCost at h ⊢
  cases hop : Opcode.ofByte b with
  | none =>
      rw [hop] at h
      exact absurd rfl h
  | some op =>
      rw [hop] at h
      exact ⟨op, rfl, rfl, h⟩

theorem gasCost_of_ofByte {rev : Revision} {b : Byte} {op : Opcode}
    (h : Opcode.ofByte b = some op) :
    gasCost rev b = gasCosts rev op := by
  unfold gasCost
  rw [h]
  rfl

theorem traitsOf_of_ofByte {b : Byte} {op : Opcode} (h : Opcode.ofByte b = some op) :
    traitsOf b = traits op := by
  unfold traitsOf
  rw [h]
  rfl

theorem gasCosts_range {rev : Revision} {op : Opcode} (h : gasCosts rev op ≠ undefined) :
    0 ≤ gasCosts rev op ∧ gasCosts rev op ≤ 32000 := by
  rcases costOK rev op with hu | ⟨h0, h1, -⟩
  · exact absurd hu h
  · exact ⟨h0, h1⟩

/-- Every basic instruction that needs no items on the stack has a cost. -/
theorem gasCosts_pos {rev : Revision} {op : Opcode} (h : gasCosts rev op ≠ undefined)
    (hfree : isFree op = false) : 1 ≤ gasCosts rev op := by
  rcases costOK rev op with hu | ⟨h0, -, h1⟩
  · exact absurd hu h
  · by_contra hlt
    have hz := h1 (by omega)
    rw [hfree] at hz
    cases hz

end Ivmone.instr
