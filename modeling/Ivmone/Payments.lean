import Ivmone.CallRuns
import Ivmone.Soundness

/-!
# Payments

Operations that pay lower the gas left and never go below 0 unless they leave the implementation.
What an execution has is the gas left together with what its memory has cost; growing the memory
turns one into the other, and everything else lowers the sum.
-/

set_option autoImplicit false

namespace Ivmone

open Lib Lib.Program Instructions

variable {σ : Type} {env : Env σ} {ctx : Context} {s s' t : ExecutionState σ}

/-- The gas left and the gas the memory has cost. -/
def ExecutionState.funds (s : ExecutionState σ) : Int := s.gasLeft + memoryCost (s.memory.size / 32)

/-- Gas was paid between two states. -/
structure Spent (s s' : ExecutionState σ) : Prop where
  nonneg : 0 ≤ s'.gasLeft
  le : s'.gasLeft ≤ s.gasLeft
  funds : s'.funds ≤ s.funds
  overflow : s'.ghost.overflow = s.ghost.overflow

theorem Spent.refl (h : 0 ≤ s.gasLeft) : Spent s s := ⟨h, le_rfl, le_rfl, rfl⟩

theorem Spent.trans (h : Spent s s') (h' : Spent s' t) : Spent s t :=
  ⟨h'.nonneg, h'.le.trans h.le, h'.funds.trans h.funds, h'.overflow.trans h.overflow⟩

/-- Only the gas, the size of the memory and the overflow flag matter. -/
theorem Spent.congr (h : Spent s s') (hgas : t.gasLeft = s'.gasLeft)
    (hmemory : t.memory.size = s'.memory.size) (hoverflow : t.ghost.overflow = s'.ghost.overflow) :
    Spent s t where
  nonneg := hgas ▸ h.nonneg
  le := hgas ▸ h.le
  funds := by
    have hfunds := h.funds
    unfold ExecutionState.funds at *
    rwa [hgas, hmemory]
  overflow := hoverflow.trans h.overflow

/-! ## One operation -/

/-- The gas left does not overflow when a cost is subtracted. -/
theorem setGas_of_cost {cost : Int} (h0 : 0 ≤ s.gasLeft) (h63 : s.gasLeft < 2 ^ 63)
    (hcost : 0 ≤ cost) (hlt : cost < 2 ^ 62) :
    s.setGas (s.gasLeft - cost) = { s with gasLeft := s.gasLeft - cost } := by
  have hin : InInt64 (s.gasLeft - cost) := ⟨by omega, by omega⟩
  unfold ExecutionState.setGas
  rw [toInt64_of_inInt64 hin, decide_eq_true hin, Bool.not_true, Bool.or_false]

/-- The cost of growing a memory is the difference of what the two memories cost. -/
theorem memoryCost_grown (size : Nat) {newSize : Nat} (hle : newSize ≤ 2 ^ 33) :
    memoryCost ((32 * ((newSize + 31) / 32) : Nat) / 32) =
      memoryCost (size / 32) + growthCost size newSize := by
  have hwords : ((32 * ((newSize + 31) / 32) : Nat) : Int) / 32 = numWords newSize := by
    rw [numWords_eq hle]
    omega
  rw [hwords, growthCost]
  omega

theorem handle_pays (env : Env σ) {o : Op} (ho : o.Pays) (h : Spent s s')
    (h63 : s.gasLeft < 2 ^ 63) :
    (handle env o s').Meets (fun _ t => Spent s t)
      (fun _ t => t.ghost.overflow = s.ghost.overflow) fun _ => True := by
  have hlt : s'.gasLeft < 2 ^ 63 := lt_of_le_of_lt h.le h63
  have hge : 0 ≤ s'.gasLeft := h.nonneg
  cases o with
  | setGasLeft | int64 => exact ho.elim
  | pop | push | peek | poke | load =>
      simp only [handle]
      split
      · exact h.congr rfl rfl rfl
      · trivial
  | store offset bytes =>
      simp only [handle]
      split
      · rename_i memory hstore
        exact h.congr rfl (Memory.size_of_store? hstore) rfl
      · trivial
  | charge cost =>
      obtain ⟨hcost, hcost'⟩ := ho
      have hin : InInt64 cost := ⟨by omega, by omega⟩
      simp only [handle]
      rw [noteInt64_of_inInt64 hin, setGas_of_cost hge hlt hcost hcost']
      split
      · exact h.overflow
      · rename_i hpos
        -- the charge is not negative, so it only takes from the funds
        have hpaid : Spent s' { s' with gasLeft := s'.gasLeft - cost } := by
          refine ⟨Int.not_lt.1 hpos, ?_, ?_, rfl⟩
          · show s'.gasLeft - cost ≤ s'.gasLeft
            omega
          · show s'.gasLeft - cost + memoryCost (s'.memory.size / 32) ≤ s'.funds
            unfold ExecutionState.funds
            omega
        exact h.trans hpaid
  | checkMemory offset size =>
      have hsize : ∀ n, size = .u64 n → n ≤ maxBufferSize := by
        rintro n rfl
        exact ho
      have hcheck := handle_checkMemory env s' offset size hsize
      generalize handle env (.checkMemory offset size) s' = r at hcheck
      cases hcheck with
      | rejected hend => exact h.overflow
      | covered newSize hend hle => exact h.congr rfl rfl rfl
      | unpaid newSize hend hlt' hgas =>
          obtain ⟨h0, h62⟩ := growthCost_bounds hlt' (regionEnd_le hsize hend)
          rw [setGas_of_cost hge hlt h0 h62]
          exact h.overflow
      | grown newSize m hend hlt' hgas hm hbytes =>
          have hle := regionEnd_le hsize hend
          obtain ⟨h0, h62⟩ := growthCost_bounds hlt' hle
          rw [toInt64_of_inInt64 ⟨by omega, by omega⟩] at hgas
          rw [setGas_of_cost hge hlt h0 h62]
          have hpaid : Spent s' { s' with
              gasLeft := s'.gasLeft - growthCost s'.memory.size newSize
              memory := m } := by
            refine ⟨hgas, ?_, ?_, rfl⟩
            · show s'.gasLeft - _ ≤ s'.gasLeft
              omega
            · show s'.gasLeft - growthCost s'.memory.size newSize + memoryCost (m.size / 32) ≤
                s'.gasLeft + memoryCost (s'.memory.size / 32)
              -- the growth is charged at exactly what it adds to the memory's worth
              rw [hm, memoryCost_grown s'.memory.size hle]
              omega
          exact (h.trans hpaid).congr rfl rfl rfl
  | fault f => trivial
  | exit status => exact h.overflow
  | _ => exact h.congr rfl rfl rfl

theorem run_pays (env : Env σ) {α : Type} {p : Exec α} (hp : p.Uses Op.Pays) (h0 : 0 ≤ s.gasLeft)
    (h63 : s.gasLeft < 2 ^ 63) :
    (p.run env s).Meets (fun _ t => Spent s t)
      (fun _ t => t.ghost.overflow = s.ghost.overflow) fun _ => True :=
  run_of_uses (fun _ _ ho hs' => handle_pays env ho hs' h63) hp (.refl h0)

/-! ## The payments of calls and creations -/

theorem charge_ok {cost : Int} (h0 : 0 ≤ s.gasLeft) (h63 : s.gasLeft < 2 ^ 63) (hcost : 0 ≤ cost)
    (hlt : cost < 2 ^ 62) (h : (Exec.charge cost).run env s = .ok () t) :
    cost ≤ s.gasLeft ∧ t = { s with gasLeft := s.gasLeft - cost } := by
  have hin : InInt64 cost := ⟨by omega, by omega⟩
  rw [Exec.run, Exec.charge, Exec.perform, run_perform] at h
  simp only [handle] at h
  rw [noteInt64_of_inInt64 hin, setGas_of_cost h0 h63 hcost hlt] at h
  split at h
  · cases h
  · rename_i hpos
    have hpos' : 0 ≤ s.gasLeft - cost := Int.not_lt.1 hpos
    injection h with _ ht
    exact ⟨by omega, ht.symm⟩

/-- After the payments of a call there is room for the stipend. -/
theorem payCall_ok {kind : CallKind} {isStatic : Bool} {x : CallOperands} (h0 : 0 ≤ s.gasLeft)
    (h63 : s.gasLeft < 2 ^ 63) (h : (payCall kind isStatic ctx).run env s = .ok x t) :
    Spent s t ∧ t.gasLeft + stipend x.value ≤ s.gasLeft ∧
      t.funds + stipend x.value ≤ s.funds := by
  rw [payCall, Exec.run, run_bind] at h
  obtain ⟨y, s1, hread, h⟩ := Outcome.bind_eq_ok h
  rw [run_bind] at h
  obtain ⟨cost, s2, hcost, h⟩ := Outcome.bind_eq_ok h
  rw [run_bind] at h
  obtain ⟨_, s3, hcharge, h⟩ := Outcome.bind_eq_ok h
  injection h with hx ht
  subst hx ht
  have h1 := run_pays env (pays_readCall kind isStatic ctx) h0 h63
  rw [Exec.run, hread] at h1
  have h2 := run_of_footprint (fun o s' ho hs' => handle_pays env ho hs' h63)
    (pays_callCost kind ctx y.dst (y.value != 0)) h1
  rw [hcost] at h2
  obtain ⟨h2, hnonneg, hle, hvalue⟩ := h2
  -- a call with a value pays 9000 for it, which covers the stipend of 2300
  have hstipend : stipend y.value ≤ cost := by
    unfold stipend
    split
    · exact hnonneg
    · rename_i hne
      have := hvalue (by simpa using hne)
      omega
  obtain ⟨hpaid, rfl⟩ := charge_ok h2.nonneg (lt_of_le_of_lt h2.le h63) hnonneg (by omega) hcharge
  have hgas := h2.le
  have hfunds := h2.funds
  unfold ExecutionState.funds at hfunds ⊢
  refine ⟨⟨?_, ?_, ?_, h2.overflow⟩, ?_, ?_⟩
  all_goals
    simp only [ExecutionState.funds]
    omega

theorem payCreate_ok {kind : CallKind} {x : CreateOperands} (h0 : 0 ≤ s.gasLeft)
    (h63 : s.gasLeft < 2 ^ 63) (h : (payCreate kind ctx).run env s = .ok x t) : Spent s t := by
  have hspent := run_pays env (pays_payCreate kind ctx) h0 h63
  rw [h] at hspent
  exact hspent

end Ivmone
