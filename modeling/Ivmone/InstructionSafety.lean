import Ivmone.Logic

/-!
# Specifications of the instruction implementations

Every implementation of `instructions.hpp` meets a `Spec` with the two numbers that
`instruction_traits.hpp` has for it: the stack items it requires and the height change it makes.
-/

set_option autoImplicit false

namespace Ivmone

open Lib Instructions

/-- An implementation may start here: the stack has the required items and room for the change, no
output has been set, and the gas counter is far from its lower limit. -/
structure Abs.Ready (rules : Rules) (required change : Int) (a : Abs) : Prop where
  required : required ≤ a.height
  room : a.height + change ≤ rules.limit
  outputSize : a.outputSize = 0
  gas : rules.metered → -2 ^ 62 ≤ a.gas ∧ a.gas ≤ rules.ceiling

/-- An implementation that started in `a` lets execution continue in `a'`. -/
structure Abs.Leads (rules : Rules) (change : Int) (a a' : Abs) : Prop where
  height : (a'.height : Int) = a.height + change
  memory : a.memory ≤ a'.memory
  outputSize : a'.outputSize = 0
  gas : Paid rules a.gas a'.gas

/-- The specification of an implementation. -/
def Spec {α : Type} (rules : Rules) (required change : Int) (p : Exec α) : Prop :=
  ∀ a : Abs, a.Ready rules required change →
    p.Sat (Safe rules) (fun _ a' => a.Leads rules change a') a

variable {ctx : Context} {rules : Rules}

/-! ## Gas -/

theorem Paid.refl (g : Int) : Paid rules g g := by
  intro _
  omega

theorem Paid.trans {g1 g2 g3 : Int} (h12 : Paid rules g1 g2) (h23 : Paid rules g2 g3) :
    Paid rules g1 g3 := by
  intro hm
  have h1 := h12 hm
  have h2 := h23 hm
  omega

/-- A charge that does not run out of gas. -/
theorem Paid.charge {g cost g' : Int} (hcost : 0 ≤ cost)
    (h : rules.metered → 0 ≤ g' ∧ g' = g - cost) : Paid rules g g' := by
  intro hm
  have h' := h hm
  omega

theorem Paid.range {g g' : Int} (h : Paid rules g g')
    (hg : rules.metered → -2 ^ 62 ≤ g ∧ g ≤ rules.ceiling) :
    rules.metered → -2 ^ 62 ≤ g' ∧ g' ≤ rules.ceiling := by
  intro hm
  have h1 := h hm
  have h2 := hg hm
  omega

theorem numWords_nonneg (n : Nat) : 0 ≤ numWords n := Int.natCast_nonneg _

theorem numWords_lt (n : Nat) : numWords n < 2 ^ 59 := by
  unfold numWords wordSize
  have h := Nat.mod_lt (n + (32 - 1)) (show 0 < 2 ^ 64 by norm_num)
  omega

/-- The cost of a number of words, at a price of at most 6 for each. -/
theorem wordCost_range (n : Nat) {price : Int} (h0 : 0 ≤ price) (h6 : price ≤ 6) :
    0 ≤ numWords n * price ∧ numWords n * price < 2 ^ 62 := by
  have h1 := numWords_nonneg n
  have h2 := numWords_lt n
  constructor
  · exact Int.mul_nonneg h1 h0
  · nlinarith

theorem Abs.Leads.trans {c1 c2 : Int} {a1 a2 a3 : Abs} (h12 : a1.Leads rules c1 a2)
    (h23 : a2.Leads rules c2 a3) : a1.Leads rules (c1 + c2) a3 where
  height := by rw [h23.height, h12.height, Int.add_assoc]
  memory := Nat.le_trans h12.memory h23.memory
  outputSize := h23.outputSize
  gas := h12.gas.trans h23.gas

/-- A part of an implementation that leaves the stack as it is may start wherever another part has
led to. -/
theorem Abs.Leads.ready {c : Int} {a a' : Abs} (h : a.Leads rules c a')
    (hroom : a.height + c ≤ rules.limit) (hgas : rules.metered → -2 ^ 62 ≤ a.gas ∧
      a.gas ≤ rules.ceiling) :
    a'.Ready rules 0 0 where
  required := Int.natCast_nonneg _
  room := by rw [h.height]; omega
  outputSize := h.outputSize
  gas := h.gas.range hgas

/-! ## Arithmetic and logic -/

theorem spec_popIntoTop (f : UInt256 → UInt256 → UInt256) : Spec rules 2 (-1) (popIntoTop f) := by
  rintro a ⟨hreq, hroom, hout, hgas⟩
  simp only [popIntoTop, Program.sat_bind, sat_pop, sat_top, sat_setTop]
  refine ⟨by omega, fun x => ⟨by omega, fun y => ⟨by omega, ?_⟩⟩⟩
  exact ⟨by simp only; omega, le_rfl, hout, Paid.refl _⟩

theorem spec_intoSecond (f : UInt256 → UInt256 → UInt256) : Spec rules 2 (-1) (intoSecond f) := by
  rintro a ⟨hreq, hroom, hout, hgas⟩
  simp only [intoSecond, Program.sat_bind, Program.sat_pure, sat_pop, sat_peek, sat_poke]
  refine ⟨by omega, fun x => ⟨by omega, fun y => ⟨by omega, by omega, fun _ => ?_⟩⟩⟩
  exact ⟨by simp only; omega, le_rfl, hout, Paid.refl _⟩

theorem spec_popTwoIntoTop (f : UInt256 → UInt256 → UInt256 → UInt256) :
    Spec rules 3 (-2) (popTwoIntoTop f) := by
  rintro a ⟨hreq, hroom, hout, hgas⟩
  simp only [popTwoIntoTop, Program.sat_bind, sat_pop, sat_top, sat_setTop]
  refine ⟨by omega, fun x => ⟨by omega, fun y => ⟨by omega, fun m => ⟨by omega, ?_⟩⟩⟩⟩
  exact ⟨by simp only; omega, le_rfl, hout, Paid.refl _⟩

theorem spec_mapTop (f : UInt256 → UInt256) : Spec rules 1 0 (mapTop f) := by
  rintro a ⟨hreq, hroom, hout, hgas⟩
  simp only [mapTop, Program.sat_bind, sat_top, sat_setTop]
  refine ⟨by omega, fun x => ⟨by omega, ?_⟩⟩
  exact ⟨by omega, le_rfl, hout, Paid.refl _⟩

theorem spec_exp : Spec rules 2 (-1) (exp ctx) := by
  rintro a ⟨hreq, hroom, hout, hgas⟩
  simp only [exp, Program.sat_bind, sat_pop, sat_top, sat_setTop, sat_charge]
  refine ⟨by omega, fun base => ⟨by omega, fun exponent => ?_⟩⟩
  have hbytes := exponent.countSignificantBytes_le
  have hcost : (0 : Int) ≤ exponent.countSignificantBytes *
      (if Revision.spuriousDragon ≤ ctx.rev then 50 else 10) := by
    split <;> omega
  refine ⟨⟨hcost, by split <;> omega⟩, hout, fun g hg => ⟨by omega, ?_⟩⟩
  exact ⟨by simp only; omega, le_rfl, hout, Paid.charge hcost hg⟩

theorem spec_keccak256 : Spec rules 2 (-1) (keccak256 ctx) := by
  rintro a ⟨hreq, hroom, hout, hgas⟩
  simp only [keccak256, Program.sat_bind, Program.sat_pure, Program.sat_ite, sat_pop, sat_top,
    sat_setTop, sat_checkMemory, sat_charge, sat_load, sat_keccak256]
  refine ⟨by omega, fun index => ⟨by omega, fun size => ⟨hout, fun m g hm hg hsize => ?_⟩⟩⟩
  have hcost := wordCost_range size.toSize (show (0 : Int) ≤ 6 by decide) (by decide)
  refine ⟨hcost, hout, fun g' hg' => ?_⟩
  have hleads : a.Leads rules (-1) ⟨a.height - 1, m, a.outputOffset, a.outputSize, g'⟩ :=
    ⟨by simp only; omega, hm, hout, hg.trans (Paid.charge hcost.1 hg')⟩
  refine ⟨fun hs => ⟨fun _ => hsize.end_le hs, fun _ _ _ => ⟨by omega, hleads⟩⟩, ?_⟩
  exact fun _ _ => ⟨by omega, hleads⟩

/-! ## Environment -/

theorem spec_chargeColdAccount (addr : Address) {cost : Int} (h0 : 0 ≤ cost) (hc : cost < 2 ^ 62) :
    Spec rules 0 0 (chargeColdAccount ctx addr cost) := by
  rintro a ⟨hreq, hroom, hout, hgas⟩
  simp only [chargeColdAccount, Program.sat_bind, Program.sat_ite, Program.sat_pure,
    sat_accessAccount, sat_charge]
  have hsame : a.Leads rules 0 a := ⟨by omega, le_rfl, hout, Paid.refl _⟩
  refine ⟨fun _ access => ⟨fun _ => ⟨⟨h0, hc⟩, hout, fun g hg => ?_⟩, fun _ =>
    hsame⟩, fun _ => hsame⟩
  exact ⟨by simp only; omega, le_rfl, hout, Paid.charge h0 hg⟩

theorem spec_additionalColdAccount (addr : Address) :
    Spec rules 0 0 (chargeColdAccount ctx addr instr.additionalColdAccountAccessCost) :=
  spec_chargeColdAccount addr (by decide) (by decide)

/-- A query of the host that answers with a word. -/
theorem spec_accountQuery {query : Address → Exec UInt256}
    (hquery : ∀ addr, Spec rules 0 0 (query addr)) : Spec rules 1 0 (accountQuery ctx query) := by
  rintro a ⟨hreq, hroom, hout, hgas⟩
  simp only [accountQuery, Program.sat_bind, sat_top]
  refine ⟨by omega, fun x => ?_⟩
  have hcold : Spec rules 0 0 (chargeColdAccount ctx x.toAddress _) :=
    spec_additionalColdAccount x.toAddress
  refine (hcold a ⟨by omega, by omega, hout, hgas⟩).mono (safe_monotone rules) fun _ a1 h1 => ?_
  have hh1 := h1.height
  refine (hquery _ a1 ⟨by omega, by omega, h1.outputSize, h1.gas.range hgas⟩).mono
    (safe_monotone rules) fun y a2 h2 => ?_
  have hh2 := h2.height
  rw [sat_setTop]
  exact ⟨by omega, h1.trans h2⟩

theorem spec_pushTxContext (field : TxContext → UInt256) :
    Spec rules 0 1 (pushTxContext field) := by
  rintro a ⟨hreq, hroom, hout, hgas⟩
  simp only [pushTxContext, Program.sat_bind, sat_getTxContext, sat_push]
  exact fun tx => ⟨by omega, by simp only; omega, le_rfl, hout, Paid.refl _⟩

theorem spec_push (item : UInt256) : Spec rules 0 1 (Exec.push item) := by
  rintro a ⟨hreq, hroom, hout, hgas⟩
  rw [sat_push]
  exact ⟨by omega, by simp only; omega, le_rfl, hout, Paid.refl _⟩

theorem spec_getBalance (addr : Address) : Spec rules 0 0 (Exec.Host.getBalance addr) := by
  rintro a ⟨hreq, hroom, hout, hgas⟩
  rw [sat_getBalance]
  exact fun _ => ⟨by omega, le_rfl, hout, Paid.refl _⟩

theorem spec_getCodeHash (addr : Address) : Spec rules 0 0 (Exec.Host.getCodeHash addr) := by
  rintro a ⟨hreq, hroom, hout, hgas⟩
  rw [sat_getCodeHash]
  exact fun _ => ⟨by omega, le_rfl, hout, Paid.refl _⟩

theorem spec_getCodeSize (addr : Address) :
    Spec rules 0 0 (do let size ← Exec.Host.getCodeSize addr; pure (size.setWidth 256)) := by
  rintro a ⟨hreq, hroom, hout, hgas⟩
  rw [Program.sat_bind, sat_getCodeSize]
  exact fun _ => ⟨by omega, le_rfl, hout, Paid.refl _⟩

theorem spec_calldataload : Spec rules 1 0 (calldataload ctx) := by
  rintro a ⟨hreq, hroom, hout, hgas⟩
  simp only [calldataload, Program.sat_bind, Program.sat_ite, sat_top, sat_setTop, sat_read]
  have hsame : a.Leads rules 0 a := ⟨by omega, le_rfl, hout, Paid.refl _⟩
  have hlt := ctx.input_size_lt
  refine ⟨by omega, fun index => ⟨fun _ => ⟨by omega, hsame⟩, fun hle => ⟨?_, by omega, hsame⟩⟩⟩
  rw [UInt256.toSize_of_lt (by omega), subSize_of_le (by omega) (by omega)]
  omega

theorem spec_copyWindow (source : List Byte) (hlt : source.length < 2 ^ 63) :
    Spec rules 3 (-3) (copyWindow source) := by
  rintro a ⟨hreq, hroom, hout, hgas⟩
  simp only [copyWindow, Program.sat_bind, Program.sat_pure, Program.sat_ite, sat_pop,
    sat_checkMemory, sat_charge, sat_read, sat_store]
  refine ⟨by omega, fun memIndex => ⟨by omega, fun inputIndex => ⟨by omega, fun size => ?_⟩⟩⟩
  refine ⟨hout, fun m g hm hg hsize => ?_⟩
  have hcost := wordCost_range size.toSize (show (0 : Int) ≤ 3 by decide) (by decide)
  refine ⟨hcost, hout, fun g' hg' => ?_⟩
  have hleads : a.Leads rules (-3) ⟨a.height - 1 - 1 - 1, m, a.outputOffset, a.outputSize, g'⟩ :=
    ⟨by simp only; omega, hm, hout, hg.trans (Paid.charge hcost.1 hg')⟩
  have hend := hsize.end_le
  generalize hsrc : (if source.length < inputIndex.toNat then source.length
    else inputIndex.toSize) = src
  have hsrc_le : src ≤ source.length := by
    rw [← hsrc]
    split
    · exact le_rfl
    · rw [UInt256.toSize_of_lt (by omega)]
      omega
  constructor
  · intro hcopy
    refine ⟨by omega, fun _ => ?_, fun hfill => ⟨fun _ => ?_, hleads⟩, fun _ => hleads⟩
    · rw [List.length_take, List.length_drop]
      omega
    · rw [List.length_replicate]
      omega
  · intro hcopy
    refine ⟨fun hfill => ⟨fun _ => ?_, hleads⟩, fun _ => hleads⟩
    rw [List.length_replicate]
    omega

theorem spec_extcodecopy : Spec rules 4 (-4) (extcodecopy ctx) := by
  rintro a ⟨hreq, hroom, hout, hgas⟩
  simp only [extcodecopy, Program.sat_bind, Program.sat_pure, Program.sat_ite, sat_pop,
    sat_checkMemory, sat_charge, sat_copyCode, sat_store]
  refine ⟨by omega, fun x => ⟨by omega, fun memIndex => ⟨by omega, fun inputIndex => ?_⟩⟩⟩
  refine ⟨by omega, fun size => ⟨hout, fun m g hm hg hsize => ?_⟩⟩
  have hcost := wordCost_range size.toSize (show (0 : Int) ≤ 3 by decide) (by decide)
  refine ⟨hcost, hout, fun g' hg' => ?_⟩
  have hleads : a.Leads rules (-4)
      ⟨a.height - 1 - 1 - 1 - 1, m, a.outputOffset, a.outputSize, g'⟩ :=
    ⟨by simp only; omega, hm, hout, hg.trans (Paid.charge hcost.1 hg')⟩
  refine (spec_additionalColdAccount _ _ (hleads.ready hroom hgas)).mono (safe_monotone rules)
    fun _ a1 h1 => ?_
  have hleads1 : a.Leads rules (-4) a1 := hleads.trans h1
  refine ⟨fun hpos bytes hfits => ⟨fun hf => ?_, ?_⟩, fun _ => hleads1⟩
  · have hend := hsize.end_le (by omega)
    have hlen := hfits hf
    have hmem := h1.memory
    simp only at hmem
    omega
  · refine ⟨fun hclear => ⟨fun hf => ?_, hleads1⟩, fun _ => hleads1⟩
    -- The host has not written beyond the buffer, so the number of bytes to clear is exact.
    have hend := hsize.end_le (by omega)
    have hlen := hfits hf
    have hmem := h1.memory
    simp only at hmem
    rw [List.length_replicate, subSize_of_le hlen size.toSize_lt]
    omega

theorem spec_returndatasize : Spec rules 0 1 (returndatasize ctx) := by
  rintro a ⟨hreq, hroom, hout, hgas⟩
  simp only [returndatasize, Program.sat_bind, sat_returnData, sat_push]
  exact fun _ => ⟨by omega, by simp only; omega, le_rfl, hout, Paid.refl _⟩

theorem spec_returndatacopy : Spec rules 3 (-3) (returndatacopy ctx) := by
  rintro a ⟨hreq, hroom, hout, hgas⟩
  simp only [returndatacopy, Program.sat_bind, Program.sat_pure, Program.sat_ite, sat_pop,
    sat_checkMemory, sat_returnData, sat_exit, sat_charge, sat_read, sat_store]
  refine ⟨by omega, fun memIndex => ⟨by omega, fun inputIndex => ⟨by omega, fun size => ?_⟩⟩⟩
  refine ⟨hout, fun m g hm hg hsize data => ⟨fun _ => ⟨by decide, hout⟩, fun hindex => ?_⟩⟩
  refine ⟨fun _ => ⟨by decide, hout⟩, fun hend => ?_⟩
  have hcost := wordCost_range size.toSize (show (0 : Int) ≤ 3 by decide) (by decide)
  refine ⟨hcost, hout, fun g' hg' => ?_⟩
  have hleads : a.Leads rules (-3) ⟨a.height - 1 - 1 - 1, m, a.outputOffset, a.outputSize, g'⟩ :=
    ⟨by simp only; omega, hm, hout, hg.trans (Paid.charge hcost.1 hg')⟩
  refine ⟨fun hpos => ⟨?_, fun _ => ?_, hleads⟩, fun _ => hleads⟩
  · have hlt := data.size_lt_two_pow
    have hle := hsize.toNat_le
    rw [← hsize.toSize_eq] at hle
    unfold maxBufferSize at hle
    rw [UInt256.toSize_of_lt (by omega)] at hend ⊢
    rw [Nat.mod_eq_of_lt (by omega)] at hend
    exact Nat.le_of_not_lt hend
  · have hregion := hsize.end_le (by omega)
    rw [List.length_take]
    omega

theorem spec_blockhash : Spec rules 1 0 (blockhash ctx) := by
  rintro a ⟨hreq, hroom, hout, hgas⟩
  simp only [blockhash, Program.sat_bind, Program.sat_pure, Program.sat_ite, sat_top,
    sat_getTxContext, sat_getBlockHash, sat_setTop]
  have hsame : a.Leads rules 0 a := ⟨by omega, le_rfl, hout, Paid.refl _⟩
  refine ⟨by omega, fun number tx => ⟨fun _ _ => ⟨by omega, hsame⟩, fun _ => ⟨by omega, hsame⟩⟩⟩

theorem spec_selfbalance : Spec rules 0 1 (selfbalance ctx) := by
  rintro a ⟨hreq, hroom, hout, hgas⟩
  simp only [selfbalance, Program.sat_bind, sat_getBalance, sat_push]
  exact fun _ => ⟨by omega, by simp only; omega, le_rfl, hout, Paid.refl _⟩

/-! ## Stack, memory and storage -/

theorem spec_pop : Spec rules 1 (-1) (pop ctx) := by
  rintro a ⟨hreq, hroom, hout, hgas⟩
  simp only [pop, Program.sat_bind, Program.sat_pure, sat_pop]
  exact ⟨by omega, fun _ => ⟨by simp only; omega, le_rfl, hout, Paid.refl _⟩⟩

/-- An offset that passed `check_memory` is not truncated. -/
theorem toSize_of_le_maxBufferSize {x : UInt256} (h : x.toNat ≤ maxBufferSize) :
    x.toSize = x.toNat := by
  unfold maxBufferSize at h
  exact UInt256.toSize_of_lt (by omega)

theorem spec_mload : Spec rules 1 0 (mload ctx) := by
  rintro a ⟨hreq, hroom, hout, hgas⟩
  simp only [mload, Program.sat_bind, sat_top, sat_setTop, sat_checkMemory64, sat_load]
  refine ⟨by omega, fun index => ⟨by decide, hout, fun m g hm hg hindex hend => ?_⟩⟩
  refine ⟨fun _ => ?_, fun _ _ => ⟨by omega, by simp only; omega, hm, hout, hg⟩⟩
  rw [toSize_of_le_maxBufferSize hindex]
  exact hend

theorem spec_mstore : Spec rules 2 (-2) (mstore ctx) := by
  rintro a ⟨hreq, hroom, hout, hgas⟩
  simp only [mstore, Program.sat_bind, sat_pop, sat_checkMemory64, sat_store, length_beStore]
  refine ⟨by omega, fun index => ⟨by omega, fun value => ⟨by decide, hout, ?_⟩⟩⟩
  intro m g hm hg hindex hend
  refine ⟨fun _ => ?_, by simp only; omega, hm, hout, hg⟩
  rw [toSize_of_le_maxBufferSize hindex]
  exact hend

theorem spec_mstore8 : Spec rules 2 (-2) (mstore8 ctx) := by
  rintro a ⟨hreq, hroom, hout, hgas⟩
  simp only [mstore8, Program.sat_bind, sat_pop, sat_checkMemory64, sat_store]
  refine ⟨by omega, fun index => ⟨by omega, fun value => ⟨by decide, hout, ?_⟩⟩⟩
  intro m g hm hg hindex hend
  refine ⟨fun _ => ?_, by simp only; omega, hm, hout, hg⟩
  rw [toSize_of_le_maxBufferSize hindex]
  exact hend

theorem spec_sload : Spec rules 1 0 (sload ctx) := by
  rintro a ⟨hreq, hroom, hout, hgas⟩
  simp only [sload, Program.sat_bind, Program.sat_ite, sat_top, sat_setTop,
    sat_accessStorage, sat_charge, sat_getStorage]
  have hsame : a.Leads rules 0 a := ⟨by omega, le_rfl, hout, Paid.refl _⟩
  refine ⟨by omega, fun key => ⟨fun _ access => ⟨fun _ => ?_, ?_⟩, fun _ _ => ⟨by omega, hsame⟩⟩⟩
  · refine ⟨by decide, hout, fun g hg value => ⟨by omega, ?_⟩⟩
    exact ⟨by simp only; omega, le_rfl, hout, Paid.charge (by decide) hg⟩
  · exact fun _ value => ⟨by omega, hsame⟩

theorem spec_msize : Spec rules 0 1 (msize ctx) := by
  rintro a ⟨hreq, hroom, hout, hgas⟩
  simp only [msize, Program.sat_bind, sat_memorySize, sat_push]
  exact fun _ => ⟨by omega, by simp only; omega, le_rfl, hout, Paid.refl _⟩

theorem spec_gas (hreads : rules.readsGas) : Spec rules 0 1 (gas ctx) := by
  rintro a ⟨hreq, hroom, hout, hgas⟩
  simp only [gas, Program.sat_bind, sat_gasLeft, sat_push]
  exact ⟨hreads, fun _ _ => ⟨by omega, by simp only; omega, le_rfl, hout, Paid.refl _⟩⟩

theorem spec_jumpdest : Spec rules 0 0 (jumpdest ctx) := by
  rintro a ⟨hreq, hroom, hout, hgas⟩
  exact ⟨by omega, le_rfl, hout, Paid.refl _⟩

theorem spec_dup (n : Fin 16) : Spec rules (n.val + 1) 1 (dup n ctx) := by
  rintro a ⟨hreq, hroom, hout, hgas⟩
  simp only [dup, Program.sat_bind, sat_peek, sat_push]
  exact ⟨by omega, fun _ => ⟨by omega, by simp only; omega, le_rfl, hout, Paid.refl _⟩⟩

theorem spec_swap (n : Fin 16) : Spec rules (n.val + 2) 0 (swap n ctx) := by
  rintro a ⟨hreq, hroom, hout, hgas⟩
  simp only [swap, Program.sat_bind, sat_top, sat_peek, sat_setTop, sat_poke]
  refine ⟨by omega, fun x => ⟨by omega, fun y => ⟨by omega, by omega, ?_⟩⟩⟩
  exact ⟨by omega, le_rfl, hout, Paid.refl _⟩

theorem sstoreCost_range (rev : Revision) {cost : Int} (h0 : 0 ≤ cost) (h1 : cost ≤ 2100)
    (status : StorageStatus) :
    0 ≤ sstoreCost rev cost status ∧ sstoreCost rev cost status < 2 ^ 62 := by
  cases status with
  | unchanged | modifiedAgain =>
      simp only [sstoreCost, instr.warmStorageReadCost]
      split <;> [omega; (split <;> [omega; (split <;> omega)])]
  | modified | deleted =>
      simp only [sstoreCost, instr.coldSloadCost]
      split <;> omega
  | added => simp only [sstoreCost]; omega
  | other code => simp only [sstoreCost]; omega

theorem spec_sstore (hstatic : rules.isStatic → ctx.msg.isStatic = true)
    (hreads : Revision.istanbul ≤ ctx.rev → rules.readsGas) : Spec rules 2 (-2) (sstore ctx) := by
  rintro a ⟨hreq, hroom, hout, hgas⟩
  simp only [sstore, Program.sat_bind, Program.sat_pure, Program.sat_ite, sat_exit, sat_gasLeft,
    sat_pop, sat_accessStorage, sat_setStorage, sat_charge]
  refine ⟨fun _ => ⟨by decide, hout⟩, fun hs => ?_⟩
  have hupdate : ¬ rules.isStatic := fun h => hs (hstatic h)
  have hcharge : ∀ cost, 0 ≤ cost → cost ≤ 2100 → ∀ status,
      (0 ≤ sstoreCost ctx.rev cost status ∧ sstoreCost ctx.rev cost status < 2 ^ 62) ∧
        a.outputSize = 0 ∧
          ∀ g, (rules.metered → 0 ≤ g ∧ g = a.gas - sstoreCost ctx.rev cost status) →
            a.Leads rules (-2)
              ⟨a.height - 1 - 1, a.memory, a.outputOffset, a.outputSize, g⟩ := by
    intro cost h0 h1 status
    have hrange := sstoreCost_range ctx.rev h0 h1 status
    refine ⟨hrange, hout, fun g hg => ?_⟩
    exact ⟨by simp only; omega, le_rfl, hout, Paid.charge hrange.1 hg⟩
  have hcold : ∀ access : AccessStatus,
      0 ≤ (if access = .cold then instr.coldSloadCost else 0) ∧
        (if access = .cold then instr.coldSloadCost else 0) ≤ 2100 := by
    intro access
    cases access <;> decide
  -- Both revisions before and after the 2300 gas rule go on with the same operations.
  refine ⟨fun hr => ⟨hreads hr, fun gas _ => ⟨fun _ => ⟨by decide, hout⟩, fun _ =>
    ?_⟩⟩, fun _ => ?_⟩
  all_goals
    refine ⟨by omega, fun key => ⟨by omega, fun value => ⟨fun _ access => ⟨hupdate, ?_⟩, ?_⟩⟩⟩
    · exact hcharge _ (hcold access).1 (hcold access).2
    · exact fun _ => ⟨hupdate, hcharge 0 le_rfl (by decide)⟩

theorem spec_popTopics (n : Nat) : Spec rules n (-n) (popTopics n) := by
  induction n with
  | zero =>
      rintro a ⟨hreq, hroom, hout, hgas⟩
      exact ⟨by simp, le_rfl, hout, Paid.refl _⟩
  | succ n ih =>
      rintro a ⟨hreq, hroom, hout, hgas⟩
      simp only [popTopics, Program.sat_bind, Program.sat_pure, sat_pop]
      refine ⟨by omega, fun topic => ?_⟩
      refine (ih { a with height := a.height - 1 } ⟨by simp only; omega, by simp only; omega, hout,
        hgas⟩).mono (safe_monotone rules) fun topics a1 h1 => ?_
      have hheight := h1.height
      simp only at hheight
      exact ⟨by omega, h1.memory, h1.outputSize, h1.gas⟩

theorem spec_log (hstatic : rules.isStatic → ctx.msg.isStatic = true) (n : Fin 5) :
    Spec rules (n.val + 2) (-(n.val + 2)) (log n ctx) := by
  rintro a ⟨hreq, hroom, hout, hgas⟩
  simp only [log, Program.sat_bind, Program.sat_pure, Program.sat_ite, sat_exit, sat_pop, sat_load,
    sat_checkMemory, sat_charge, sat_emitLog]
  refine ⟨fun _ => ⟨by decide, hout⟩, fun hs => ?_⟩
  have hupdate : ¬ rules.isStatic := fun h => hs (hstatic h)
  refine ⟨by omega, fun offset => ⟨by omega, fun size => ⟨hout, fun m g hm hg hsize => ?_⟩⟩⟩
  have hcost : 0 ≤ toInt64 size.toSize * 8 ∧ toInt64 size.toSize * 8 < 2 ^ 62 := by
    have hle := hsize.toNat_le
    rw [← hsize.toSize_eq] at hle
    unfold maxBufferSize at hle
    rw [toInt64_of_inInt64 ⟨by omega, by omega⟩]
    omega
  refine ⟨hcost, hout, fun g' hg' => ?_⟩
  have hpaid := hg.trans (Paid.charge hcost.1 hg')
  refine (spec_popTopics n ⟨a.height - 1 - 1, m, a.outputOffset, a.outputSize, g'⟩
    ⟨by simp only; omega, by simp only; omega, hout, hpaid.range hgas⟩).mono (safe_monotone rules)
    fun topics a1 h1 => ?_
  have hheight := h1.height
  have hmem := h1.memory
  simp only at hheight hmem
  have hleads : a.Leads rules (-(n.val + 2)) a1 :=
    ⟨by omega, Nat.le_trans hm hmem, h1.outputSize, hpaid.trans h1.gas⟩
  refine ⟨fun hsz => ⟨fun _ => ?_, fun _ _ => ⟨hupdate, fun _ => hleads⟩⟩, ?_⟩
  · have hend := hsize.end_le hsz
    omega
  · exact fun _ => ⟨hupdate, fun _ => hleads⟩

/-! ## Terminating instructions -/

/-- The specification of a terminating instruction: a status that loses the gas comes with no
output, and an output region lies in the memory. -/
def TerminatingSpec (rules : Rules) (required : Int) (p : Exec StatusCode) : Prop :=
  ∀ a : Abs, a.Ready rules required 0 →
    p.Sat (Safe rules)
      (fun status a' =>
        a.memory ≤ a'.memory ∧ Paid rules a.gas a'.gas ∧
          (a'.outputSize ≠ 0 → status.keepsGas ∧ a'.outputOffset + a'.outputSize ≤ a'.memory)) a

theorem terminatingSpec_pure (status : StatusCode) : TerminatingSpec rules 0 (pure status) := by
  rintro a ⟨hreq, hroom, hout, hgas⟩
  exact ⟨le_rfl, Paid.refl _, fun h => absurd hout h⟩

theorem terminatingSpec_return {status : StatusCode} (hkeeps : status.keepsGas) :
    TerminatingSpec rules 2 (return_ status ctx) := by
  rintro a ⟨hreq, hroom, hout, hgas⟩
  simp only [return_, Program.sat_bind, Program.sat_pure, sat_peek, sat_checkMemory,
    sat_setOutputOffset, sat_setOutputSize]
  refine ⟨by omega, fun offset => ⟨by omega, fun size => ⟨hout, fun m g hm hg hsize => ?_⟩⟩⟩
  exact ⟨hm, hg, fun hs => ⟨hkeeps, hsize.end_le hs⟩⟩

theorem spec_chargeNewBeneficiary (beneficiary : Address) :
    Spec rules 0 0 (chargeNewBeneficiary ctx beneficiary) := by
  rintro a ⟨hreq, hroom, hout, hgas⟩
  simp only [chargeNewBeneficiary, Program.sat_bind, Program.sat_pure, Program.sat_ite,
    sat_getBalance, sat_accountExists, sat_charge]
  have hsame : a.Leads rules 0 a := ⟨by omega, le_rfl, hout, Paid.refl _⟩
  have hpaid : ∀ g, (rules.metered → 0 ≤ g ∧ g = a.gas - 25000) →
      a.Leads rules 0 { a with gas := g } :=
    fun g hg => ⟨by simp only; omega, le_rfl, hout, Paid.charge (by decide) hg⟩
  refine ⟨fun _ => ⟨fun _ => ⟨fun _ found => ?_, fun _ => hsame⟩, fun _ balance =>
    ?_⟩, fun _ => hsame⟩
  · exact ⟨fun _ => ⟨by decide, hout, hpaid⟩, fun _ => hsame⟩
  · exact ⟨fun _ found => ⟨fun _ => ⟨by decide, hout, hpaid⟩, fun _ => hsame⟩, fun _ => hsame⟩

theorem terminatingSpec_selfdestruct (hstatic : rules.isStatic → ctx.msg.isStatic = true) :
    TerminatingSpec rules 1 (selfdestruct ctx) := by
  rintro a ⟨hreq, hroom, hout, hgas⟩
  simp only [selfdestruct, Program.sat_bind, Program.sat_pure, Program.sat_ite, sat_exit, sat_peek,
    sat_selfdestruct]
  refine ⟨fun _ => ⟨by decide, hout⟩, fun hs => ⟨by omega, fun x => ?_⟩⟩
  have hupdate : ¬ rules.isStatic := fun h => hs (hstatic h)
  have hcold : Spec rules 0 0 (chargeColdAccount ctx x.toAddress instr.coldAccountAccessCost) :=
    spec_chargeColdAccount _ (by decide) (by decide)
  refine (hcold a ⟨by omega, hroom, hout, hgas⟩).mono (safe_monotone rules) fun _ a1 h1 => ?_
  refine (spec_chargeNewBeneficiary _ a1 (h1.ready hroom hgas)).mono (safe_monotone rules)
    fun _ a2 h2 => ?_
  have h12 := h1.trans h2
  exact ⟨hupdate, fun _ => ⟨h12.memory, h12.gas, fun h => absurd h12.outputSize h⟩⟩

end Ivmone
