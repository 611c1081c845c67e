import Ivmone.InstructionSafety

/-!
# Specifications of calls and creations

The parts of `call` and `create` have a rule each, in the form of their use: what the part needs,
and what it promises to the rest. The two instructions are assembled from these rules.
-/

set_option autoImplicit false

namespace Ivmone

open Lib Instructions

variable {ctx : Context} {rules : Rules} {a : Abs}

/-! ## Parts shared by `call` and `create` -/

theorem sat_loadRegion {offset size : UInt256} {Q : List Byte → Abs → Prop}
    (hsize : Checked offset size a.memory) (hQ : ∀ bytes, Q bytes a) :
    (loadRegion offset size).Sat (Safe rules) Q a := by
  simp only [loadRegion, Program.sat_ite, Program.sat_pure, sat_load]
  exact ⟨fun hs => ⟨fun _ => hsize.end_le (by omega), fun bytes _ => hQ bytes⟩, fun _ => hQ []⟩

theorem sat_hasBalance {value : UInt256} {Q : Bool → Abs → Prop} (hQ : ∀ b, Q b a) :
    (hasBalance ctx value).Sat (Safe rules) Q a := by
  simp only [hasBalance, Program.sat_bind, Program.sat_ite, Program.sat_pure, sat_getBalance]
  exact ⟨fun _ _ => hQ _, fun _ => hQ _⟩

/-- The gas a call has used comes out of the gas left. -/
theorem sat_spendGas {msg : Message} {result : CallResult} {Q : Unit → Abs → Prop}
    (hreads : rules.readsGas)
    (hresult : rules.metered → 0 ≤ result.gasLeft ∧ result.gasLeft ≤ msg.gas)
    (hmsg : rules.metered → msg.gas ≤ a.gas ∧ a.gas ≤ rules.ceiling)
    (hQ : ∀ g, (rules.metered → 0 ≤ g ∧ g ≤ a.gas) → Q () { a with gas := g }) :
    (spendGas msg result).Sat (Safe rules) Q a := by
  have hlt := rules.ceiling_lt
  simp only [spendGas, Program.sat_bind, sat_int64, sat_gasLeft, sat_setGasLeft]
  refine ⟨hreads, fun hm => ?_, fun used hused => ⟨hreads, fun gas hgas =>
    ⟨hreads, fun hm => ?_, ?_⟩⟩⟩
  · have h1 := hresult hm
    have h2 := hmsg hm
    constructor <;> omega
  · have h1 := hresult hm
    have h2 := hmsg hm
    rw [hgas hm, hused hm]
    constructor <;> omega
  · intro gas' hgas'
    have hrange : rules.metered → 0 ≤ gas' ∧ gas' ≤ a.gas := by
      intro hm
      have h1 := hresult hm
      have h2 := hmsg hm
      rw [hgas' hm, hgas hm, hused hm]
      omega
    refine ⟨hreads, fun hm => ?_, hQ gas' hrange⟩
    have h1 := hrange hm
    have h2 := hmsg hm
    constructor <;> omega

/-- The 63/64 rule keeps the sign of the gas left and gives no more than it. -/
theorem sub_tdiv_64 (gas : Int) :
    (0 ≤ gas → 0 ≤ gas - gas.tdiv 64 ∧ gas - gas.tdiv 64 ≤ gas) ∧
      (gas < 0 → gas ≤ gas - gas.tdiv 64 ∧ gas - gas.tdiv 64 < 0) := by
  constructor
  · intro h
    rw [Int.tdiv_eq_ediv_of_nonneg h]
    omega
  · intro h
    have hneg : gas.tdiv 64 = -((-gas) / 64) := by
      rw [← Int.tdiv_eq_ediv_of_nonneg (by omega), Int.neg_tdiv, Int.neg_neg]
    rw [hneg]
    omega

/-! ## `call` -/

/-- The number of stack items for the value of a call. -/
def valueItems (kind : CallKind) (isStatic : Bool) : Nat :=
  if isStatic ∨ kind = .delegatecall then 0 else 1

theorem sat_popCallValue {kind : CallKind} {isStatic : Bool} {Q : UInt256 → Abs → Prop}
    (hheight : valueItems kind isStatic ≤ a.height)
    (hQ : ∀ x, (isStatic = true → x = 0) →
      Q x { a with height := a.height - valueItems kind isStatic }) :
    (popCallValue kind isStatic).Sat (Safe rules) Q a := by
  simp only [popCallValue, Program.sat_ite, Program.sat_pure, sat_pop]
  unfold valueItems at hheight hQ
  refine ⟨fun h => ?_, fun h => ?_⟩
  · rw [if_pos h] at hQ
    exact hQ 0 fun _ => rfl
  · rw [if_neg h] at hheight hQ
    exact ⟨hheight, fun x => hQ x fun hs => absurd (Or.inl hs) h⟩

/-- A call with value costs at least 9000, and is no CALL in static mode. -/
theorem sat_callCost {kind : CallKind} {dst : Address} {hasValue : Bool} {Q : Int → Abs → Prop}
    (hout : a.outputSize = 0)
    (hQ : ∀ cost, 0 ≤ cost ∧ cost ≤ 34000 → (hasValue = true → 9000 ≤ cost) →
      ¬ (kind = .call ∧ hasValue = true ∧ ctx.msg.isStatic = true) → Q cost a) :
    (callCost kind ctx dst hasValue).Sat (Safe rules) Q a := by
  simp only [callCost, Program.sat_bind, Program.sat_ite, Program.sat_pure, sat_exit,
    sat_accountExists]
  have hcost : (0 : Int) ≤ (if hasValue = true then 9000 else 0) ∧
      (if hasValue = true then 9000 else 0 : Int) ≤ 9000 := by
    split <;> decide
  have hvalue : hasValue = true → (9000 : Int) ≤ if hasValue = true then 9000 else 0 := by
    intro h
    rw [if_pos h]
  refine ⟨fun _ => ⟨fun _ => ⟨by decide, hout⟩, fun hs => ⟨fun _ found => ?_, fun _ => ?_⟩⟩, ?_⟩
  · refine hQ _ ?_ ?_ fun h => hs h.2
    · split <;> omega
    · intro h
      have := hvalue h
      split <;> omega
  · exact hQ _ ⟨hcost.1, by omega⟩ hvalue fun h => hs h.2
  · exact fun hk => hQ _ ⟨hcost.1, by omega⟩ hvalue fun h => hk h.1

/-- A message gets no more than the gas left. -/
theorem sat_callGas {gas : UInt256} {Q : Int → Abs → Prop} (hreads : rules.readsGas)
    (hout : a.outputSize = 0) (hgas : rules.metered → 0 ≤ a.gas ∧ a.gas ≤ rules.ceiling)
    (hQ : ∀ r, (rules.metered → 0 ≤ r ∧ r ≤ a.gas) → Q r a) :
    (callGas ctx gas).Sat (Safe rules) Q a := by
  have hlt := rules.ceiling_lt
  simp only [callGas, allButOne64th, Program.sat_bind, Program.sat_ite, Program.sat_pure, sat_exit,
    sat_gasLeft, sat_int64]
  have hrequested : (0 : Int) ≤ if gas.toNat < 2 ^ 63 - 1 then gas.toInt64 else 2 ^ 63 - 1 := by
    split
    · rw [UInt256.toInt64, toInt64_of_inInt64 ⟨by omega, by omega⟩]
      omega
    · decide
  refine ⟨hreads, fun available havailable => ⟨fun _ =>
    ⟨hreads, fun hm => ?_, ?_⟩, fun _ => ⟨?_, ?_⟩⟩⟩
  · have h := hgas hm
    have h64 := sub_tdiv_64 a.gas
    rw [havailable hm]
    constructor <;> omega
  · intro limit hlimit
    refine hQ _ fun hm => ?_
    have h := hgas hm
    have h64 := sub_tdiv_64 a.gas
    rw [havailable hm] at hlimit
    have hl := hlimit hm
    omega
  · exact fun _ => ⟨by decide, hout⟩
  · intro hle
    refine hQ _ fun hm => ?_
    rw [havailable hm] at hle
    omega

/-- The stipend is added to the gas of the message and to the gas left. -/
theorem sat_addStipend {hasValue : Bool} {msgGas : Int} {Q : Int → Abs → Prop}
    (hreads : rules.readsGas) (hmsg : rules.metered → 0 ≤ msgGas ∧ msgGas ≤ a.gas)
    (hgas : rules.metered → hasValue = true → a.gas + 2300 ≤ rules.ceiling)
    (hQ : ∀ r g,
      (rules.metered → 0 ≤ r ∧ r ≤ g ∧ g = a.gas + if hasValue = true then 2300 else 0) →
        Q r { a with gas := g }) :
    (addStipend hasValue msgGas).Sat (Safe rules) Q a := by
  have hlt := rules.ceiling_lt
  simp only [addStipend, Program.sat_bind, Program.sat_ite, Program.sat_pure, sat_int64,
    sat_gasLeft, sat_setGasLeft]
  refine ⟨fun hv => ⟨hreads, fun hm => ?_, fun r hr => ⟨hreads, fun gas hg => ⟨hreads, ?_, ?_⟩⟩⟩,
    fun hv => ?_⟩
  · have h1 := hmsg hm
    have h2 := hgas hm hv
    constructor <;> omega
  · intro hm
    have h1 := hmsg hm
    have h2 := hgas hm hv
    rw [hg hm]
    constructor <;> omega
  · intro gas' hg'
    refine ⟨hreads, fun hm => ?_, hQ r gas' fun hm => ?_⟩
    · have h1 := hmsg hm
      have h2 := hgas hm hv
      rw [hg' hm, hg hm]
      constructor <;> omega
    · have h1 := hmsg hm
      rw [hg' hm, hg hm, hr hm, if_pos hv]
      omega
  · refine hQ msgGas a.gas fun hm => ?_
    have h1 := hmsg hm
    rw [if_neg hv]
    omega

theorem sat_storeOutput {outputOffset outputSize : UInt256} {output : Buffer}
    {Q : Unit → Abs → Prop} (hsize : Checked outputOffset outputSize a.memory) (hQ : Q () a) :
    (storeOutput outputOffset outputSize output).Sat (Safe rules) Q a := by
  simp only [storeOutput, Program.sat_ite, Program.sat_pure, sat_store]
  refine ⟨fun hs => ⟨fun _ => ?_, hQ⟩, fun _ => hQ⟩
  have hend := hsize.end_le (by omega)
  rw [List.length_take]
  omega

/-- The message of a call in static mode is quiet. -/
theorem callMessage_quiet {kind : CallKind} {isStatic : Bool} {dst : Address} {value : UInt256}
    {input : List Byte} {gas : Int} (hkind : kind ≠ .create ∧ kind ≠ .create2)
    (hstatic : isStatic = true ∨ ctx.msg.isStatic = true) (hvalue : kind = .call → value = 0) :
    HostRequest.Quiet (.call (callMessage kind isStatic ctx dst value input gas)) := by
  refine ⟨?_, hkind.1, hkind.2, ?_⟩
  · cases isStatic with
    | false => exact hstatic.resolve_left (by decide)
    | true =>
        have hflags : (callMessage kind true ctx dst value input gas).flags = ivmcStatic := rfl
        rw [Message.isStatic, hflags]
        decide
  · intro hk
    have hk' : kind = .call := hk
    subst hk'
    exact hvalue rfl

theorem sat_sendCall {msg : Message} {outputOffset outputSize : UInt256} {Q : Unit → Abs → Prop}
    (hreads : rules.readsGas) (hquiet : rules.isStatic → HostRequest.Quiet (.call msg))
    (hheight : 0 < a.height) (hsize : Checked outputOffset outputSize a.memory)
    (hgas : rules.metered → 0 ≤ msg.gas ∧ msg.gas ≤ a.gas ∧ a.gas ≤ rules.ceiling)
    (hQ : ∀ g, (rules.metered → 0 ≤ g ∧ g ≤ a.gas) → Q () { a with gas := g }) :
    (sendCall msg outputOffset outputSize).Sat (Safe rules) Q a := by
  simp only [sendCall, Program.sat_bind, sat_call, sat_setReturnData, sat_setTop]
  refine ⟨hquiet, fun hm _ => (hgas hm).1, fun result hresult => ⟨hheight, ?_⟩⟩
  exact sat_storeOutput hsize (sat_spendGas hreads hresult (fun hm => (hgas hm).2) hQ)

theorem spec_call (kind : CallKind) (isStatic : Bool) (hkind : kind ≠ .create ∧ kind ≠ .create2)
    (hstatic : rules.isStatic → isStatic = true ∨ ctx.msg.isStatic = true)
    (hreads : rules.readsGas) :
    Spec rules (6 + valueItems kind isStatic) (-5 - valueItems kind isStatic)
      (call kind isStatic ctx) := by
  rintro a ⟨hreq, hroom, hout, hgas⟩
  simp only [call, Program.sat_bind, Program.sat_ite, Program.sat_pure, sat_pop, sat_push,
    sat_checkMemory, sat_charge, sat_setReturnData]
  refine ⟨by omega, fun gas => ⟨by omega, fun x => ?_⟩⟩
  refine sat_popCallValue (by simp only; omega) fun value hvalue => ⟨by simp only; omega, ?_⟩
  refine fun inputOffset => ⟨by simp only; omega, fun inputSize => ⟨by simp only; omega, ?_⟩⟩
  refine fun outputOffset => ⟨by simp only; omega, fun outputSize => ⟨by simp only; omega, ?_⟩⟩
  have h0 : a.Leads rules (-5 - valueItems kind isStatic)
      ⟨a.height - 1 - 1 - valueItems kind isStatic - 1 - 1 - 1 - 1 + 1, a.memory, a.outputOffset,
        a.outputSize, a.gas⟩ :=
    ⟨by simp only; omega, le_rfl, hout, Paid.refl _⟩
  refine (spec_additionalColdAccount _ _ (h0.ready hroom hgas)).mono (safe_monotone rules)
    fun _ a1 h1 => ?_
  have h01 := h0.trans h1
  rw [Int.add_zero] at h01
  have hheight := h01.height
  refine ⟨h1.outputSize, fun m g hm hg hinput => ⟨h1.outputSize, fun m' g' hm' hg' houtput => ?_⟩⟩
  refine sat_loadRegion (hinput.mono hm') fun input => ?_
  refine sat_callCost h1.outputSize fun cost hcost hcostValue hcallValue => ?_
  refine ⟨⟨hcost.1, by omega⟩, h1.outputSize, fun g2 hg2 => ?_⟩
  have hpaid := (h01.gas.trans hg).trans hg'
  have hrange := hpaid.range hgas
  refine sat_callGas hreads h1.outputSize (fun hm => ?_) fun r hr => ?_
  · have h2 := hg2 hm
    have h3 := hrange hm
    simp only at h2 ⊢
    omega
  refine sat_addStipend hreads hr (fun hm hv => ?_) fun msgGas g3 hg3 => ?_
  · have h2 := hg2 hm
    have h3 := hrange hm
    have h4 := hcostValue hv
    simp only at h2 ⊢
    omega
  -- With value, the cost of at least 9000 covers the stipend of 2300.
  have hg3' : rules.metered → 0 ≤ msgGas ∧ msgGas ≤ g3 ∧ g3 ≤ g' := by
    intro hm
    have h2 := hg2 hm
    have h3 := hg3 hm
    simp only at h2 h3
    split at h3
    · have h4 := hcostValue ‹_›
      omega
    · omega
  have hleads : ∀ g4, (rules.metered → 0 ≤ g4 ∧ g4 ≤ g3) → a.Leads rules
      (-5 - valueItems kind isStatic) ⟨a1.height, m', a1.outputOffset, a1.outputSize, g4⟩ := by
    intro g4 hg4
    refine ⟨h01.height, Nat.le_trans h01.memory (Nat.le_trans hm hm'), h1.outputSize, ?_⟩
    refine hpaid.trans fun hm => ?_
    have h2 := hg3' hm
    have h3 := hg4 hm
    simp only
    omega
  have hsame : rules.metered → 0 ≤ g3 ∧ g3 ≤ g3 := by
    intro hm
    have h2 := hg3' hm
    omega
  refine ⟨fun _ => hleads g3 hsame, fun _ => sat_hasBalance fun enough => ⟨fun _ => ?_, ?_⟩⟩
  · refine sat_sendCall hreads (fun hs => ?_) (by simp only; omega) houtput (fun hm => ?_) hleads
    · refine callMessage_quiet hkind (hstatic hs) fun hk => ?_
      by_contra hne
      have hv : (value != 0) = true := bne_iff_ne.2 hne
      exact (hstatic hs).elim (fun h => hne (hvalue h)) fun h => hcallValue ⟨hk, hv, h⟩
    · have h2 := hg3' hm
      have h3 := hrange hm
      exact ⟨h2.1, h2.2.1, by simp only; omega⟩
  · exact fun _ => hleads g3 hsame

/-! ## `create` -/

/-- The number of stack items for the salt of a creation. -/
def saltItems (kind : CallKind) : Nat := if kind = .create2 then 1 else 0

theorem sat_popSalt {kind : CallKind} {initCodeSize : UInt256} {Q : UInt256 → Abs → Prop}
    (hheight : saltItems kind ≤ a.height) (hout : a.outputSize = 0)
    (hQ : ∀ salt g, Paid rules a.gas g →
      Q salt { a with height := a.height - saltItems kind, gas := g }) :
    (popSalt kind initCodeSize).Sat (Safe rules) Q a := by
  simp only [popSalt, Program.sat_bind, Program.sat_ite, Program.sat_pure, sat_pop, sat_charge]
  unfold saltItems at hheight hQ
  refine ⟨fun h => ?_, fun h => ?_⟩
  · rw [if_pos h] at hheight hQ
    have hcost := wordCost_range initCodeSize.toSize (show (0 : Int) ≤ 6 by decide) (by decide)
    exact ⟨hheight, fun salt => ⟨hcost, hout, fun g hg => hQ salt g (Paid.charge hcost.1 hg)⟩⟩
  · rw [if_neg h] at hQ
    exact hQ 0 a.gas (Paid.refl _)

theorem sat_createGas {Q : Int → Abs → Prop} (hreads : rules.readsGas)
    (hgas : rules.metered → -2 ^ 62 ≤ a.gas ∧ a.gas ≤ rules.ceiling)
    (hQ : ∀ r, (rules.metered → (0 ≤ a.gas → 0 ≤ r) ∧ (0 ≤ r → r ≤ a.gas)) → Q r a) :
    (createGas ctx).Sat (Safe rules) Q a := by
  have hlt := rules.ceiling_lt
  simp only [createGas, allButOne64th, Program.sat_bind, Program.sat_ite, Program.sat_pure,
    sat_gasLeft, sat_int64]
  refine ⟨hreads, fun gas hg => ⟨fun _ => ⟨hreads, fun hm => ?_, fun r hr =>
    hQ r fun hm => ?_⟩, ?_⟩⟩
  · have h := hgas hm
    have h64 := sub_tdiv_64 a.gas
    rw [hg hm]
    constructor <;> omega
  · have h := hr hm
    have h64 := sub_tdiv_64 a.gas
    rw [hg hm] at h
    omega
  · intro _
    refine hQ gas fun hm => ?_
    rw [hg hm]
    exact ⟨id, fun _ => le_rfl⟩

theorem sat_sendCreate {msg : Message} {Q : Unit → Abs → Prop} (hreads : rules.readsGas)
    (hupdate : ¬ rules.isStatic) (hheight : 0 < a.height)
    (hmsg : rules.metered → (0 ≤ a.gas → 0 ≤ msg.gas) ∧ (0 ≤ msg.gas → msg.gas ≤ a.gas))
    (hgas : rules.metered → a.gas ≤ rules.ceiling)
    (hQ : ∀ g, (rules.metered → 0 ≤ g ∧ g ≤ a.gas) → Q () { a with gas := g }) :
    (sendCreate msg).Sat (Safe rules) Q a := by
  simp only [sendCreate, Program.sat_bind, sat_call]
  refine ⟨fun h => absurd h hupdate, fun hm => (hmsg hm).1, fun result hresult => ?_⟩
  refine sat_spendGas hreads hresult (fun hm => ?_) fun g hg => ?_
  · have h1 := hresult hm
    exact ⟨(hmsg hm).2 (by omega), hgas hm⟩
  · simp only [Program.sat_ite, Program.sat_pure, sat_setReturnData, sat_setTop]
    exact ⟨fun _ => ⟨hheight, hQ g hg⟩, fun _ => hQ g hg⟩

theorem spec_create (kind : CallKind) (hstatic : rules.isStatic → ctx.msg.isStatic = true)
    (hreads : rules.readsGas) :
    Spec rules (3 + saltItems kind) (-2 - saltItems kind) (create kind ctx) := by
  rintro a ⟨hreq, hroom, hout, hgas⟩
  simp only [create, Program.sat_bind, Program.sat_ite, Program.sat_pure, sat_exit, sat_pop,
    sat_push, sat_checkMemory, sat_setReturnData]
  refine ⟨fun _ => ⟨by decide, hout⟩, fun hs => ?_⟩
  have hupdate : ¬ rules.isStatic := fun h => hs (hstatic h)
  refine ⟨by omega, fun endowment => ⟨by omega, fun initCodeOffset => ⟨by omega, ?_⟩⟩⟩
  refine fun initCodeSize => ⟨hout, fun m g hm hg hsize => ?_⟩
  refine sat_popSalt (by simp only; omega) hout fun salt g1 hg1 => ⟨by simp only; omega, ?_⟩
  have hpaid := hg.trans hg1
  have hrange := hpaid.range hgas
  have hleads : ∀ g2, Paid rules g1 g2 → a.Leads rules (-2 - saltItems kind)
      ⟨a.height - 1 - 1 - 1 - saltItems kind + 1, m, a.outputOffset, a.outputSize, g2⟩ :=
    fun g2 hg2 => ⟨by simp only; omega, hm, hout, hpaid.trans hg2⟩
  refine ⟨fun _ => hleads g1 (Paid.refl _), fun _ => sat_hasBalance fun enough => ⟨fun _ => ?_, ?_⟩⟩
  · refine sat_createGas hreads hrange fun r hr => ?_
    refine sat_loadRegion hsize fun input => ?_
    refine sat_sendCreate hreads hupdate (by simp only; omega) hr (fun hm => (hrange hm).2) ?_
    intro g2 hg2
    refine hleads g2 fun hm => ?_
    have h2 := hg2 hm
    simp only at h2
    omega
  · exact fun _ => hleads g1 (Paid.refl _)

end Ivmone
