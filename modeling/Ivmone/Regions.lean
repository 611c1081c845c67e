import Ivmone.CallParts
import Ivmone.Soundness

/-!
# Checked regions

A logic for the part of an implementation that comes before its stores. Its abstract state is the
list of the memory regions that have been checked; they stay inside of the memory, which is only
extended by zeros.
-/

set_option autoImplicit false

namespace Ivmone

open Lib Lib.Program Instructions

/-- The regions that have been checked. -/
def Regions : Transformer Op Op.Res (List (UInt256 × UInt256))
  | .checkMemory offset (.u256 size), a, Q => Q () ((offset, size) :: a)
  | .checkMemory _ (.u64 size), a, Q => size ≤ maxBufferSize ∧ Q () a
  | .store _ _, _, _ => False
  | _, a, Q => ∀ r, Q r a

/-- The second memory is the first one, extended by zeros. -/
def Memory.Grown (m m' : Memory) : Prop := ∃ n, m'.bytes = m.bytes ++ List.replicate n 0

theorem Memory.Grown.refl (m : Memory) : m.Grown m := ⟨0, (List.append_nil _).symm⟩

theorem Memory.Grown.trans {m1 m2 m3 : Memory} (h : m1.Grown m2) (h' : m2.Grown m3) :
    m1.Grown m3 := by
  obtain ⟨n, hn⟩ := h
  obtain ⟨n', hn'⟩ := h'
  exact ⟨n + n', by rw [hn', hn, List.append_assoc, List.replicate_append_replicate]⟩

theorem Memory.Grown.size_le {m m' : Memory} (h : m.Grown m') : m.size ≤ m'.size := by
  obtain ⟨n, hn⟩ := h
  rw [← m.length_bytes, ← m'.length_bytes, hn, List.length_append]
  exact Nat.le_add_right _ _

variable {σ : Type} {env : Env σ} {ctx : Context} {s t : ExecutionState σ}

/-- The regions are inside of the memory, which has grown from `m`. -/
structure Covers (m : Memory) (a : List (UInt256 × UInt256)) (s : ExecutionState σ) : Prop where
  grown : m.Grown s.memory
  checked : ∀ region ∈ a, Checked region.1 region.2 s.memory.size

theorem Covers.congr {m : Memory} {a : List (UInt256 × UInt256)} (h : Covers m a s)
    (hmemory : t.memory = s.memory) : Covers m a t :=
  ⟨hmemory ▸ h.grown, fun region hregion => hmemory ▸ h.checked region hregion⟩

theorem Covers.mono {m : Memory} {a : List (UInt256 × UInt256)} (h : Covers m a s)
    (hgrown : s.memory.Grown t.memory) : Covers m a t :=
  ⟨h.grown.trans hgrown, fun region hregion => (h.checked region hregion).mono hgrown.size_le⟩

/-- A check that passes extends the memory by zeros at most. -/
theorem CheckResult.grown_of_ok {offset : UInt256} {size : MemorySize}
    (h : CheckResult s offset size (.ok () t)) : s.memory.Grown t.memory := by
  cases h with
  | covered newSize hend hle => exact .refl _
  | grown newSize m hend hlt hgas hm hbytes => exact ⟨_, hbytes⟩

theorem handle_regions (env : Env σ) (o : Op) {m : Memory} {a : List (UInt256 × UInt256)}
    (h : Covers m a s) {Q : o.Res → List (UInt256 × UInt256) → Prop} (hT : Regions o a Q) :
    (handle env o s).Meets (fun r s' => ∃ a', Covers m a' s' ∧ Q r a') (fun _ _ => True)
      fun _ => True := by
  cases o with
  | pop | push | peek | poke | load =>
      simp only [handle]
      split
      · exact ⟨a, h.congr rfl, hT _⟩
      · trivial
  | store => exact hT.elim
  | charge cost =>
      simp only [handle]
      split
      · trivial
      · exact ⟨a, h.congr rfl, hT _⟩
  | checkMemory offset size =>
      cases hrun : handle env (.checkMemory offset size) s with
      | exit | fault => trivial
      | ok u t =>
          cases size with
          | u64 size =>
              have hcheck := handle_checkMemory env s offset (.u64 size) fun n hn => by
                cases hn
                exact hT.1
              rw [hrun] at hcheck
              exact ⟨a, h.mono hcheck.grown_of_ok, hT.2⟩
          | u256 size =>
              have hcheck := handle_checkMemory env s offset (.u256 size) fun _ h => by cases h
              rw [hrun] at hcheck
              have hmono := h.mono hcheck.grown_of_ok
              refine ⟨(offset, size) :: a, ⟨hmono.grown, ?_⟩, hT⟩
              intro region hregion
              rcases List.mem_cons.1 hregion with rfl | hregion
              · have hok : (Exec.checkMemory offset size).run env s = .ok () t :=
                  (run_perform (handle env) _ s).trans hrun
                exact (checkMemory_ok hok).1
              · exact hmono.checked region hregion
  | exit | fault => trivial
  | _ => exact ⟨a, h.congr rfl, hT _⟩

/-- The regions that a run has checked. -/
theorem covers_of_ok {α : Type} {p : Exec α} {x : α} {m : Memory} {a : List (UInt256 × UInt256)}
    {Q : α → List (UInt256 × UInt256) → Prop} (hp : p.Sat Regions Q a) (hs : Covers m a s)
    (h : p.run env s = .ok x t) : ∃ a', Covers m a' t ∧ Q x a' := by
  have hrun := run_meets (fun o a s Q hR hT => handle_regions env o hR hT) hs hp
  rw [← Exec.run, h] at hrun
  exact hrun

/-! ## The regions of calls and creations -/

section Regions

attribute [local simp] Regions Exec.perform Exec.pop Exec.push Exec.poke Exec.charge
  Exec.checkMemory Exec.load Exec.gasLeft Exec.setGasLeft Exec.int64 Exec.setReturnData
  Exec.request Exec.Host.accountExists Exec.Host.accessAccount

@[local simp] theorem regions_exit {α : Type} (status : StatusCode)
    (Q : α → List (UInt256 × UInt256) → Prop) (a : List (UInt256 × UInt256)) :
    (Exec.exit status).Sat Regions Q a := nofun

theorem payCall_regions (kind : CallKind) (isStatic : Bool) (ctx : Context)
    (a : List (UInt256 × UInt256)) :
    (payCall kind isStatic ctx).Sat Regions (fun x a' =>
      (x.outputOffset, x.outputSize) ∈ a') a := by
  simp [payCall, readCall, popCallValue, chargeColdAccount, loadRegion, callCost]

theorem forwardGas_regions (ctx : Context) (gas value : UInt256) (a : List (UInt256 × UInt256)) :
    (forwardGas ctx gas value).Sat Regions (fun _ a' => a' = a) a := by
  simp [forwardGas, callGas, allButOne64th, addStipend]

theorem payCreate_regions (kind : CallKind) (ctx : Context) (a : List (UInt256 × UInt256)) :
    (payCreate kind ctx).Sat Regions (fun x a' => (x.initCodeOffset, x.initCodeSize) ∈ a') a := by
  simp [payCreate, popSalt]

end Regions

end Ivmone
