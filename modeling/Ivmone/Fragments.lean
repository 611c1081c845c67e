import Ivmone.Lib.Leads
import Ivmone.Bytecode
import Ivmone.Payments
import Ivmone.PushDecoding
import Ivmone.Equivalence
import Ivmone.WordOperations

/-!
# A program logic for code in Baseline

A fragment is a piece of code that ends where its last instruction does. `Triple i P code Q` says
what a fragment does wherever it stands in the code of an invocation: a run that is at its first
byte in a state that meets `P` comes to the byte after it in a state that meets `Q`.

Most fragments only touch the stack and the gas counter, and what they cost does not depend on the
state. `Fragment i code R R'` is the triple for these: the items on the stack go from `R` to `R'`,
the gas goes down by the base costs of the instructions, and everything else stays as it is.
Fragments compose by concatenation (`Fragment.append`) and repetition (`Fragment.times`).
-/

set_option autoImplicit false

namespace Ivmone

open Lib Baseline

open Advanced (baseCost baseCost_nonneg requirements_of_ofByte)

/-! ## Whole instructions -/

theorem Arrives.trans {code : List Byte} {i d e : Nat} (h : Arrives code i d)
    (h' : Arrives code d e) : Arrives code i e := by
  induction h' with
  | refl => exact h
  | next _ hb ih => exact ih.next hb

theorem Arrives.append {code : List Byte} {i d : Nat} (h : Arrives code i d) (after : List Byte) :
    Arrives (code ++ after) i d := by
  induction h with
  | refl => exact .refl
  | next _ hb ih =>
      have hlt := (List.getElem?_eq_some_iff.1 hb).1
      exact ih.next (by rw [List.getElem?_append_left hlt, hb])

theorem Arrives.prepend {code : List Byte} {i d : Nat} (h : Arrives code i d)
    (before : List Byte) : Arrives (before ++ code) (before.length + i) (before.length + d) := by
  induction h with
  | refl => exact .refl
  | @next d b _ hb ih =>
      have hread : (before ++ code)[before.length + d]? = some b := by
        rw [List.getElem?_append_right (by omega), Nat.add_sub_cancel_left, hb]
      have hnext := ih.next hread
      rwa [Nat.add_assoc, Nat.add_assoc, ← Nat.add_assoc d] at hnext

/-- The code ends where its last instruction does. -/
def Whole (code : List Byte) : Prop := Arrives code 0 code.length

theorem whole_nil : Whole [] := .refl

theorem Whole.append {a b : List Byte} (ha : Whole a) (hb : Whole b) : Whole (a ++ b) := by
  have hsecond := Arrives.prepend hb a
  rw [Nat.add_zero, ← List.length_append] at hsecond
  exact (Arrives.append ha b).trans hsecond

/-- An opcode with its data. -/
theorem whole_instruction {b : Byte} {data : List Byte} (h : data.length = pushSize b) :
    Whole (b :: data) := by
  have hnext : Arrives (b :: data) 0 (0 + 1 + pushSize b) := .next .refl rfl
  rwa [← h, Nat.zero_add, Nat.add_comm, ← List.length_cons] at hnext

theorem pushSize_toByte {op : Opcode} (h : ∀ n, op ≠ .push n) : pushSize op.toByte = 0 :=
  pushSize_of_ne_push (ofByte_toByte op) h

theorem Whole.times {c : Bytecode} (h : Whole c) (n : Nat) : Whole (Bytecode.times n c) := by
  induction n with
  | zero => exact whole_nil
  | succ n ih => exact ih.append h

/-! ## Base costs -/

/-- The base costs of all instructions of a piece of code. -/
def codeCost (rev : Revision) (code : List Byte) : Int := baseCost rev (decode code)

theorem codeCost_nonneg (rev : Revision) (code : List Byte) : 0 ≤ codeCost rev code :=
  baseCost_nonneg rev _

theorem baseCost_decodeFrom_prepend (rev : Revision) (before code : List Byte) (offset : Nat) :
    baseCost rev (decodeFrom (before ++ code) (before.length + offset)) =
      baseCost rev (decodeFrom code offset) := by
  induction hn : code.length - offset using Nat.strong_induction_on generalizing offset with
  | _ n ih =>
      cases hb : code[offset]? with
      | none =>
          have hle := List.getElem?_eq_none_iff.1 hb
          rw [decodeFrom_of_le hle, decodeFrom_of_le (by rw [List.length_append]; omega)]
      | some b =>
          have hlt := (List.getElem?_eq_some_iff.1 hb).1
          have hread : (before ++ code)[before.length + offset]? = some b := by
            rw [List.getElem?_append_right (by omega), Nat.add_sub_cancel_left, hb]
          have hrest := ih _ (by omega) (offset + 1 + pushSize b) rfl
          rw [decodeFrom_of_some hb, decodeFrom_of_some hread, baseCost, baseCost, ← hrest,
            Nat.add_assoc, Nat.add_assoc, ← Nat.add_assoc offset]
          rfl

/-- What stands after an offset only matters from there on. -/
theorem baseCost_decodeFrom_append (rev : Revision) {code : List Byte} {offset : Nat}
    (h : Arrives code offset code.length) (after : List Byte) :
    baseCost rev (decodeFrom (code ++ after) offset) =
      baseCost rev (decodeFrom code offset) + codeCost rev after := by
  induction hn : code.length - offset using Nat.strong_induction_on generalizing offset with
  | _ n ih =>
      rcases h.eq_or_head with heq | ⟨b, hb, hrest⟩
      · have hprepend := baseCost_decodeFrom_prepend rev code after 0
        rw [← heq, decodeFrom_of_le le_rfl, baseCost, Int.zero_add]
        rwa [Nat.add_zero] at hprepend
      · have hlt := (List.getElem?_eq_some_iff.1 hb).1
        have hread : (code ++ after)[offset]? = some b := by
          rw [List.getElem?_append_left hlt, hb]
        rw [decodeFrom_of_some hb, decodeFrom_of_some hread, baseCost, baseCost,
          ih _ (by omega) hrest rfl, Int.add_assoc]
        rfl

theorem codeCost_append (rev : Revision) {a : List Byte} (ha : Whole a) (b : List Byte) :
    codeCost rev (a ++ b) = codeCost rev a + codeCost rev b :=
  baseCost_decodeFrom_append rev ha b

theorem codeCost_nil (rev : Revision) : codeCost rev [] = 0 := by
  have hnil : decodeFrom [] 0 = [] := decodeFrom_of_le le_rfl
  rw [codeCost, decode, hnil, baseCost]

theorem codeCost_instruction {rev : Revision} {op : Opcode}
    (hdef : instr.gasCosts rev op ≠ instr.undefined) {data : List Byte}
    (hdata : data.length = pushSize op.toByte) :
    codeCost rev (op.toByte :: data) = instr.gasCosts rev op := by
  have hcost := (requirements_of_ofByte rev
    (d := instructionAt (op.toByte :: data) 0 op.toByte) (ofByte_toByte op) hdef).1
  have hread : (op.toByte :: data)[0]? = some op.toByte := rfl
  rw [codeCost, decode, decodeFrom_of_some hread, baseCost, hcost,
    decodeFrom_of_le (by rw [List.length_cons]; omega), baseCost, Int.add_zero]

section Triple

variable {σ : Type} {i : Invocation σ}

/-- The loop is at a position, in a state of this invocation that meets `P`. -/
def At (i : Invocation σ) (pos : Nat) (P : ExecutionState σ → Prop)
    (c : Config (ExecutionState σ)) : Prop :=
  ∃ s, c = .running pos s ∧ s.toContext = i.ctx ∧ P s

/-- What a piece of code does wherever it stands. -/
def Triple (i : Invocation σ) (P : ExecutionState σ → Prop) (code : List Byte)
    (Q : ExecutionState σ → Prop) : Prop :=
  ∀ before after, i.ctx.code.bytes = before ++ (code ++ after) → Whole before →
    Leads (step i.env (analysisOf i)) (At i before.length P) (At i (before ++ code).length Q)

variable {P P' Q Q' R : ExecutionState σ → Prop}

theorem Triple.consequence {code : List Byte} (h : Triple i P code Q) (hP : ∀ s, P' s → P s)
    (hQ : ∀ s, Q s → Q' s) : Triple i P' code Q' := by
  intro before after hbytes hbefore
  refine (h before after hbytes hbefore).consequence ?_ ?_
  · rintro c ⟨s, rfl, hctx, hs⟩
    exact ⟨s, rfl, hctx, hP s hs⟩
  · rintro c ⟨s, rfl, hctx, hs⟩
    exact ⟨s, rfl, hctx, hQ s hs⟩

theorem Triple.nil (h : ∀ s, P s → Q s) : Triple i P [] Q := by
  intro before after _ _
  rw [List.append_nil]
  apply Leads.of_imp
  rintro c ⟨s, rfl, hctx, hs⟩
  exact ⟨s, rfl, hctx, h s hs⟩

theorem Triple.append {a b : List Byte} (ha : Triple i P a Q) (hb : Triple i Q b R)
    (hwhole : Whole a) : Triple i P (a ++ b) R := by
  intro before after hbytes hbefore
  have hfirst := ha before (b ++ after) (by rw [hbytes, List.append_assoc]) hbefore
  have hsecond := hb (before ++ a) after (by rw [hbytes, List.append_assoc, List.append_assoc])
    (hbefore.append hwhole)
  rw [List.append_assoc] at hsecond
  exact hfirst.trans hsecond

/-- A round of the loop at an instruction that is paid for. -/
theorem step_of_covered {pos : Nat} {op : Opcode} {s : ExecutionState σ}
    (harrives : Arrives i.ctx.code.bytes 0 pos) (hfetched : Fetched i.ctx.code.bytes pos op)
    (hctx : s.toContext = i.ctx) (hdef : instr.gasCosts i.ctx.rev op ≠ instr.undefined)
    (hcost : instr.gasCosts i.ctx.rev op ≤ s.gasLeft) (h63 : s.gasLeft < 2 ^ 63)
    (hsuits : Suits True op s) :
    step i.env (analysisOf i) (.running pos s) =
      some (.ofResult ((invoke (op2fn op) (analysisOf i) i.ctx pos).run i.env
        { s with gasLeft := s.gasLeft - instr.gasCosts i.ctx.rev op })) := by
  have hrev : s.rev = i.ctx.rev := by rw [hctx]
  obtain ⟨h0, h1⟩ := instr.gasCosts_range hdef
  have hpaid : s.setGas (s.gasLeft - instr.gasCosts i.ctx.rev op) =
      { s with gasLeft := s.gasLeft - instr.gasCosts i.ctx.rev op } :=
    setGas_of_cost (by omega) h63 h0 (by omega)
  have hleft : 0 ≤ toInt64 (s.gasLeft - instr.gasCosts s.rev op) := by
    rw [hrev, toInt64_of_inInt64 ⟨by omega, by omega⟩]
    omega
  rw [baseline_step_of_suits harrives hfetched (by rw [hrev]; exact hdef) hleft hsuits, hrev,
    hpaid, hctx]

/-- One instruction, from what its implementation does. -/
theorem leads_instruction {pos pos' : Nat} {op : Opcode}
    (harrives : Arrives i.ctx.code.bytes 0 pos) (hfetched : Fetched i.ctx.code.bytes pos op)
    (hdef : instr.gasCosts i.ctx.rev op ≠ instr.undefined)
    (hP : ∀ s, P s → instr.gasCosts i.ctx.rev op ≤ s.gasLeft ∧ s.gasLeft < 2 ^ 63 ∧
      (instr.traits op).stackHeightRequired ≤ s.stack.height ∧
      s.stack.height + (instr.traits op).stackHeightChange ≤ 1024)
    (hrun : ∀ s, P s → s.toContext = i.ctx →
      ∃ s', (invoke (op2fn op) (analysisOf i) i.ctx pos).run i.env
          { s with gasLeft := s.gasLeft - instr.gasCosts i.ctx.rev op } = .ok pos' s' ∧
        s'.toContext = i.ctx ∧ Q s') :
    Leads (step i.env (analysisOf i)) (At i pos P) (At i pos' Q) := by
  apply Leads.of_step
  rintro c ⟨s, rfl, hctx, hs⟩
  obtain ⟨hcost, h63, hrequired, hroom⟩ := hP s hs
  obtain ⟨s', hs', hctx', hq⟩ := hrun s hs hctx
  refine ⟨.running pos' s', ?_, s', rfl, hctx', hq⟩
  rw [step_of_covered harrives hfetched hctx hdef hcost h63 fun _ => ⟨hrequired, hroom⟩, hs']
  rfl

/-- The rule for one instruction in a piece of code. -/
theorem Triple.instruction {op : Opcode} {data : List Byte}
    (hdef : instr.gasCosts i.ctx.rev op ≠ instr.undefined)
    (hP : ∀ s, P s → instr.gasCosts i.ctx.rev op ≤ s.gasLeft ∧ s.gasLeft < 2 ^ 63 ∧
      (instr.traits op).stackHeightRequired ≤ s.stack.height ∧
      s.stack.height + (instr.traits op).stackHeightChange ≤ 1024)
    (hrun : ∀ pos s, P s → s.toContext = i.ctx → Arrives i.ctx.code.bytes 0 pos →
      i.ctx.code.bytes[pos]? = some op.toByte →
      (i.ctx.code.bytes.drop (pos + 1)).take data.length = data →
      pos + 1 + data.length ≤ i.ctx.code.bytes.length →
      ∃ s', (invoke (op2fn op) (analysisOf i) i.ctx pos).run i.env
          { s with gasLeft := s.gasLeft - instr.gasCosts i.ctx.rev op } =
            .ok (pos + 1 + data.length) s' ∧ s'.toContext = i.ctx ∧ Q s') :
    Triple i P (op.toByte :: data) Q := by
  intro before after hbytes hbefore
  have harrives : Arrives i.ctx.code.bytes 0 before.length := by
    rw [hbytes]
    exact Arrives.append hbefore _
  have hfetch : i.ctx.code.bytes[before.length]? = some op.toByte := by
    rw [hbytes, List.getElem?_append_right le_rfl, Nat.sub_self]
    rfl
  have hread : (i.ctx.code.bytes.drop (before.length + 1)).take data.length = data := by
    rw [hbytes, ← List.drop_drop, List.drop_left, List.cons_append, List.drop_one, List.tail_cons,
      List.take_left]
  have hin : before.length + 1 + data.length ≤ i.ctx.code.bytes.length := by
    rw [hbytes, List.length_append, List.length_append, List.length_cons]
    omega
  have hnext : (before ++ op.toByte :: data).length = before.length + 1 + data.length := by
    rw [List.length_append, List.length_cons, Nat.add_assoc, Nat.add_comm 1]
  rw [hnext]
  apply leads_instruction harrives ((fetched_iff hfetch).2 (ofByte_toByte op)) hdef hP
  intro s hs hctx
  exact hrun before.length s hs hctx harrives hfetch hread hin

end Triple

/-! ## Implementations on the stack -/

/-- What the operations of an implementation do to the items, if the stack is all it changes. -/
def OnItems : Program.Transformer Op Op.Res (List UInt256) := fun o items Q =>
  match o with
  | .pop => ∃ x rest, items = x :: rest ∧ Q x rest
  | .push item => items.length < 1024 ∧ Q () (item :: items)
  | .peek index => ∃ x, items[index]? = some x ∧ Q x items
  | .poke index item => index < items.length ∧ Q () (items.set index item)
  | .memorySize => ∀ size, Q size items
  | .gasLeft => ∀ gas, Q gas items
  | .returnData => ∀ data, Q data items
  | _ => False

section OnItems

variable {σ : Type} {s₀ s : ExecutionState σ} {items : List UInt256}

/-- The state `s₀` with other items on its stack. -/
structure WithItems (s₀ : ExecutionState σ) (items : List UInt256) (s : ExecutionState σ) :
    Prop where
  items : s.stack.items = items
  rest : s = { s₀ with stack := s.stack }

theorem WithItems.setStack {items' : List UInt256} {stack : Stack} (h : WithItems s₀ items s)
    (hitems : stack.items = items') : WithItems s₀ items' { s with stack := stack } := by
  refine ⟨hitems, ?_⟩
  rw [h.rest]

theorem handle_onItems (env : Env σ) (o : Op) {Q : o.Res → List UInt256 → Prop}
    (h : WithItems s₀ items s) (hT : OnItems o items Q) :
    (handle env o s).Meets (fun r s' => ∃ items', WithItems s₀ items' s' ∧ Q r items')
      (fun _ _ => False) fun _ => False := by
  have hlength : s.stack.height = items.length := by
    rw [← Stack.length_items, h.items]
  cases o with
  | pop =>
      obtain ⟨x, rest, rfl, hQ⟩ := hT
      obtain ⟨y, stack, hpop, hitems⟩ := Stack.pop?_of_pos (s := s.stack) (by
        rw [hlength]
        exact Nat.succ_pos _)
      rw [h.items] at hitems
      injection hitems with hx hrest
      subst hx
      simp only [handle, hpop]
      exact ⟨rest, h.setStack hrest.symm, hQ⟩
  | push item =>
      obtain ⟨hlt, hQ⟩ := hT
      obtain ⟨stack, hpush, hitems⟩ := Stack.push?_of_lt (hlength ▸ hlt) item
      simp only [handle, hpush]
      exact ⟨item :: items, h.setStack (by rw [hitems, h.items]), hQ⟩
  | peek index =>
      obtain ⟨x, hx, hQ⟩ := hT
      have hget : s.stack.get? index = some x := by
        rw [Stack.get?_eq, h.items, hx]
      simp only [handle, hget]
      exact ⟨items, h, hQ⟩
  | poke index item =>
      obtain ⟨hlt, hQ⟩ := hT
      obtain ⟨stack, hset, hitems⟩ := Stack.set?_of_lt (hlength ▸ hlt) item
      simp only [handle, hset]
      exact ⟨items.set index item, h.setStack (by rw [hitems, h.items]), hQ⟩
  | memorySize | gasLeft | returnData => exact ⟨items, h, hT _⟩
  | _ => exact hT.elim

/-- An implementation that stays on the stack succeeds and changes nothing else. -/
theorem run_onItems (env : Env σ) {α : Type} {p : Exec α} {Q : α → List UInt256 → Prop}
    (hp : p.Sat OnItems Q s.stack.items) :
    ∃ a stack, p.run env s = .ok a { s with stack := stack } ∧ Q a stack.items := by
  have hrun := Program.run_meets (h := handle env)
    (fun o items t Q h hT => handle_onItems env o h hT) (⟨rfl, rfl⟩ : WithItems s _ s) hp
  rw [Exec.run]
  cases hr : Program.run (handle env) p s with
  | ok a t =>
      rw [hr] at hrun
      obtain ⟨items, ht, hQ⟩ := hrun
      refine ⟨a, t.stack, ?_, ht.items ▸ hQ⟩
      rw [← ht.rest]
  | exit status t =>
      rw [hr] at hrun
      exact hrun.elim
  | fault f =>
      rw [hr] at hrun
      exact hrun.elim

end OnItems

/-! ## Fragments -/

section Fragment

variable {σ : Type} {i : Invocation σ} {R R' S : List UInt256 → Prop}

/-- The state `s₀`, with items on the stack that meet `R` and the given gas. -/
structure Holds (s₀ : ExecutionState σ) (R : List UInt256 → Prop) (gas : Int)
    (s : ExecutionState σ) : Prop where
  items : R s.stack.items
  gas : s.gasLeft = gas
  rest : s = { s₀ with stack := s.stack, gasLeft := s.gasLeft }

/-- Code that takes the items on the stack from `R` to `R'`, for the base costs of its instructions
and with no other effect. -/
structure Fragment (i : Invocation σ) (code : List Byte) (R R' : List UInt256 → Prop) :
    Prop where
  whole : Whole code
  runs : ∀ s₀ gas, 0 ≤ gas → gas + codeCost i.ctx.rev code < 2 ^ 63 →
    Triple i (Holds s₀ R (gas + codeCost i.ctx.rev code)) code (Holds s₀ R' gas)

theorem Fragment.consequence {code : List Byte} {T T' : List UInt256 → Prop}
    (h : Fragment i code R R') (hR : ∀ items, T items → R items)
    (hR' : ∀ items, R' items → T' items) : Fragment i code T T' := by
  refine ⟨h.whole, fun s₀ gas h0 h63 => ?_⟩
  refine (h.runs s₀ gas h0 h63).consequence ?_ ?_
  · exact fun s hs => ⟨hR _ hs.items, hs.gas, hs.rest⟩
  · exact fun s hs => ⟨hR' _ hs.items, hs.gas, hs.rest⟩

/-- What does not depend on the stack and the gas stays as it is. -/
theorem Fragment.frame {code : List Byte} {P : ExecutionState σ → Prop} {gas : Int}
    (h : Fragment i code R R') (hP : ∀ s stack gas, P s → P { s with stack := stack, gasLeft := gas })
    (h0 : 0 ≤ gas) (h63 : gas + codeCost i.ctx.rev code < 2 ^ 63) :
    Triple i (fun s => P s ∧ R s.stack.items ∧ s.gasLeft = gas + codeCost i.ctx.rev code) code
      fun s => P s ∧ R' s.stack.items ∧ s.gasLeft = gas := by
  rintro before after hbytes hbefore c ⟨s, rfl, hctx, hp, hitems, hgas⟩
  obtain ⟨c', hreaches, s', rfl, hctx', hs'⟩ := h.runs s gas h0 h63 before after hbytes hbefore _
    ⟨s, rfl, hctx, hitems, hgas, rfl⟩
  refine ⟨_, hreaches, s', rfl, hctx', ?_, hs'.items, hs'.gas⟩
  rw [hs'.rest]
  exact hP s _ _ hp

theorem Fragment.nil (h : ∀ items, R items → R' items) : Fragment i [] R R' := by
  refine ⟨whole_nil, fun s₀ gas _ _ => Triple.nil fun s hs => ?_⟩
  have hgas := hs.gas
  rw [codeCost_nil, Int.add_zero] at hgas
  exact ⟨h _ hs.items, hgas, hs.rest⟩

theorem Fragment.append {a b : List Byte} (ha : Fragment i a R S) (hb : Fragment i b S R') :
    Fragment i (a ++ b) R R' := by
  refine ⟨ha.whole.append hb.whole, fun s₀ gas h0 h63 => ?_⟩
  have hcost := codeCost_append i.ctx.rev ha.whole b
  have hnonneg := codeCost_nonneg i.ctx.rev b
  have hfirst := ha.runs s₀ (gas + codeCost i.ctx.rev b) (by omega) (by omega)
  have hsum : gas + codeCost i.ctx.rev (a ++ b) =
      gas + codeCost i.ctx.rev b + codeCost i.ctx.rev a := by omega
  rw [hsum]
  have hnonneg' := codeCost_nonneg i.ctx.rev a
  exact hfirst.append (hb.runs s₀ gas h0 (by omega)) ha.whole

/-- Repetition, with an invariant that counts the rounds. -/
theorem Fragment.times {c : Bytecode} {I : Nat → List UInt256 → Prop} {n : Nat}
    (h : ∀ k < n, Fragment i c (I k) (I (k + 1))) :
    Fragment i (Bytecode.times n c) (I 0) (I n) := by
  induction n with
  | zero => exact .nil fun _ => id
  | succ n ih =>
      have hbefore := ih fun k hk => h k (Nat.lt_succ_of_lt hk)
      exact hbefore.append (h n (Nat.lt_succ_self n))

/-- The rule for one instruction that stays on the stack. -/
theorem Fragment.instruction {op : Opcode} {data : List Byte}
    (hdef : instr.gasCosts i.ctx.rev op ≠ instr.undefined)
    (hdata : data.length = pushSize op.toByte)
    (hneed : ∀ items, R items → items.length ≤ 1024 →
      (instr.traits op).stackHeightRequired ≤ items.length ∧
        items.length + (instr.traits op).stackHeightChange ≤ 1024)
    (hrun : ∀ pos (s : ExecutionState σ), R s.stack.items → Arrives i.ctx.code.bytes 0 pos →
      i.ctx.code.bytes[pos]? = some op.toByte →
      (i.ctx.code.bytes.drop (pos + 1)).take data.length = data →
      pos + 1 + data.length ≤ i.ctx.code.bytes.length →
      ∃ stack, (invoke (op2fn op) (analysisOf i) i.ctx pos).run i.env s =
        .ok (pos + 1 + data.length) { s with stack := stack } ∧ R' stack.items) :
    Fragment i (op.toByte :: data) R R' := by
  have hcost := codeCost_instruction hdef hdata
  refine ⟨whole_instruction hdata, fun s₀ gas h0 h63 => ?_⟩
  rw [hcost] at h63 ⊢
  apply Triple.instruction hdef
  · intro s hs
    have hheight := s.stack.height_le
    obtain ⟨hrequired, hroom⟩ := hneed _ hs.items (by rwa [Stack.length_items])
    rw [Stack.length_items] at hrequired hroom
    rw [hs.gas]
    exact ⟨by omega, h63, hrequired, hroom⟩
  · intro pos s hs hctx harrives hfetch hread hin
    obtain ⟨stack, heq, hitems⟩ := hrun pos
      { s with gasLeft := s.gasLeft - instr.gasCosts i.ctx.rev op } hs.items harrives hfetch hread
      hin
    refine ⟨_, heq, hctx, hitems, ?_, ?_⟩
    · show s.gasLeft - instr.gasCosts i.ctx.rev op = gas
      have hgas := hs.gas
      omega
    · rw [hs.rest]

/-- A basic instruction. -/
theorem Fragment.basic {op : Opcode} {f : Context → Exec Unit} (hop : op2fn op = .basic f)
    (hdef : instr.gasCosts i.ctx.rev op ≠ instr.undefined)
    (hneed : ∀ items, R items → items.length ≤ 1024 →
      (instr.traits op).stackHeightRequired ≤ items.length ∧
        items.length + (instr.traits op).stackHeightChange ≤ 1024)
    (hsat : ∀ items, R items → (f i.ctx).Sat OnItems (fun _ items' => R' items') items) :
    Fragment i (Bytecode.ofOpcode op) R R' := by
  have hpush : ∀ n, op ≠ .push n := by
    rintro n rfl
    cases hop
  have hdata : ([] : List Byte).length = pushSize op.toByte := (pushSize_toByte hpush).symm
  apply Fragment.instruction hdef hdata hneed
  intro pos s hs _ _ _ _
  obtain ⟨_, stack, hrun, hitems⟩ := run_onItems i.env (hsat _ hs)
  refine ⟨stack, ?_, hitems⟩
  rw [hop, invoke, Exec.run, Program.run_bind, ← Exec.run, hrun]
  rfl

/-- PUSH puts its data on the stack. -/
theorem Fragment.push {n : Fin 32} {data : List Byte} (hlength : data.length = n.val + 1)
    (hroom : ∀ items, R items → items.length < 1024)
    (hR : ∀ items, R items → R' (beLoad data :: items)) :
    Fragment i ((Opcode.push n).toByte :: data) R R' := by
  have hsize : pushSize (Opcode.push n).toByte = n.val + 1 := pushSize_eq (ofByte_toByte _)
  have hdef : instr.gasCosts i.ctx.rev (.push n) ≠ instr.undefined := by
    rw [Advanced.gasCosts_push]
    decide
  apply Fragment.instruction hdef (hlength.trans hsize.symm)
  · intro items hitems _
    have hlt := hroom items hitems
    exact ⟨Int.natCast_nonneg _, by simp only [instr.traits]; omega⟩
  · intro pos s hs harrives hfetch hread hin
    have hlt := hroom _ hs
    rw [Stack.length_items] at hlt
    obtain ⟨stack, hpush, hitems⟩ := Stack.push?_of_lt hlt (beLoad data)
    refine ⟨stack, ?_, by rw [hitems]; exact hR _ hs⟩
    have hdata : ((analysisOf i).paddedCode.drop (pos + 1)).take (n.val + 1) = data := by
      rw [analysisOf, pushData_paddedCode _ (by omega), ← hlength, hread]
    show (Baseline.push n (analyze i.uninitCode i.ctx.code.bytes) pos).run i.env s = _
    rw [run_push i.env s harrives hfetch (ofByte_toByte _)]
    rw [analysisOf] at hdata
    rw [hdata]
    simp only [handle, hpush, Outcome.bind]
    rw [hlength, Nat.add_assoc pos, Nat.add_comm 1]

end Fragment

/-! ## Instructions on the stack -/

section Instructions

open Instructions

variable {Q : Unit → List UInt256 → Prop} {x y : UInt256} {items : List UInt256} {ctx : Context}

theorem onItems_dup {n : Fin 16} (hx : items[n.val]? = some x) (hroom : items.length < 1024)
    (h : Q () (x :: items)) : (dup n ctx).Sat OnItems Q items :=
  ⟨x, hx, hroom, h⟩

/-- DUP copies an item that is there. -/
theorem Fragment.dup {σ : Type} {i : Invocation σ} {n : Fin 16} {R R' : List UInt256 → Prop}
    (hneed : ∀ items, R items → n.val < items.length ∧ items.length < 1024)
    (hR : ∀ items x, R items → items[n.val]? = some x → R' (x :: items)) :
    Fragment i (Bytecode.ofOpcode (.dup n)) R R' := by
  have hcost : instr.gasCosts i.ctx.rev (.dup n) = 3 := by
    cases i.ctx.rev <;> rfl
  apply Fragment.basic rfl (by rw [hcost]; decide)
  · intro items hitems _
    obtain ⟨hlow, hhigh⟩ := hneed items hitems
    constructor
    · show ((n.val + 1 : Nat) : Int) ≤ _
      omega
    · show (items.length : Int) + 1 ≤ 1024
      omega
  · intro items hitems
    obtain ⟨hlow, hhigh⟩ := hneed items hitems
    have hx := List.getElem?_eq_getElem hlow
    exact onItems_dup hx hhigh (hR items _ hitems hx)

end Instructions

/-! ## Jumps and the end of the code -/

section Jumps

variable {σ : Type} {i : Invocation σ} {s₀ : ExecutionState σ} {gas : Int} {pos : Nat}

end Jumps

/-! ## Whole executions -/

section Executions

variable {σ : Type} {i j : Invocation σ} {r : ExecutionResult}

end Executions

end Ivmone
