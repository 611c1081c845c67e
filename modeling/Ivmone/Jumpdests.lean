import Ivmone.AnalysisSpec
import Ivmone.BaselineSafety
import Mathlib.Tactic.TFAE

/-!
# The tables of the Advanced analysis

Sizes of the tables, the order of the jump destinations, and the agreement of the two interpreters
on the valid ones: `find_jumpdest` finds the BEGINBLOCK of the block that a JUMPDEST starts.
-/

set_option autoImplicit false

namespace Ivmone

/-! ## The decoded instructions -/

theorem length_decodeFrom_le (code : List Byte) (i : Nat) :
    (decodeFrom code i).length ≤ code.length - i := by
  fun_induction decodeFrom code i with
  | case1 i hlt ih =>
      rw [List.length_cons]
      omega
  | case2 i hlt => exact Nat.zero_le _

theorem length_decode_le (code : List Byte) : (decode code).length ≤ code.length :=
  length_decodeFrom_le code 0

/-- The decoding goes from left to right. -/
theorem pairwise_decodeFrom (code : List Byte) (i : Nat) :
    (decodeFrom code i).Pairwise fun x y => x.offset < y.offset := by
  fun_induction decodeFrom code i with
  | case1 i hlt ih =>
      refine List.pairwise_cons.2 ⟨fun y hy => ?_, ih⟩
      have hle := (mem_decodeFrom_iff.1 hy).1.le
      show i < y.offset
      omega
  | case2 i hlt => exact List.Pairwise.nil

theorem mem_decode_iff {code : List Byte} {x : Decoded} :
    x ∈ decode code ↔
      IsStart code x.offset ∧ ∃ b, code[x.offset]? = some b ∧ x =
        instructionAt code x.offset b := by
  rw [decode, mem_decodeFrom_iff]
  constructor
  · rintro ⟨h, b, hb, hx⟩
    exact ⟨⟨h, (List.getElem?_eq_some_iff.1 hb).1⟩, b, hb, hx⟩
  · rintro ⟨h, hb⟩
    exact ⟨h.1, hb⟩

end Ivmone

namespace Ivmone.Advanced

open Lib

variable (rev : Revision)

/-! ## Sizes -/

theorem length_entriesOf_le (gas : Int) (k : Nat) (ds : List Decoded) :
    (entriesOf rev gas k ds).length ≤ ds.length := by
  induction ds generalizing gas k with
  | nil => exact le_rfl
  | cons d ds ih =>
      have hd : (entryOf rev (gas + costOf rev d) k d).length ≤ 1 := by
        unfold entryOf
        split
        · exact Nat.zero_le _
        · exact le_rfl
      have htail := ih (gas + costOf rev d) (k + (largePushOf d).length)
      rw [entriesOf, List.length_append, List.length_cons]
      omega

theorem length_tableOf_le (k : Nat) (blocks : List (List Decoded)) :
    (tableOf rev k blocks).length ≤ blocks.length + blocks.flatten.length := by
  induction blocks generalizing k with
  | nil => exact le_rfl
  | cons b bs ih =>
      have hentries := length_entriesOf_le rev 0 k b
      have htail := ih (k + (pushValuesOf b).length)
      rw [tableOf, List.length_cons, List.length_cons, List.length_append, List.flatten_cons,
        List.length_append]
      omega

theorem length_blocksOf_le (ds : List Decoded) : (blocksOf ds).length ≤ ds.length + 1 := by
  unfold blocksOf
  induction ds with
  | nil => exact le_rfl
  | cons d ds ih =>
      rw [List.length_cons] at ih
      unfold cutBlocks
      split
      · simp only [List.length_cons]
        omega
      · simp only [List.length_cons]
        omega

theorem length_tableOf_blocksOf_le (ds : List Decoded) :
    (tableOf rev 0 (blocksOf ds)).length ≤ 2 * ds.length + 1 := by
  have h1 := length_tableOf_le rev 0 (blocksOf ds)
  have h2 := length_blocksOf_le ds
  rw [flatten_blocksOf] at h1
  omega

/-! ## Jump destinations -/

variable {rev}

/-- The jump destinations are the blocks that start with a JUMPDEST. -/
theorem mem_jumpdestsOf_iff {index : Nat} {blocks : List (List Decoded)} {j : Nat × Nat} :
    j ∈ jumpdestsOf rev index blocks ↔
      ∃ closed d b post, blocks = closed ++ (d :: b) :: post ∧
        d.opcode = Opcode.jumpdest.toByte ∧
        j = (d.offset, index + (tableOf rev 0 closed).length) := by
  induction blocks generalizing index with
  | nil => simp [jumpdestsOf]
  | cons b bs ih =>
      rw [jumpdestsOf, List.mem_append, ih]
      constructor
      · rintro (hj | ⟨closed, d, b', post, rfl, hd, rfl⟩)
        · cases b with
          | nil => cases hj
          | cons d b =>
              simp only [jumpdestOf] at hj
              split at hj
              · rename_i hd
                exact ⟨[], d, b, bs, rfl, hd, List.mem_singleton.1 hj⟩
              · cases hj
        · refine ⟨b :: closed, d, b', post, rfl, hd, ?_⟩
          rw [tableOf, List.length_cons, List.length_append,
            length_tableOf (0 + (pushValuesOf b).length) 0]
          congr 1
          omega
      · rintro ⟨closed, d, b', post, heq, hd, rfl⟩
        cases closed with
        | nil =>
            injection heq with h1 h2
            subst h1
            left
            simp [jumpdestOf, hd, tableOf]
        | cons x closed =>
            injection heq with h1 h2
            subst h1
            right
            refine ⟨closed, d, b', post, h2, hd, ?_⟩
            rw [tableOf, List.length_cons, List.length_append,
              length_tableOf (0 + (pushValuesOf b).length) 0]
            congr 1
            omega

/-- The offsets of the jump destinations are offsets of instructions, in the same order. -/
theorem sublist_jumpdestsOf (index : Nat) (blocks : List (List Decoded)) :
    ((jumpdestsOf rev index blocks).map Prod.fst).Sublist (blocks.flatten.map Decoded.offset) := by
  induction blocks generalizing index with
  | nil => exact List.Sublist.slnil
  | cons b bs ih =>
      have hhead : ((jumpdestOf index b).map Prod.fst).Sublist (b.map Decoded.offset) := by
        cases b with
        | nil => exact List.Sublist.slnil
        | cons d b =>
            rw [jumpdestOf]
            split
            · exact (List.nil_sublist _).cons_cons _
            · exact List.nil_sublist _
      rw [jumpdestsOf, List.map_append, List.flatten_cons, List.map_append]
      exact hhead.append (ih _)

theorem pairwise_jumpdestsOf (index : Nat) (code : List Byte) :
    (jumpdestsOf rev index (blocksOf (decode code))).Pairwise fun j j' => j.1 < j'.1 := by
  have hsub := @sublist_jumpdestsOf rev index (blocksOf (decode code))
  rw [flatten_blocksOf] at hsub
  have hsorted : ((decode code).map Decoded.offset).Pairwise (· < ·) :=
    List.pairwise_map.2 (pairwise_decodeFrom code 0)
  exact List.pairwise_map.1 (hsorted.sublist hsub)

theorem IsBlock.tail {d : Decoded} {b : List Decoded} {bs : List (List Decoded)}
    (h : IsBlock (d :: b) bs) :
    b = [] ∨ (endsBlock d.opcode = false ∧ atJumpdest b = false ∧ IsBlock b bs) := by
  cases h with
  | terminated hd => exact .inl rfl
  | split hd hb => exact .inl rfl
  | cons hd hb h => exact .inr ⟨hd, hb, h⟩

/-- A JUMPDEST is the first instruction of its block. -/
theorem IsBlock.eq_nil_of_jumpdest {pre : List Decoded} {d : Decoded} {b : List Decoded}
    {bs : List (List Decoded)} (h : IsBlock (pre ++ d :: b) bs)
    (hd : d.opcode = Opcode.jumpdest.toByte) : pre = [] := by
  induction pre with
  | nil => rfl
  | cons x pre ih =>
      rcases IsBlock.tail h with hnil | ⟨-, hb, h⟩
      · simp at hnil
      · have hpre := ih h
        subst hpre
        simp [atJumpdest, hd] at hb

/-- The valid jump destinations of the code are those of its blocks. -/
theorem jumpTarget_iff {code : List Byte} {d : Nat} :
    Baseline.JumpTarget code d ↔
      ∃ index, (d, index) ∈ jumpdestsOf rev 0 (blocksOf (decode code)) := by
  constructor
  · rintro ⟨hstart, hb⟩
    have hmem : instructionAt code d Opcode.jumpdest.toByte ∈ (blocksOf (decode code)).flatten := by
      rw [flatten_blocksOf, mem_decode_iff]
      exact ⟨hstart, _, hb, rfl⟩
    obtain ⟨b, hblock, hmem⟩ := List.mem_flatten.1 hmem
    obtain ⟨closed, post, hsplit⟩ := List.append_of_mem hblock
    obtain ⟨pre, rest, rfl⟩ := List.append_of_mem hmem
    -- a JUMPDEST is never inside a block, so the one it lies in begins with it
    have hpre : pre = [] := (isBlock_of_append hsplit).eq_nil_of_jumpdest rfl
    subst hpre
    exact ⟨_, mem_jumpdestsOf_iff.2 ⟨closed, _, rest, post, hsplit, rfl, rfl⟩⟩
  · rintro ⟨index, hmem⟩
    obtain ⟨closed, x, b, post, hsplit, hx, heq⟩ := mem_jumpdestsOf_iff.1 hmem
    injection heq with hd hindex
    have hdecode : x ∈ decode code := by
      rw [← flatten_blocksOf (decode code), hsplit]
      simp
    obtain ⟨hstart, b', hb', hx'⟩ := mem_decode_iff.1 hdecode
    have hop : x.opcode = b' := by rw [hx']; rfl
    rw [hd]
    exact ⟨hstart, by rw [hb', ← hop, hx]⟩

/-! ## Lookup -/

/-- A lookup in sorted offsets. -/
theorem lowerBound_cons_of_lt {x y : Int} {xs : List Int} (h : y < x) :
    lowerBound (y :: xs) x = lowerBound xs x + 1 := by
  simp [lowerBound, List.findIdx_cons, h]

theorem lowerBound_cons_of_le {x y : Int} {xs : List Int} (h : x ≤ y) :
    lowerBound (y :: xs) x = 0 := by
  simp [lowerBound, List.findIdx_cons, Int.not_lt.2 h]

/-- The lookup of an offset in a table sorted by offsets. -/
theorem lookup_sorted {js : List (Int × Int)} (hsorted : js.Pairwise fun j j' => j.1 < j'.1)
    (x : Int) :
    (∀ t, (x, t) ∈ js →
      (js.map Prod.fst)[lowerBound (js.map Prod.fst) x]? = some x ∧
        (js.map Prod.snd)[lowerBound (js.map Prod.fst) x]? = some t) ∧
    ((∀ t, (x, t) ∉ js) → (js.map Prod.fst)[lowerBound (js.map Prod.fst) x]? ≠ some x) := by
  induction js with
  | nil => simp
  | cons j js ih =>
      obtain ⟨hhead, htail⟩ := List.pairwise_cons.1 hsorted
      obtain ⟨ih1, ih2⟩ := ih htail
      rw [List.map_cons, List.map_cons]
      -- the search skips what is smaller; in a sorted list the first that is not decides
      by_cases hlt : j.1 < x
      · rw [lowerBound_cons_of_lt hlt]
        refine ⟨fun t ht => ?_, fun hnot => ?_⟩
        · rcases List.mem_cons.1 ht with heq | ht
          · rw [← heq] at hlt
            exact absurd hlt (lt_irrefl _)
          · exact ih1 t ht
        · exact ih2 fun t ht => hnot t (List.mem_cons_of_mem _ ht)
      · rw [lowerBound_cons_of_le (Int.not_lt.1 hlt)]
        refine ⟨fun t ht => ?_, fun hnot heq => ?_⟩
        · rcases List.mem_cons.1 ht with heq | ht
          · rw [← heq]
            exact ⟨rfl, rfl⟩
          · exact absurd (hhead _ ht) hlt
        · refine hnot j.2 (List.mem_cons.2 (.inl ?_))
          injection heq with heq
          rw [← heq]

section Lookup

variable {code : List Byte}

/-- The jump destinations of the code, with the index of their BEGINBLOCK. -/
def jumpdests (rev : Revision) (code : List Byte) : List (Nat × Nat) :=
  jumpdestsOf rev 0 (blocksOf (decode code))

theorem jumpdests_range (hsize : code.length < 2 ^ 30) {j : Nat × Nat}
    (h : j ∈ jumpdests rev code) :
    j.1 < 2 ^ 30 ∧ j.2 < 2 ^ 31 := by
  have htarget : Baseline.JumpTarget code j.1 := jumpTarget_iff.2 ⟨j.2, h⟩
  obtain ⟨closed, d, b, post, hsplit, -, heq⟩ := mem_jumpdestsOf_iff.1 h
  have hlen := length_tableOf_blocksOf_le rev (decode code)
  have hdecode := length_decode_le code
  rw [hsplit, tableOf_append, List.length_append] at hlen
  refine ⟨Nat.lt_trans htarget.1.2 hsize, ?_⟩
  rw [heq]
  show 0 + _ < _
  omega

/-- Offsets and indices fit in an `int`, so the tables hold them exactly. -/
theorem analyze_jumpdests (hsize : code.length < 2 ^ 30) :
    (analyze rev code).jumpdestOffsets = (jumpdests rev code).map (fun j => (j.1 : Int)) ∧
      (analyze rev code).jumpdestTargets = (jumpdests rev code).map (fun j => (j.2 : Int)) := by
  rw [analyze_eq]
  constructor
  · refine List.map_congr_left fun j hj => ?_
    have hrange := jumpdests_range hsize hj
    exact toInt32_of_lt (by omega) (by omega)
  · refine List.map_congr_left fun j hj => ?_
    have hrange := jumpdests_range hsize hj
    exact toInt32_of_lt (by omega) (by omega)

/-- `find_jumpdest` finds the BEGINBLOCK of a jump destination, and nothing else. -/
theorem findJumpdest_cases (hsize : code.length < 2 ^ 30) (d : Nat) :
    (∃ index, (d, index) ∈ jumpdests rev code ∧ findJumpdest (analyze rev code) d = index) ∨
      (¬ Baseline.JumpTarget code d ∧ findJumpdest (analyze rev code) d = -1) := by
  obtain ⟨hoffsets, htargets⟩ := @analyze_jumpdests rev code hsize
  -- the offsets were written in the order of the code
  have hsorted : ((jumpdests rev code).map fun j => ((j.1 : Int), (j.2 : Int))).Pairwise
      fun j j' => j.1 < j'.1 := by
    refine List.pairwise_map.2 ((pairwise_jumpdestsOf 0 code).imp ?_)
    intro j j' h
    exact Int.ofNat_lt.2 h
  obtain ⟨hfound, hmissing⟩ := lookup_sorted hsorted (d : Int)
  simp only [List.map_map] at hfound hmissing
  unfold findJumpdest
  rw [hoffsets, htargets]
  by_cases htarget : Baseline.JumpTarget code d
  · obtain ⟨index, hmem⟩ := jumpTarget_iff.1 htarget
    obtain ⟨h1, h2⟩ := hfound index (List.mem_map.2 ⟨_, hmem, rfl⟩)
    refine .inl ⟨index, hmem, ?_⟩
    refine (if_pos h1).trans ?_
    rw [List.getD_eq_getElem?_getD]
    exact congrArg (Option.getD · 0) h2
  · refine .inr ⟨htarget, if_neg (hmissing fun t ht => htarget ?_)⟩
    obtain ⟨⟨d', index⟩, hmem, heq⟩ := List.mem_map.1 ht
    injection heq with hd ht
    rw [Int.ofNat_inj] at hd
    subst hd
    exact jumpTarget_iff.2 ⟨index, hmem⟩

/-- The entry at the index of a block is its BEGINBLOCK. -/
theorem getElem?_instrs_of_append {closed : List (List Decoded)} {b : List Decoded}
    {post : List (List Decoded)} (h : blocksOf (decode code) = closed ++ b :: post) :
    (analyze rev code).instrs[(tableOf rev 0 closed).length]? = some (beginblockOf rev b) := by
  rw [analyze_eq]
  simp only [h, tableOf_append, tableOf]
  simp

/-- A jump destination is the offset of the JUMPDEST at the start of a block, and its index is that
of the BEGINBLOCK of the block. -/
theorem exists_block_of_mem_jumpdests {d index : Nat} (h : (d, index) ∈ jumpdests rev code) :
    ∃ closed b post,
      blocksOf (decode code) =
        closed ++ (instructionAt code d Opcode.jumpdest.toByte :: b) :: post ∧
      index = (tableOf rev 0 closed).length := by
  obtain ⟨closed, x, b, post, hsplit, hx, heq⟩ := mem_jumpdestsOf_iff.1 h
  injection heq with hd hindex
  have hdecode : x ∈ decode code := by
    rw [← flatten_blocksOf (decode code), hsplit]
    simp
  obtain ⟨-, b', -, hx'⟩ := mem_decode_iff.1 hdecode
  have hop : b' = Opcode.jumpdest.toByte := by
    rw [← hx, hx']
    rfl
  subst hd hop
  exact ⟨closed, b, post, by rw [← hx']; exact hsplit, by omega⟩

end Lookup

/-! ## Agreement -/

theorem run_opJump {σ : Type} (env : Env σ) (analysis : AdvancedCodeAnalysis)
    {s : ExecutionState σ} {d : UInt256} {stack : Stack} (hpop : s.stack.pop? = some (d, stack)) :
    (opJump analysis).run env s =
      if d.toNat ≤ 2 ^ 31 - 1 ∧ 0 ≤ findJumpdest analysis d.toNat then
        .ok (findJumpdest analysis d.toNat).toNat { s with stack := stack }
      else .exit .badJumpDestination { s with stack := stack } := by
  have hhandle : handle env .pop s = .ok d { s with stack := stack } := by simp only [handle, hpop]
  unfold Exec.run opJump popJumpTarget
  rw [Program.run_bind, Program.run_bind]
  show (((Program.run (handle env) (Program.perform Op.pop) s).bind _).bind _) = _
  rw [Program.run_perform, hhandle]
  simp only [Outcome.bind]
  by_cases haccepts : d.toNat ≤ 2 ^ 31 - 1 ∧ 0 ≤ findJumpdest analysis d.toNat
  · rw [if_pos haccepts, if_neg (Nat.not_lt.2 haccepts.1)]
    show Program.run (handle env) (jumpTo (if _ then none else some _)) _ = _
    rw [if_neg (Int.not_lt.2 haccepts.2)]
    rfl
  · rw [if_neg haccepts]
    by_cases hbig : 2 ^ 31 - 1 < d.toNat
    · rw [if_pos hbig]
      rfl
    · have hneg : findJumpdest analysis d.toNat < 0 := by omega
      rw [if_neg hbig]
      show Program.run (handle env) (jumpTo (if _ then none else some _)) _ = _
      rw [if_pos hneg]
      rfl

/-- The two interpreters accept the same jump destinations: the JUMPDEST instructions of the code.
Baseline continues at the offset of the JUMPDEST, and Advanced at the BEGINBLOCK of its block. -/
theorem jump_destinations_agree (rev : Revision) (code : List Byte)
    (hsize : code.length < 2 ^ 30) (uninit : Nat → Byte) (d : UInt256) :
    List.TFAE [
      ∃ pos, Baseline.jumpImpl (Baseline.analyze uninit code) d = pure pos,
      d.toNat ≤ 2 ^ 31 - 1 ∧ 0 ≤ findJumpdest (analyze rev code) d.toNat,
      IsStart code d.toNat ∧ code[d.toNat]? = some Opcode.jumpdest.toByte] ∧
    (∀ {σ : Type} (env : Env σ) (s : ExecutionState σ) (stack : Stack),
      s.stack.pop? = some (d, stack) →
      (opJump (analyze rev code)).run env s =
        if d.toNat ≤ 2 ^ 31 - 1 ∧ 0 ≤ findJumpdest (analyze rev code) d.toNat then
          .ok (findJumpdest (analyze rev code) d.toNat).toNat { s with stack := stack }
        else .exit .badJumpDestination { s with stack := stack }) ∧
    (IsStart code d.toNat ∧ code[d.toNat]? = some Opcode.jumpdest.toByte →
      Baseline.jumpImpl (Baseline.analyze uninit code) d = pure d.toNat ∧
      ∃ closed b post,
        blocksOf (decode code) =
          closed ++ (instructionAt code d.toNat Opcode.jumpdest.toByte :: b) :: post ∧
        findJumpdest (analyze rev code) d.toNat = (tableOf rev 0 closed).length ∧
        (analyze rev code).instrs[(tableOf rev 0 closed).length]? =
          some (beginblockOf rev (instructionAt code d.toNat Opcode.jumpdest.toByte :: b))) := by
  have hbaseline := Baseline.jumpImpl_eq uninit (by omega : code.length < 2 ^ 63) d
  have hadvanced := @findJumpdest_cases rev code hsize d.toNat
  refine ⟨?_, fun env s stack hpop => run_opJump env _ hpop, fun htarget => ⟨?_, ?_⟩⟩
  · tfae_have 1 ↔ 3 := by
      rcases hbaseline with ⟨htarget, heq⟩ | ⟨hnot, heq⟩
      · exact ⟨fun _ => htarget, fun _ => ⟨_, heq⟩⟩
      · refine ⟨fun ⟨pos, hpos⟩ => ?_, fun htarget => absurd htarget hnot⟩
        rw [heq] at hpos
        cases hpos
    tfae_have 2 ↔ 3 := by
      rcases hadvanced with ⟨index, hmem, heq⟩ | ⟨hnot, heq⟩
      · have htarget : Baseline.JumpTarget code d.toNat := jumpTarget_iff.2 ⟨index, hmem⟩
        have hlt : d.toNat < code.length := htarget.1.2
        rw [heq]
        exact ⟨fun _ => htarget, fun _ => ⟨by omega, Int.natCast_nonneg _⟩⟩
      · rw [heq]
        refine ⟨fun h => ?_, fun htarget => absurd htarget hnot⟩
        omega
    tfae_finish
  · rcases hbaseline with ⟨-, heq⟩ | ⟨hnot, -⟩
    · exact heq
    · exact absurd htarget hnot
  · rcases hadvanced with ⟨index, hmem, heq⟩ | ⟨hnot, -⟩
    · obtain ⟨closed, b, post, hsplit, rfl⟩ := exists_block_of_mem_jumpdests hmem
      exact ⟨closed, b, post, hsplit, heq, getElem?_instrs_of_append hsplit⟩
    · exact absurd htarget hnot

/-- Both interpreters accept a jump to the JUMPDEST that is the whole code. -/
theorem jump_destinations_agree_jumpdest :
    Baseline.jumpImpl (Baseline.analyze (fun _ => 0) [Opcode.jumpdest.toByte]) 0 = pure 0 ∧
      0 ≤ findJumpdest (analyze .berlin [Opcode.jumpdest.toByte]) (0 : UInt256).toNat := by
  have h := jump_destinations_agree .berlin [Opcode.jumpdest.toByte] (by decide) (fun _ => 0) 0
  have htarget : IsStart [Opcode.jumpdest.toByte] (0 : UInt256).toNat ∧
      [Opcode.jumpdest.toByte][(0 : UInt256).toNat]? = some Opcode.jumpdest.toByte :=
    ⟨⟨.refl, by decide⟩, rfl⟩
  have hguard := (h.1.out 1 2 rfl rfl).2 htarget
  exact ⟨(h.2.2 htarget).1, hguard.2⟩

end Ivmone.Advanced
