import Ivmone.Decoding

/-!
# The code analysis of Baseline

The loop of `baseline::analyze` ends where the decoding of the code leaves it, possibly beyond its
end. The padded code starts with the code and ends with a STOP there, and the map marks the
JUMPDESTs among the instructions of the code.
-/

set_option autoImplicit false

namespace Ivmone.Baseline

/-! ## The scan -/

/-- The loop goes on with the next instruction. -/
theorem scan_of_some {code : List Byte} {i : Nat} {b : Byte} (hb : code[i]? = some b)
    (map : List Bool) :
    scan code i map = scan code (i + 1 + pushSize b)
      (if b = Opcode.jumpdest.toByte then map.set i true else map) := by
  obtain ⟨hlt, rfl⟩ := List.getElem?_eq_some_iff.1 hb
  rw [scan, dif_pos hlt]
  dsimp only
  by_cases hpush : pushSize code[i] = 0
  · have hnot : ¬ ((Opcode.push 0).toNat : Int) ≤ code[i].toInt := by
      rw [push_le_toInt_iff]
      exact not_not.2 hpush
    rw [if_neg hnot, hpush, Nat.add_zero]
    split <;> rfl
  · have hne : code[i] ≠ Opcode.jumpdest.toByte := by
      intro h
      rw [h] at hpush
      exact hpush rfl
    rw [if_pos ((push_le_toInt_iff _).2 hpush), if_neg hne, sub_eq_pushSize hpush]
    congr 1
    omega

theorem scan_of_le {code : List Byte} {i : Nat} (h : code.length ≤ i) (map : List Bool) :
    scan code i map = (i, map) := by
  rw [scan, dif_neg (Nat.not_lt.2 h)]

/-- The offset at which the decoding leaves the code. -/
def codeEnd (code : List Byte) : Nat := (scan code 0 (List.replicate code.length false)).1

/-- The loop ends at the only offset that the decoding arrives at and that is not in the code. -/
theorem scan_fst {code : List Byte} {i : Nat} (map : List Bool) :
    Arrives code i (scan code i map).1 ∧ code.length ≤ (scan code i map).1 ∧
      ∀ d, Arrives code i d → code.length ≤ d → d = (scan code i map).1 := by
  -- on the bytes left; positions past the code have no successor, so the last one is unique
  induction hn : code.length - i using Nat.strong_induction_on generalizing i map with
  | h n ih =>
      by_cases hlt : i < code.length
      · have hb : code[i]? = some code[i] := List.getElem?_eq_getElem hlt
        rw [scan_of_some hb]
        obtain ⟨h1, h2, h3⟩ := ih (code.length - (i + 1 + pushSize code[i])) (by omega) _ rfl
        refine ⟨h1.head hb, h2, fun d hd hle => ?_⟩
        rcases hd.eq_or_head with rfl | ⟨b, hb', h'⟩
        · omega
        · rw [hb] at hb'
          injection hb' with hb'
          subst hb'
          exact h3 d h' hle
      · rw [scan_of_le (Nat.le_of_not_lt hlt)]
        refine ⟨.refl, Nat.le_of_not_lt hlt, fun d hd _ => ?_⟩
        rcases hd.eq_or_head with rfl | ⟨b, hb, -⟩
        · rfl
        · obtain ⟨hlt', -⟩ := List.getElem?_eq_some_iff.1 hb
          exact absurd hlt' hlt

theorem length_le_codeEnd (code : List Byte) : code.length ≤ codeEnd code := (scan_fst _).2.1

/-- The decoding does not go beyond the end of the code. -/
theorem le_codeEnd {code : List Byte} {d : Nat} (h : Arrives code 0 d) : d ≤ codeEnd code := by
  by_cases hle : code.length ≤ d
  · exact Nat.le_of_eq ((scan_fst _).2.2 d h hle)
  · have := length_le_codeEnd code
    omega

theorem eq_codeEnd {code : List Byte} {d : Nat} (h : Arrives code 0 d) (hle : code.length ≤ d) :
    d = codeEnd code := (scan_fst _).2.2 d h hle

theorem getD_set_true {map : List Bool} {i : Nat} (hi : i < map.length) (d : Nat) :
    (map.set i true).getD d false = true ↔ d = i ∨ map.getD d false = true := by
  by_cases hd : d = i
  · subst hd
    simp [hi]
  · simp [List.getElem?_set_ne (Ne.symm hd), hd]

/-- The loop meets a JUMPDEST at its first instruction or later. -/
theorem arrives_jumpdest_iff {code : List Byte} {i d : Nat} {b : Byte} (hb : code[i]? = some b) :
    (Arrives code i d ∧ code[d]? = some Opcode.jumpdest.toByte) ↔
      (d = i ∧ b = Opcode.jumpdest.toByte) ∨
        (Arrives code (i + 1 + pushSize b) d ∧ code[d]? = some Opcode.jumpdest.toByte) := by
  constructor
  · rintro ⟨h, hd⟩
    rcases h.eq_or_head with rfl | ⟨b', hb', h'⟩
    · rw [hb] at hd
      injection hd with hd
      exact .inl ⟨rfl, hd⟩
    · rw [hb] at hb'
      injection hb' with hb'
      subst hb'
      exact .inr ⟨h', hd⟩
  · rintro (⟨rfl, hd⟩ | ⟨h, hd⟩)
    · exact ⟨.refl, by rw [hb, hd]⟩
    · exact ⟨h.head hb, hd⟩

/-- The map marks the JUMPDESTs that the loop meets. -/
theorem scan_snd {code : List Byte} {i : Nat} {map : List Bool} (hmap : map.length = code.length)
    (d : Nat) :
    (scan code i map).2.length = code.length ∧
      ((scan code i map).2.getD d false = true ↔
        map.getD d false = true ∨ (Arrives code i d ∧ code[d]? = some Opcode.jumpdest.toByte)) := by
  -- on the bytes left; `map` holds the marks made before `i`
  induction hn : code.length - i using Nat.strong_induction_on generalizing i map with
  | h n ih =>
      by_cases hlt : i < code.length
      · have hb : code[i]? = some code[i] := List.getElem?_eq_getElem hlt
        rw [scan_of_some hb]
        have hlen : (if code[i] = Opcode.jumpdest.toByte then map.set i true else map).length =
            code.length := by
          split
          · rw [List.length_set, hmap]
          · exact hmap
        obtain ⟨h1, h2⟩ := ih (code.length - (i + 1 + pushSize code[i])) (by omega) hlen rfl
        refine ⟨h1, h2.trans ?_⟩
        rw [arrives_jumpdest_iff hb]
        by_cases hj : code[i] = Opcode.jumpdest.toByte
        · rw [if_pos hj, getD_set_true (by omega)]
          constructor
          · rintro ((rfl | h) | h)
            · exact .inr (.inl ⟨rfl, hj⟩)
            · exact .inl h
            · exact .inr (.inr h)
          · rintro (h | ⟨rfl, -⟩ | h)
            · exact .inl (.inr h)
            · exact .inl (.inl rfl)
            · exact .inr h
        · rw [if_neg hj]
          constructor
          · rintro (h | h)
            · exact .inl h
            · exact .inr (.inr h)
          · rintro (h | ⟨-, h⟩ | h)
            · exact .inl h
            · exact absurd h hj
            · exact .inr h
      · rw [scan_of_le (Nat.le_of_not_lt hlt)]
        refine ⟨hmap, ⟨.inl, ?_⟩⟩
        rintro (h | ⟨h, hd⟩)
        · exact h
        · -- past the code no byte is read, so nothing is marked
          have hle := h.le
          obtain ⟨hlt', -⟩ := List.getElem?_eq_some_iff.1 hd
          omega

/-! ## The analysis -/

variable (uninit : Nat → Byte) (code : List Byte)

/-- The buffer ends with the STOP that the loop's last offset points to. -/
theorem length_paddedCode : (analyze uninit code).paddedCode.length = codeEnd code + 1 := by
  have hle := length_le_codeEnd code
  unfold codeEnd at hle ⊢
  simp only [analyze, List.length_set]
  rw [length_overwrite]
  · simp
  · simp
    omega

/-- The buffer starts with the code. -/
theorem getElem?_paddedCode_of_lt {d : Nat} (h : d < code.length) :
    (analyze uninit code).paddedCode[d]? = code[d]? := by
  have hle := length_le_codeEnd code
  unfold codeEnd at hle
  simp only [analyze]
  rw [List.getElem?_set_ne (by omega), List.getElem?_set_ne (by omega)]
  simp only [overwrite, List.take_zero, List.nil_append]
  rw [List.getElem?_append_left h]

theorem getElem?_paddedCode_codeEnd :
    (analyze uninit code).paddedCode[codeEnd code]? = some Opcode.stop.toByte := by
  have hlen := length_paddedCode uninit code
  unfold codeEnd at hlen ⊢
  simp only [analyze, List.length_set] at hlen ⊢
  rw [List.getElem?_set_self (by rw [List.length_set]; omega)]

/-- The byte after the code is a STOP. -/
theorem getElem?_paddedCode_length :
    (analyze uninit code).paddedCode[code.length]? = some Opcode.stop.toByte := by
  have hle := length_le_codeEnd code
  by_cases hend : codeEnd code = code.length
  · rw [← hend]
    exact getElem?_paddedCode_codeEnd uninit code
  · have hlen := length_paddedCode uninit code
    unfold codeEnd at hle hend hlen
    simp only [analyze, List.length_set] at hlen ⊢
    rw [List.getElem?_set_ne hend, List.getElem?_set_self (by omega)]

/-- The bytes between the two STOPs are not initialised. -/
theorem getElem?_paddedCode_between {d : Nat} (h1 : code.length < d) (h2 : d < codeEnd code) :
    (analyze uninit code).paddedCode[d]? = some (uninit d) := by
  unfold codeEnd at h2
  simp only [analyze]
  rw [List.getElem?_set_ne (by omega), List.getElem?_set_ne (by omega)]
  simp only [overwrite, List.take_zero, List.nil_append, Nat.zero_add]
  rw [List.getElem?_append_right (by omega), List.getElem?_drop,
    Nat.add_sub_cancel' (by omega), List.getElem?_map, List.getElem?_range (by omega)]
  rfl

/-- The interpreter's view of the code is the code itself. -/
theorem take_paddedCode : (analyze uninit code).paddedCode.take code.length = code := by
  apply List.ext_getElem?
  intro d
  by_cases h : d < code.length
  · rw [List.getElem?_take_of_lt h, getElem?_paddedCode_of_lt uninit code h]
  · rw [List.getElem?_eq_none (by rw [List.length_take]; omega), List.getElem?_eq_none (by omega)]

theorem length_jumpdestMap : (analyze uninit code).jumpdestMap.length = code.length :=
  (scan_snd (by simp) 0).1

/-- The marked offsets are the JUMPDESTs among the instructions of the code. -/
theorem jumpdestMap_iff (d : Nat) :
    (analyze uninit code).jumpdestMap.getD d false = true ↔
      IsStart code d ∧ code[d]? = some Opcode.jumpdest.toByte := by
  refine ((scan_snd (by simp) d).2).trans ?_
  constructor
  · rintro (h | ⟨h, hd⟩)
    · rw [List.getD_eq_getElem?_getD, List.getElem?_replicate] at h
      split at h <;> cases h
    · obtain ⟨hlt, -⟩ := List.getElem?_eq_some_iff.1 hd
      exact ⟨⟨h, hlt⟩, hd⟩
  · rintro ⟨⟨h, -⟩, hd⟩
    exact .inr ⟨h, hd⟩

/-- What the opcode fetch reads at an offset that the decoding arrives at. -/
theorem getElem?_paddedCode {d : Nat} (h : Arrives code 0 d) :
    (analyze uninit code).paddedCode[d]? =
      some ((code[d]?).getD Opcode.stop.toByte) := by
  by_cases hlt : d < code.length
  · rw [getElem?_paddedCode_of_lt uninit code hlt, List.getElem?_eq_getElem hlt]
    rfl
  · rw [eq_codeEnd h (Nat.le_of_not_lt hlt), getElem?_paddedCode_codeEnd,
      List.getElem?_eq_none (length_le_codeEnd code)]
    rfl

end Ivmone.Baseline
