import Ivmone.Lib.Search
import Ivmone.Jumpdests
import Mathlib.Order.Fin.Basic

/-!
# Searches for jump destinations

The lookups of `test/internal_benchmarks/find_jumpdest_bench.cpp`: a linear search,
`std::lower_bound` and two binary searches, the last and the second also on tables that are split
into keys and values. They agree on every strictly sorted table (`jumpdest_searches_agree`), hence on the tables of the
Advanced analysis with `find_jumpdest`, and the reverse lookup of `test/utils/dump.cpp` inverts it
(`jumpdest_tables_invert`).

An access outside of a table, or an overflow of an `int`, is undefined: the result is `none`.
-/

set_option autoImplicit false

namespace Ivmone

open Lib

namespace JumpdestSearch

variable {T : Type} [LinearOrder T]

/-! ## The searches -/

/-- An element of an array, by an `int`. -/
def index {α : Type} (arr : List α) (i : Int) : Option α := if 0 ≤ i then arr[i.toNat]? else none

def linear (minusOne : T) : List (T × T) → T → T
  | [], _ => minusOne
  | e :: rest, offset => if e.1 = offset then e.2 else linear minusOne rest offset

/-- The lookup by `std::lower_bound`, on a column of keys and one of values. -/
def lowerBoundIn (minusOne : T) (keys values : List T) (offset : T) : Option T :=
  let it := firstNotLess keys offset
  if keys[it]? = some offset then values[it]? else some minusOne

def lowerBound (minusOne : T) (table : List (T × T)) (offset : T) : Option T :=
  lowerBoundIn minusOne (table.map Prod.fst) (table.map Prod.snd) offset

/-- The loop of `binary_search`. -/
def binarySearchLoop (minusOne : T) (arr : List (T × T)) (offset : T) (first last : Int) :
    Option T :=
  if first ≤ last then
    if 2 ^ 31 ≤ first + last then none
    else
      let middle := (first + last) / 2
      match index arr middle with
      | none => none
      | some e =>
          if e.1 = offset then some e.2
          else if e.1 < offset then binarySearchLoop minusOne arr offset (middle + 1) last
          else binarySearchLoop minusOne arr offset first (middle - 1)
  else some minusOne
termination_by (last + 1 - first).toNat
decreasing_by
  · omega
  · omega

def binarySearch (minusOne : T) (arr : List (T × T)) (offset : T) : Option T :=
  binarySearchLoop minusOne arr offset 0 (toInt32 arr.length - 1)

/-- The loop of `binary_search2`, on a column of keys and one of values. -/
def binarySearch2Loop (minusOne : T) (keys values : List T) (offset : T) (begin size : Nat) :
    Option T :=
  if 0 < size then
    let half := size / 2
    let it := begin + half
    match keys[it]? with
    | none => none
    | some key =>
        if key = offset then values[it]?
        else if key < offset then
          binarySearch2Loop minusOne keys values offset (it + 1) (size - (half + 1))
        else binarySearch2Loop minusOne keys values offset begin half
  else some minusOne
termination_by size
decreasing_by
  · omega
  · omega

def binarySearch2 (minusOne : T) (table : List (T × T)) (offset : T) : Option T :=
  binarySearch2Loop minusOne (table.map Prod.fst) (table.map Prod.snd) offset 0 table.length

/-- The variants for tables that are split into keys and values. -/
def lowerBoundSplit (minusOne : T) (keys values : List T) (offset : T) : Option T :=
  lowerBoundIn minusOne keys values offset

def binarySearch2Split (minusOne : T) (keys values : List T) (offset : T) : Option T :=
  binarySearch2Loop minusOne keys values offset 0 keys.length

/-- The functions that are measured. -/
inductive FindFn
  | linear
  | lowerBound
  | binarySearch
  | binarySearch2
  | lowerBoundSplit
  | binarySearch2Split
  deriving DecidableEq

/-- A function on a table, which is split for those that need it. -/
def FindFn.find (minusOne : T) (table : List (T × T)) (offset : T) : FindFn → Option T
  | linear => some (JumpdestSearch.linear minusOne table offset)
  | lowerBound => JumpdestSearch.lowerBound minusOne table offset
  | binarySearch => JumpdestSearch.binarySearch minusOne table offset
  | binarySearch2 => JumpdestSearch.binarySearch2 minusOne table offset
  | lowerBoundSplit =>
      JumpdestSearch.lowerBoundSplit minusOne (table.map Prod.fst) (table.map Prod.snd) offset
  | binarySearch2Split =>
      JumpdestSearch.binarySearch2Split minusOne (table.map Prod.fst) (table.map Prod.snd) offset

/-! ## What they find -/

section Sorted

variable (minusOne offset : T) {keys values : List T} {table : List (T × T)}

theorem linear_finds (table : List (T × T)) :
    Finds (table.map Prod.fst) (table.map Prod.snd) minusOne offset
      (linear minusOne table offset) := by
  induction table with
  | nil => exact .inr ⟨List.not_mem_nil, rfl⟩
  | cons e rest ih =>
      unfold linear
      by_cases heq : e.1 = offset
      · rw [if_pos heq]
        exact .inl ⟨0, by rw [← heq]; rfl, rfl⟩
      · rw [if_neg heq]
        rcases ih with ⟨i, hi, hr⟩ | ⟨hnot, hr⟩
        · exact .inl ⟨i + 1, hi, hr⟩
        · refine .inr ⟨?_, hr⟩
          rw [List.map_cons, List.mem_cons, not_or]
          exact ⟨fun h => heq h.symm, hnot⟩

theorem lowerBoundIn_finds (hsorted : keys.Pairwise (· < ·))
    (hlength : values.length = keys.length) :
    ∃ r, lowerBoundIn minusOne keys values offset = some r ∧
      Finds keys values minusOne offset r := by
  unfold lowerBoundIn
  by_cases hmem : offset ∈ keys
  · have hget := getElem?_firstNotLess hsorted hmem
    obtain ⟨hlt, -⟩ := List.getElem?_eq_some_iff.1 hget
    have hvalue := List.getElem?_eq_getElem (hlength ▸ hlt)
    exact ⟨_, (if_pos hget).trans hvalue, .inl ⟨_, hget, hvalue⟩⟩
  · exact ⟨minusOne, if_neg fun h => hmem (List.mem_of_getElem? h), .inr ⟨hmem, rfl⟩⟩

/-- The bounds of the loop are indices, and their sum does not overflow. -/
theorem binarySearchLoop_finds (hsorted : (table.map Prod.fst).Pairwise (· < ·))
    (hsize : table.length ≤ 2 ^ 30) {first last : Int} (hfirst : 0 ≤ first)
    (hlast : last < table.length)
    (hconfined : Confined (table.map Prod.fst) offset first.toNat (last + 1).toNat) :
    ∃ r, binarySearchLoop minusOne table offset first last = some r ∧
      Finds (table.map Prod.fst) (table.map Prod.snd) minusOne offset r := by
  fun_induction binarySearchLoop minusOne table offset first last with
  | case1 first last hle hover => omega
  | case2 first last hle hover middle hnone =>
      have hmiddle : 0 ≤ middle ∧ middle < table.length := by omega
      rw [index, if_pos hmiddle.1, List.getElem?_eq_none_iff] at hnone
      omega
  | case3 first last hle hover middle e hsome heq =>
      have hmiddle : 0 ≤ middle := by omega
      rw [index, if_pos hmiddle] at hsome
      refine ⟨_, rfl, .inl ⟨middle.toNat, ?_, ?_⟩⟩
      · rw [List.getElem?_map, hsome, Option.map_some, heq]
      · rw [List.getElem?_map, hsome, Option.map_some]
  | case4 first last hle hover middle e hsome heq hlt ih =>
      have hmiddle : 0 ≤ middle := by omega
      rw [index, if_pos hmiddle] at hsome
      have hkey : (table.map Prod.fst)[middle.toNat]? = some e.1 := by
        rw [List.getElem?_map, hsome, Option.map_some]
      have habove := hconfined.above hsorted hkey hlt
      exact ih (by omega) hlast (by rwa [show (middle + 1).toNat = middle.toNat + 1 by omega])
  | case5 first last hle hover middle e hsome heq hlt ih =>
      have hmiddle : 0 ≤ middle := by omega
      rw [index, if_pos hmiddle] at hsome
      have hkey : (table.map Prod.fst)[middle.toNat]? = some e.1 := by
        rw [List.getElem?_map, hsome, Option.map_some]
      have hgt : offset < e.1 := lt_of_le_of_ne (le_of_not_gt hlt) fun h => heq h.symm
      have hbelow := hconfined.below hsorted hkey hgt
      exact ih hfirst (by omega) (by rwa [show (middle - 1 + 1).toNat = middle.toNat by omega])
  | case6 first last hle => exact ⟨_, rfl, .inr ⟨hconfined.not_mem (by omega), rfl⟩⟩

theorem binarySearch2Loop_finds (hsorted : keys.Pairwise (· < ·))
    (hlength : values.length = keys.length) {begin size : Nat} (hin : begin + size ≤ keys.length)
    (hconfined : Confined keys offset begin (begin + size)) :
    ∃ r, binarySearch2Loop minusOne keys values offset begin size = some r ∧
      Finds keys values minusOne offset r := by
  fun_induction binarySearch2Loop minusOne keys values offset begin size with
  | case1 begin size hpos half it hnone =>
      rw [List.getElem?_eq_none_iff] at hnone
      omega
  | case2 begin size hpos half it hsome =>
      have hvalue := List.getElem?_eq_getElem (l := values) (i := it) (by omega)
      exact ⟨_, hvalue, .inl ⟨it, hsome, hvalue⟩⟩
  | case3 begin size hpos half it key hsome heq hlt ih =>
      have habove := hconfined.above hsorted hsome hlt
      exact ih (by omega) (by rwa [show it + 1 + (size - (half + 1)) = begin + size by omega])
  | case4 begin size hpos half it key hsome heq hlt ih =>
      have hgt : offset < key := lt_of_le_of_ne (le_of_not_gt hlt) fun h => heq h.symm
      exact ih (by omega) (hconfined.below hsorted hsome hgt)
  | case5 begin size hpos => exact ⟨_, rfl, .inr ⟨hconfined.not_mem (by omega), rfl⟩⟩

theorem find_finds (hsorted : (table.map Prod.fst).Pairwise (· < ·))
    (hsize : table.length ≤ 2 ^ 30) (fn : FindFn) :
    ∃ r, fn.find minusOne table offset = some r ∧
      Finds (table.map Prod.fst) (table.map Prod.snd) minusOne offset r := by
  have hlength : (table.map Prod.snd).length = (table.map Prod.fst).length := by
    rw [List.length_map, List.length_map]
  have hkeys : (table.map Prod.fst).length = table.length := List.length_map _
  have hall := Confined.all (table.map Prod.fst) offset
  have hloop := binarySearch2Loop_finds minusOne offset hsorted hlength (Nat.zero_add _).le
    (by rwa [Nat.zero_add])
  cases fn with
  | linear => exact ⟨_, rfl, linear_finds minusOne offset table⟩
  | lowerBound => exact lowerBoundIn_finds minusOne offset hsorted hlength
  | lowerBoundSplit => exact lowerBoundIn_finds minusOne offset hsorted hlength
  | binarySearch =>
      have hlast : toInt32 table.length = table.length := toInt32_of_lt (by omega) (by omega)
      rw [hkeys] at hall
      refine binarySearchLoop_finds minusOne offset hsorted hsize le_rfl (by omega) ?_
      rwa [hlast, Int.sub_add_cancel, Int.toNat_natCast]
  | binarySearch2 =>
      rw [hkeys] at hloop
      exact hloop
  | binarySearch2Split => exact hloop

end Sorted

end JumpdestSearch

/-- All searches are defined on every strictly sorted table with at most `2 ^ 30` elements, and find
the same: the value of the key, or `T(-1)` if the key is missing. -/
theorem jumpdest_searches_agree {T : Type} [LinearOrder T] (minusOne : T) (table : List (T × T))
    (hsorted : (table.map Prod.fst).Pairwise (· < ·)) (hsize : table.length ≤ 2 ^ 30)
    (offset : T) :
    ∃ r, Finds (table.map Prod.fst) (table.map Prod.snd) minusOne offset r ∧
      ∀ fn : JumpdestSearch.FindFn, fn.find minusOne table offset = some r := by
  have hlinear := JumpdestSearch.linear_finds minusOne offset table
  refine ⟨_, hlinear, fun fn => ?_⟩
  obtain ⟨r, hfind, hr⟩ := JumpdestSearch.find_finds minusOne offset hsorted hsize fn
  rw [hfind, hr.unique hsorted hlinear]

theorem jumpdest_searches_agree_two :
    ∃ r, Finds [(3 : Int), 8] [4, 9] (-1) 8 r ∧
      ∀ fn : JumpdestSearch.FindFn, fn.find (-1) [((3 : Int), (4 : Int)), (8, 9)] 8 = some r :=
  jumpdest_searches_agree (-1) [(3, 4), (8, 9)] (by decide) (by decide) 8

/-! ## The benchmarks -/

namespace JumpdestSearch

/-- The conversions of a number to an integer type and back. -/
structure IntType (T : Type) [LinearOrder T] where
  ofInt : Int → T
  toInt : T → Int
  lt_iff : ∀ a b, a < b ↔ toInt a < toInt b
  toInt_ofInt : ∀ n : Nat, n < 2 ^ 16 → toInt (ofInt n) = n
  odd_minusOne : toInt (ofInt (-1)) % 2 = 1

def int : IntType Int where
  ofInt := toInt32
  toInt n := n
  lt_iff _ _ := Iff.rfl
  toInt_ofInt n h := toInt32_of_lt (by omega) (by omega)
  odd_minusOne := by decide

def jumpdestMapSize : Nat := 0x6000

section Benchmark

variable {T : Type} [LinearOrder T] (type : IntType T)

/-- `map_builder<T>::map`. -/
def map : List (T × T) :=
  (List.range jumpdestMapSize).map fun i =>
    (type.ofInt (2 * i + 1 : Nat), type.ofInt (2 * i + 2 : Nat))

/-- `find_jumpdest`: the error that the benchmark reports for a function, unless the function is
undefined. -/
def findJumpdest (fn : FindFn) (size : Nat) (needle : Int) : Option (Option String) := do
  let needle := type.ofInt needle
  let x ← fn.find (type.ofInt (-1)) ((map type).take size) needle
  if type.toInt needle % 2 = 1 then
    if type.toInt x ≠ type.toInt needle + 1 then pure (some "incorrect element found")
    else pure none
  else if type.toInt x ≠ type.toInt (type.ofInt (-1)) then
    pure (some "element should not have been found")
  else pure none

/-- The elements of the table that is searched. -/
theorem getElem?_map {size i : Nat} (hsize : size ≤ jumpdestMapSize) (hi : i < size) :
    ((map type).take size)[i]? =
      some (type.ofInt (2 * i + 1 : Nat), type.ofInt (2 * i + 2 : Nat)) := by
  rw [List.getElem?_take_of_lt hi, map, List.getElem?_map,
    List.getElem?_range (Nat.lt_of_lt_of_le hi hsize), Option.map_some]

end Benchmark

end JumpdestSearch


namespace JumpdestSearch

open Advanced

/-- `get_jumpdest_offset`: the offset of the JUMPDEST at an index of the instruction table. -/
def getJumpdestOffset (analysis : AdvancedCodeAnalysis) (index : Nat) : Int :=
  linear (-1) ((analysis.jumpdestTargets.map (· % 2 ^ 64)).zip analysis.jumpdestOffsets) index

variable {rev : Revision} {code : List Byte}

theorem le_of_mem_jumpdestsOf {index : Nat} {blocks : List (List Decoded)} {j : Nat × Nat}
    (h : j ∈ jumpdestsOf rev index blocks) : index ≤ j.2 := by
  obtain ⟨closed, d, b, post, -, -, rfl⟩ := mem_jumpdestsOf_iff.1 h
  exact Nat.le_add_right _ _

/-- The blocks are written in the order of the code. -/
theorem pairwise_targets (index : Nat) (blocks : List (List Decoded)) :
    (jumpdestsOf rev index blocks).Pairwise fun j j' => j.2 < j'.2 := by
  induction blocks generalizing index with
  | nil => exact List.Pairwise.nil
  | cons b bs ih =>
      rw [jumpdestsOf, List.pairwise_append]
      have hhead : ∀ j ∈ jumpdestOf index b, j.2 = index := by
        intro j hj
        cases b with
        | nil => cases hj
        | cons d b =>
            rw [jumpdestOf] at hj
            split at hj
            · rw [List.mem_singleton.1 hj]
            · cases hj
      refine ⟨?_, ih _, fun j hj j' hj' => ?_⟩
      · cases b with
        | nil => exact List.Pairwise.nil
        | cons d b =>
            rw [jumpdestOf]
            split
            · exact List.pairwise_singleton _ _
            · exact List.Pairwise.nil
      · have hlater := le_of_mem_jumpdestsOf hj'
        rw [hhead j hj]
        omega

/-- The tables of an analysis: both are sorted, and the targets are array indices. -/
structure Sorted (analysis : AdvancedCodeAnalysis) : Prop where
  length : analysis.jumpdestTargets.length = analysis.jumpdestOffsets.length
  size : analysis.jumpdestOffsets.length ≤ 2 ^ 30
  offsets : analysis.jumpdestOffsets.Pairwise (· < ·)
  targets : (analysis.jumpdestTargets.map (· % 2 ^ 64)).Pairwise (· < ·)
  range : ∀ target ∈ analysis.jumpdestTargets, target % 2 ^ 64 = target

theorem sorted_analyze (rev : Revision) {code : List Byte} (hsize : code.length < 2 ^ 30) :
    Sorted (analyze rev code) := by
  obtain ⟨hoffsets, htargets⟩ := @analyze_jumpdests rev code hsize
  have hrange : ∀ target ∈ (analyze rev code).jumpdestTargets, target % 2 ^ 64 = target := by
    intro target hmem
    rw [htargets] at hmem
    obtain ⟨j, hj, rfl⟩ := List.mem_map.1 hmem
    have hj' := jumpdests_range hsize hj
    omega
  constructor
  case range => exact hrange
  case length => rw [hoffsets, htargets, List.length_map, List.length_map]
  case size =>
    have hsub := (@sublist_jumpdestsOf rev 0 (blocksOf (decode code))).length_le
    rw [flatten_blocksOf, List.length_map, List.length_map] at hsub
    have hdecode := length_decode_le code
    rw [hoffsets, List.length_map, jumpdests]
    omega
  case offsets =>
    rw [hoffsets]
    exact List.pairwise_map.2 ((pairwise_jumpdestsOf 0 code).imp fun h => Int.ofNat_lt.2 h)
  case targets =>
    rw [List.map_congr_left hrange, List.map_id', htargets]
    exact List.pairwise_map.2 ((pairwise_targets 0 _).imp fun h => Int.ofNat_lt.2 h)

variable {analysis : AdvancedCodeAnalysis}

theorem findJumpdest_finds (h : Sorted analysis) (x : Int) :
    Finds analysis.jumpdestOffsets analysis.jumpdestTargets (-1) x
      (Advanced.findJumpdest analysis x) := by
  obtain ⟨r, hr, hfinds⟩ := lowerBoundIn_finds (-1) x h.offsets h.length
  have heq : Advanced.findJumpdest analysis x = r := by
    unfold Advanced.findJumpdest
    unfold lowerBoundIn at hr
    have hindex : Advanced.lowerBound analysis.jumpdestOffsets x =
        firstNotLess analysis.jumpdestOffsets x := rfl
    dsimp only
    rw [hindex]
    by_cases hkey : analysis.jumpdestOffsets[firstNotLess analysis.jumpdestOffsets x]? = some x
    · rw [if_pos hkey] at hr ⊢
      rw [List.getD_eq_getElem?_getD, hr]
      rfl
    · rw [if_neg hkey] at hr ⊢
      exact Option.some.inj hr
  rw [heq]
  exact hfinds

theorem getJumpdestOffset_finds (h : Sorted analysis) (index : Nat) :
    Finds analysis.jumpdestTargets analysis.jumpdestOffsets (-1) (index : Int)
      (getJumpdestOffset analysis index) := by
  have hfinds := linear_finds (-1) (index : Int)
    ((analysis.jumpdestTargets.map (· % 2 ^ 64)).zip analysis.jumpdestOffsets)
  have hlength := h.length
  rw [List.map_fst_zip (by rw [List.length_map]; omega),
    List.map_snd_zip (by rw [List.length_map]; omega), List.map_congr_left h.range,
    List.map_id'] at hfinds
  rw [getJumpdestOffset, List.map_congr_left h.range, List.map_id']
  exact hfinds

end JumpdestSearch

/-- On the tables of an analysis all searches are `find_jumpdest`, and `get_jumpdest_offset` is its
inverse: the offset of every jump destination leads to the index of its BEGINBLOCK, and back. -/
theorem jumpdest_tables_invert (rev : Revision) (code : List Byte) (hsize : code.length < 2 ^ 30) :
    let analysis := Advanced.analyze rev code
    (∀ (fn : JumpdestSearch.FindFn) (offset : Int),
      fn.find (-1) (analysis.jumpdestOffsets.zip analysis.jumpdestTargets) offset =
        some (Advanced.findJumpdest analysis offset)) ∧
    ∀ offset index : Nat, Advanced.findJumpdest analysis offset = index ↔
      JumpdestSearch.getJumpdestOffset analysis index = offset := by
  intro analysis
  have hsorted : JumpdestSearch.Sorted analysis := JumpdestSearch.sorted_analyze rev hsize
  have hlength := hsorted.length
  refine ⟨fun fn offset => ?_, fun offset index => ?_⟩
  · have hfst : (analysis.jumpdestOffsets.zip analysis.jumpdestTargets).map Prod.fst =
        analysis.jumpdestOffsets := List.map_fst_zip (by omega)
    have hsnd : (analysis.jumpdestOffsets.zip analysis.jumpdestTargets).map Prod.snd =
        analysis.jumpdestTargets := List.map_snd_zip (by omega)
    obtain ⟨r, hfind, hr⟩ := JumpdestSearch.find_finds (-1) offset (hfst ▸ hsorted.offsets)
      (by have := hsorted.size; rw [List.length_zip]; omega) fn
    rw [hfst, hsnd] at hr
    rw [hfind, hr.unique hsorted.offsets (JumpdestSearch.findJumpdest_finds hsorted offset)]
  · have hfind := JumpdestSearch.findJumpdest_finds hsorted offset
    have hback := JumpdestSearch.getJumpdestOffset_finds hsorted index
    have htargets := hsorted.targets
    rw [List.map_congr_left hsorted.range, List.map_id'] at htargets
    constructor
    · intro h
      rw [h] at hfind
      rcases hfind with ⟨i, hoffset, htarget⟩ | ⟨-, hmissing⟩
      · exact hback.unique htargets (.inl ⟨i, htarget, hoffset⟩)
      · omega
    · intro h
      rw [h] at hback
      rcases hback with ⟨i, htarget, hoffset⟩ | ⟨-, hmissing⟩
      · exact hfind.unique hsorted.offsets (.inl ⟨i, hoffset, htarget⟩)
      · omega

theorem jumpdest_tables_invert_jumpdest :
    Advanced.findJumpdest (Advanced.analyze .berlin [Opcode.jumpdest.toByte]) (0 : Nat) =
        (0 : Nat) ↔
      JumpdestSearch.getJumpdestOffset (Advanced.analyze .berlin [Opcode.jumpdest.toByte]) 0 =
        (0 : Nat) :=
  (jumpdest_tables_invert .berlin [Opcode.jumpdest.toByte] (by decide)).2 0 0

end Ivmone
