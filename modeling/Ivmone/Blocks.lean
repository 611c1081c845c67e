import Ivmone.Decoding
import Ivmone.Analysis
import Ivmone.GasCosts

/-!
# Basic blocks

The abstract form of the table that the Advanced analysis makes. The decoded instructions are cut
into basic blocks: a block ends after a jump or a terminating instruction, and before a JUMPDEST.
The table has a BEGINBLOCK entry for every block, followed by the entries of its instructions.
-/

set_option autoImplicit false

namespace Ivmone.Advanced

/-! ## Cutting the code -/

/-- An instruction that ends its block. -/
def endsBlock (b : Byte) : Bool :=
  match Opcode.ofByte b with
  | some .jump | some .jumpi | some .stop | some .return_ | some .revert | some .selfdestruct => true
  | _ => false

/-- The next instruction is a JUMPDEST. -/
def atJumpdest : List Decoded → Bool
  | [] => false
  | d :: _ => d.opcode == Opcode.jumpdest.toByte

/-- The first basic block and the other ones. -/
def cutBlocks : List Decoded → List Decoded × List (List Decoded)
  | [] => ([], [])
  | d :: ds =>
      if endsBlock d.opcode || atJumpdest ds then
        ([d], (cutBlocks ds).1 :: (cutBlocks ds).2)
      else (d :: (cutBlocks ds).1, (cutBlocks ds).2)

theorem cutBlocks_of_ends {d : Decoded} {ds : List Decoded}
    (h : (endsBlock d.opcode || atJumpdest ds) = true) :
    cutBlocks (d :: ds) = ([d], (cutBlocks ds).1 :: (cutBlocks ds).2) := if_pos h

theorem cutBlocks_of_not_ends {d : Decoded} {ds : List Decoded}
    (h : ¬(endsBlock d.opcode || atJumpdest ds) = true) :
    cutBlocks (d :: ds) = (d :: (cutBlocks ds).1, (cutBlocks ds).2) := if_neg h

/-- The basic blocks of a list of instructions. -/
def blocksOf (ds : List Decoded) : List (List Decoded) := (cutBlocks ds).1 :: (cutBlocks ds).2

/-- The blocks are the instructions in order, each exactly once. -/
theorem flatten_blocksOf (ds : List Decoded) : (blocksOf ds).flatten = ds := by
  unfold blocksOf
  induction ds with
  | nil => rfl
  | cons d ds ih =>
      rw [List.flatten_cons] at ih
      unfold cutBlocks
      split
      · rw [List.flatten_cons, List.flatten_cons, ih]
        rfl
      · rw [List.flatten_cons, List.cons_append, ih]

/-- The first block starts with the first instruction. -/
theorem cutBlocks_fst_cons (d : Decoded) (ds : List Decoded) :
    ∃ b, (cutBlocks (d :: ds)).1 = d :: b := by
  unfold cutBlocks
  split
  · exact ⟨[], rfl⟩
  · exact ⟨_, rfl⟩

/-- How a basic block ends: with an instruction that ends blocks, which is followed by a block; or
before a JUMPDEST; or with the code. No other instruction of it ends blocks, and only the first one
may be a JUMPDEST. -/
inductive IsBlock : List Decoded → List (List Decoded) → Prop
  | last : IsBlock [] []
  | terminated {d : Decoded} {b : List Decoded} {bs : List (List Decoded)}
      (hd : endsBlock d.opcode = true) : IsBlock [d] (b :: bs)
  | split {d : Decoded} {b : List Decoded} {bs : List (List Decoded)}
      (hd : endsBlock d.opcode = false) (hb : atJumpdest b = true) : IsBlock [d] (b :: bs)
  | cons {d : Decoded} {b : List Decoded} {bs : List (List Decoded)}
      (hd : endsBlock d.opcode = false) (hb : atJumpdest b = false) (h : IsBlock b bs) :
      IsBlock (d :: b) bs

theorem isBlock_cutBlocks (ds : List Decoded) : IsBlock (cutBlocks ds).1 (cutBlocks ds).2 := by
  induction ds with
  | nil => exact .last
  | cons d ds ih =>
      have hhead : atJumpdest (cutBlocks ds).1 = atJumpdest ds := by
        cases ds with
        | nil => rfl
        | cons d' ds' =>
            obtain ⟨b, hb⟩ := cutBlocks_fst_cons d' ds'
            rw [hb]
            rfl
      unfold cutBlocks
      cases hd : endsBlock d.opcode with
      | true =>
          rw [Bool.true_or, if_pos rfl]
          exact .terminated hd
      | false =>
          rw [Bool.false_or]
          cases hj : atJumpdest ds with
          | true =>
              rw [if_pos rfl]
              exact .split hd (hhead.trans hj)
          | false =>
              rw [if_neg Bool.false_ne_true]
              exact .cons hd (hhead.trans hj) ih

/-- From any block on, the blocks are those of the instructions from there on. -/
theorem exists_blocksOf_of_append {ds : List Decoded} {pre : List (List Decoded)}
    {b : List Decoded} {post : List (List Decoded)} (h : blocksOf ds = pre ++ b :: post) :
    ∃ ds', b :: post = blocksOf ds' := by
  induction ds generalizing pre with
  | nil =>
      cases pre with
      | nil => exact ⟨[], h.symm⟩
      | cons x pre' =>
          injection h with h1 h2
          exact absurd h2 (by simp [cutBlocks])
  | cons d ds ih =>
      cases pre with
      | nil => exact ⟨d :: ds, h.symm⟩
      | cons x pre' =>
          injection h with h1 h2
          unfold cutBlocks at h2
          split at h2
          · exact ih h2
          · have hds : blocksOf ds = ((cutBlocks ds).1 :: pre') ++ b :: post := by
              rw [blocksOf, h2]
              rfl
            exact ih hds

theorem isBlock_of_append {ds : List Decoded} {pre : List (List Decoded)} {b : List Decoded}
    {post : List (List Decoded)} (h : blocksOf ds = pre ++ b :: post) : IsBlock b post := by
  obtain ⟨ds', hds'⟩ := exists_blocksOf_of_append h
  injection hds' with h1 h2
  rw [h1, h2]
  exact isBlock_cutBlocks ds'

/-! ## The table -/

variable (rev : Revision)

/-- The argument of the entry of an instruction: `gas` is the base cost of its block up to it, and
`k` the number of large push values before it. -/
def argOf (gas : Int) (k : Nat) (d : Decoded) : Argument :=
  match Opcode.ofByte d.opcode with
  | some (.push n) =>
      if n < 8 then .smallPushValue (smallPushValue (n.val + 1) d.data) else .pushValue k
  | some .gas | some .call | some .callcode | some .delegatecall | some .staticcall
  | some .create | some .create2 | some .sstore => .number gas
  | some .pc => .number d.offset
  | _ => .block {}

/-- The large push value of an instruction. -/
def largePushOf (d : Decoded) : List UInt256 :=
  match Opcode.ofByte d.opcode with
  | some (.push n) => if n < 8 then [] else [largePushValue (n.val + 1) d.data]
  | _ => []

section Arguments

variable {d : Decoded} {n : Fin 32}

theorem argOf_pc (hop : Opcode.ofByte d.opcode = some .pc) (gas : Int) (k : Nat) :
    argOf gas k d = .number d.offset := by
  rw [argOf, hop]

theorem argOf_pushSmall (hop : Opcode.ofByte d.opcode = some (.push n)) (hn : n < 8) (gas : Int)
    (k : Nat) : argOf gas k d = .smallPushValue (smallPushValue (n.val + 1) d.data) := by
  rw [argOf, hop]
  exact if_pos hn

theorem argOf_pushFull (hop : Opcode.ofByte d.opcode = some (.push n)) (hn : ¬ n < 8) (gas : Int)
    (k : Nat) : argOf gas k d = .pushValue k := by
  rw [argOf, hop]
  exact if_neg hn

theorem largePushOf_pushFull (hop : Opcode.ofByte d.opcode = some (.push n)) (hn : ¬ n < 8) :
    largePushOf d = [largePushValue (n.val + 1) d.data] := by
  rw [largePushOf, hop]
  exact if_neg hn

end Arguments

/-- The large push values of a list of instructions. -/
def pushValuesOf (ds : List Decoded) : List UInt256 := ds.flatMap largePushOf

/-- The base cost of an instruction; an undefined one has none. -/
def costOf (d : Decoded) : Int := (opTable rev d.opcode).gasCost

/-- The base cost of a list of instructions. -/
def baseCost : List Decoded → Int
  | [] => 0
  | d :: ds => costOf rev d + baseCost ds

/-- The entry of an instruction. A JUMPDEST has none: the BEGINBLOCK stands for it. -/
def entryOf (gas : Int) (k : Nat) (d : Decoded) : List Instruction :=
  if d.opcode = Opcode.jumpdest.toByte then []
  else [{ fn := (opTable rev d.opcode).fn, arg := argOf gas k d }]

/-- The entries of instructions that follow others of base cost `gas` and with `k` large push
values. -/
def entriesOf : Int → Nat → List Decoded → List Instruction
  | _, _, [] => []
  | gas, k, d :: ds =>
      entryOf rev (gas + costOf rev d) k d ++
        entriesOf (gas + costOf rev d) (k + (largePushOf d).length) ds

/-- The analysis of a block, as `analyze` accumulates it. -/
def summarize (index : Nat) (ds : List Decoded) : BlockAnalysis :=
  ds.foldl (fun block d => block.add (opTable rev d.opcode)) { beginBlockIndex := index }

/-- The BEGINBLOCK entry of a block. -/
def beginblockOf (b : List Decoded) : Instruction where
  fn := some .opxBeginblock
  arg := .block (summarize rev 0 b).close

/-- The table of blocks that follow `k` large push values. -/
def tableOf : Nat → List (List Decoded) → List Instruction
  | _, [] => []
  | k, b :: bs =>
      beginblockOf rev b :: (entriesOf rev 0 k b ++ tableOf (k + (pushValuesOf b).length) bs)

/-- The jump destination that a block with the given index in the table is. -/
def jumpdestOf (index : Nat) : List Decoded → List (Nat × Nat)
  | [] => []
  | d :: _ => if d.opcode = Opcode.jumpdest.toByte then [(d.offset, index)] else []

/-- The jump destinations of blocks from an index of the table on. -/
def jumpdestsOf : Nat → List (List Decoded) → List (Nat × Nat)
  | _, [] => []
  | index, b :: bs =>
      jumpdestOf index b ++ jumpdestsOf (index + 1 + (entriesOf rev 0 0 b).length) bs

section Append

variable {rev}

theorem baseCost_append (xs ys : List Decoded) :
    baseCost rev (xs ++ ys) = baseCost rev xs + baseCost rev ys := by
  induction xs with
  | nil => simp [baseCost]
  | cons x xs ih => rw [List.cons_append, baseCost, baseCost, ih, Int.add_assoc]

theorem entriesOf_append (gas : Int) (k : Nat) (xs ys : List Decoded) :
    entriesOf rev gas k (xs ++ ys) =
      entriesOf rev gas k xs ++
        entriesOf rev (gas + baseCost rev xs) (k + (pushValuesOf xs).length) ys := by
  induction xs generalizing gas k with
  | nil => simp [entriesOf, baseCost, pushValuesOf]
  | cons x xs ih =>
      have hk : k + (pushValuesOf (x :: xs)).length =
          k + (largePushOf x).length + (pushValuesOf xs).length := by
        simp [pushValuesOf, Nat.add_assoc]
      rw [List.cons_append, entriesOf, entriesOf, ih, hk, baseCost, ← Int.add_assoc,
        List.append_assoc]

/-- The number of entries does not depend on what comes before. -/
theorem length_entriesOf (gas gas' : Int) (k k' : Nat) (ds : List Decoded) :
    (entriesOf rev gas k ds).length = (entriesOf rev gas' k' ds).length := by
  induction ds generalizing gas gas' k k' with
  | nil => rfl
  | cons d ds ih =>
      rw [entriesOf, entriesOf, List.length_append, List.length_append,
        ih _ (gas' + costOf rev d) _ (k' + (largePushOf d).length)]
      unfold entryOf
      split <;> rfl

theorem pushValuesOf_append (xs ys : List Decoded) :
    pushValuesOf (xs ++ ys) = pushValuesOf xs ++ pushValuesOf ys := List.flatMap_append

theorem summarize_append (index : Nat) (xs : List Decoded) (d : Decoded) :
    summarize rev index (xs ++ [d]) = (summarize rev index xs).add (opTable rev d.opcode) := by
  simp [summarize]

theorem summarize_gasCost (index : Nat) (xs : List Decoded) :
    (summarize rev index xs).gasCost = baseCost rev xs := by
  induction xs using List.reverseRecOn with
  | nil => rfl
  | append_singleton xs d ih =>
      rw [summarize_append, baseCost_append, ← ih]
      simp [BlockAnalysis.add, baseCost, costOf]

theorem summarize_close (index index' : Nat) (xs : List Decoded) :
    (summarize rev index xs).close = (summarize rev index' xs).close := by
  have h : (summarize rev index xs) = { summarize rev index'
      xs with beginBlockIndex := index } := by
    induction xs using List.reverseRecOn with
    | nil => rfl
    | append_singleton xs d ih =>
        rw [summarize_append, summarize_append, ih]
        rfl
  rw [h]
  rfl

theorem summarize_beginBlockIndex (index : Nat) (xs : List Decoded) :
    (summarize rev index xs).beginBlockIndex = index := by
  induction xs using List.reverseRecOn with
  | nil => rfl
  | append_singleton xs d ih =>
      rw [summarize_append]
      exact ih

end Append

end Ivmone.Advanced
