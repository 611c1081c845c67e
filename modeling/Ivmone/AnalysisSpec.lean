import Ivmone.Blocks

/-!
# The Advanced analysis makes the table of the blocks

The loop of `analyze` keeps the table of the blocks it has closed, the entries of the block it is
in, and the accumulated analysis of that block. When it is done, `instrs` is the table of the basic
blocks of the code followed by a STOP.
-/

set_option autoImplicit false

namespace Ivmone.Advanced

/-- The implementations of BEGINBLOCK and STOP are defined in every revision. -/
theorem opTable_jumpdest (rev : Revision) :
    (opTable rev Opcode.jumpdest.toByte).fn = some .opxBeginblock := by
  cases rev <;> rfl

theorem opTable_stop (rev : Revision) : (opTable rev Opcode.stop.toByte).fn = some .opStop := by
  cases rev <;> rfl

/-! ## Tables of several blocks -/

section Tables

variable {rev : Revision}

theorem length_tableOf (k k' : Nat) (blocks : List (List Decoded)) :
    (tableOf rev k blocks).length = (tableOf rev k' blocks).length := by
  induction blocks generalizing k k' with
  | nil => rfl
  | cons b bs ih =>
      rw [tableOf, tableOf, List.length_cons, List.length_cons, List.length_append,
        List.length_append, length_entriesOf 0 0 k k', ih _ (k' + (pushValuesOf b).length)]

theorem tableOf_append (k : Nat) (xs ys : List (List Decoded)) :
    tableOf rev k (xs ++ ys) =
      tableOf rev k xs ++ tableOf rev (k + (pushValuesOf xs.flatten).length) ys := by
  induction xs generalizing k with
  | nil => rfl
  | cons x xs ih =>
      have hk : k + (pushValuesOf (x :: xs).flatten).length =
          k + (pushValuesOf x).length + (pushValuesOf xs.flatten).length := by
        rw [List.flatten_cons, pushValuesOf_append, List.length_append, Nat.add_assoc]
      rw [List.cons_append, tableOf, tableOf, ih, hk, List.cons_append, List.append_assoc]

theorem jumpdestsOf_append (index : Nat) (xs ys : List (List Decoded)) :
    jumpdestsOf rev index (xs ++ ys) =
      jumpdestsOf rev index xs ++ jumpdestsOf rev (index + (tableOf rev 0 xs).length) ys := by
  induction xs generalizing index with
  | nil => rfl
  | cons x xs ih =>
      have hindex : index + 1 + (entriesOf rev 0 0 x).length + (tableOf rev 0 xs).length =
          index + (tableOf rev 0 (x :: xs)).length := by
        rw [tableOf, List.length_cons, List.length_append,
          length_tableOf (0 + (pushValuesOf x).length) 0]
        omega
      rw [List.cons_append, jumpdestsOf, jumpdestsOf, ih, hindex, List.append_assoc]

/-- A JUMPDEST counts at the start of a block only. -/
theorem jumpdestOf_append (index : Nat) (cur : List Decoded) (d : Decoded)
    (h : d.opcode = Opcode.jumpdest.toByte → cur = []) :
    jumpdestOf index (cur ++ [d]) =
      jumpdestOf index cur ++
        if d.opcode = Opcode.jumpdest.toByte then [(d.offset, index)] else [] := by
  cases cur with
  | nil => rfl
  | cons x xs =>
      have hd : d.opcode ≠ Opcode.jumpdest.toByte := fun hd => nomatch h hd
      rw [if_neg hd, List.append_nil]
      rfl

end Tables

/-! ## The state of the loop -/

variable (rev : Revision)

/-- The analysis with the tables of the given blocks. -/
def ofBlocks (blocks : List (List Decoded)) : AdvancedCodeAnalysis where
  instrs := tableOf rev 0 blocks
  pushValues := pushValuesOf blocks.flatten
  jumpdestOffsets := (jumpdestsOf rev 0 blocks).map fun j => toInt32 j.1
  jumpdestTargets := (jumpdestsOf rev 0 blocks).map fun j => toInt32 j.2

/-- The analysis in the middle of a block: the BEGINBLOCK of the current block is not filled in. -/
def ofOpenBlock (closed : List (List Decoded)) (cur : List Decoded) : AdvancedCodeAnalysis :=
  { ofBlocks rev (closed ++ [cur]) with
    instrs := tableOf rev 0 closed ++
      { fn := some .opxBeginblock } :: entriesOf rev 0 (pushValuesOf closed.flatten).length cur }

/-- The accumulated analysis of the current block. -/
def openSummary (closed : List (List Decoded)) (cur : List Decoded) : BlockAnalysis :=
  summarize rev (tableOf rev 0 closed).length cur

variable {rev}

theorem modify_append_cons {α : Type} (xs : List α) (x : α) (ys : List α) (f : α → α) :
    (xs ++ x :: ys).modify xs.length f = xs ++ f x :: ys := by
  induction xs with
  | nil => rfl
  | cons z xs ih =>
      rw [List.cons_append, List.length_cons, List.modify_succ_cons, ih]
      rfl

theorem setArg_append {a : AdvancedCodeAnalysis} {pre post : List Instruction} {instr : Instruction}
    (h : a.instrs = pre ++ instr :: post) (arg : Argument) :
    a.setArg pre.length arg = { a with instrs := pre ++ { instr with arg := arg } :: post } := by
  unfold AdvancedCodeAnalysis.setArg
  rw [h, modify_append_cons]

theorem setLastArg_append {a : AdvancedCodeAnalysis} {pre : List Instruction} {instr : Instruction}
    (h : a.instrs = pre ++ [instr]) (arg : Argument) :
    a.setLastArg arg = { a with instrs := pre ++ [{ instr with arg := arg }] } := by
  have hlast : a.instrs.length - 1 = pre.length := by rw [h, List.length_append]; rfl
  rw [AdvancedCodeAnalysis.setLastArg, hlast, setArg_append h]

theorem tableOf_append_singleton (closed : List (List Decoded)) (cur : List Decoded) :
    tableOf rev 0 (closed ++ [cur]) =
      tableOf rev 0 closed ++
        beginblockOf rev cur :: entriesOf rev 0 (pushValuesOf closed.flatten).length cur := by
  rw [tableOf_append, Nat.zero_add, tableOf, tableOf, List.append_nil]

/-- Closing the block fills in its BEGINBLOCK. -/
theorem saveBlock_ofOpenBlock (closed : List (List Decoded)) (cur : List Decoded) :
    (ofOpenBlock rev closed cur).saveBlock (openSummary rev closed cur) =
      ofBlocks rev (closed ++ [cur]) := by
  rw [AdvancedCodeAnalysis.saveBlock, openSummary, summarize_beginBlockIndex, setArg_append rfl,
    summarize_close _ 0]
  unfold ofOpenBlock ofBlocks
  rw [tableOf_append_singleton]
  rfl

/-- A new block has a BEGINBLOCK only. -/
theorem ofOpenBlock_nil (blocks : List (List Decoded)) :
    { ofBlocks rev blocks with
      instrs := (ofBlocks rev blocks).instrs ++ [{ fn := some .opxBeginblock }] } =
      ofOpenBlock rev blocks [] := by
  have hjumpdests : jumpdestsOf rev 0 (blocks ++ [[]]) = jumpdestsOf rev 0 blocks := by
    rw [jumpdestsOf_append]
    exact List.append_nil _
  unfold ofOpenBlock ofBlocks
  rw [hjumpdests, List.flatten_append, List.flatten_singleton, List.append_nil]
  rfl

/-! ## One instruction -/

/-- The switch over the opcode sets the argument of the entry that was made for it. -/
theorem decodeArg_eq {a : AdvancedCodeAnalysis} {pre : List Instruction} {fn : Option ExecFn}
    (h : a.instrs = pre ++ [{ fn := fn }]) (code : List Byte) (offset : Nat) (gas : Int)
    (opcode : Byte) :
    a.decodeArg code (offset + 1) gas opcode =
      ({ a with
          instrs := pre ++
            [{ fn := fn, arg := argOf gas a.pushValues.length (instructionAt code offset opcode) }]
          pushValues := a.pushValues ++ largePushOf (instructionAt code offset opcode) },
        offset + 1 + (instructionAt code offset opcode).data.length, endsBlock opcode) := by
  have hsame : ({ a with instrs := pre ++ [{ fn := fn }] } : AdvancedCodeAnalysis) = a := by
    rw [← h]
  unfold AdvancedCodeAnalysis.decodeArg argOf largePushOf endsBlock instructionAt pushSize
  cases Opcode.ofByte opcode with
  | none => simp [hsame]
  | some op =>
      -- the source's `switch`: these cases write the last entry's argument, the others leave it
      cases op with
      | push n =>
          by_cases hn : n < 8
          · simp [hn, setLastArg_append h]
          · simp [hn, setLastArg_append h]
      | gas => simp [setLastArg_append h]
      | call => simp [setLastArg_append h]
      | callcode => simp [setLastArg_append h]
      | delegatecall => simp [setLastArg_append h]
      | staticcall => simp [setLastArg_append h]
      | create => simp [setLastArg_append h]
      | create2 => simp [setLastArg_append h]
      | sstore => simp [setLastArg_append h]
      | pc => simp [setLastArg_append h]
      | _ => simp [hsame]

/-- The current block with one more instruction. -/
theorem ofOpenBlock_append (closed : List (List Decoded)) (cur : List Decoded) (d : Decoded)
    (hjumpdest : d.opcode = Opcode.jumpdest.toByte → cur = []) :
    ofOpenBlock rev closed (cur ++ [d]) =
      { instrs := (ofOpenBlock rev closed cur).instrs ++
          entryOf rev (baseCost rev (cur ++ [d])) (ofOpenBlock rev closed cur).pushValues.length d
        pushValues := (ofOpenBlock rev closed cur).pushValues ++ largePushOf d
        jumpdestOffsets := (ofOpenBlock rev closed cur).jumpdestOffsets ++
          if d.opcode = Opcode.jumpdest.toByte then [toInt32 d.offset] else []
        jumpdestTargets := (ofOpenBlock rev closed cur).jumpdestTargets ++
          if d.opcode = Opcode.jumpdest.toByte then [toInt32 (tableOf rev 0 closed).length]
          else [] } := by
  have hjumpdests : jumpdestsOf rev 0 (closed ++ [cur ++ [d]]) =
      jumpdestsOf rev 0 (closed ++ [cur]) ++
        if d.opcode = Opcode.jumpdest.toByte then [(d.offset, (tableOf rev 0 closed).length)]
        else [] := by
    rw [jumpdestsOf_append, jumpdestsOf_append, jumpdestsOf, jumpdestsOf,
      jumpdestOf_append _ _ _ hjumpdest]
    simp [jumpdestsOf]
  have hvalues : pushValuesOf (closed ++ [cur ++ [d]]).flatten =
      pushValuesOf (closed ++ [cur]).flatten ++ largePushOf d := by
    simp [pushValuesOf]
  have hlength : (pushValuesOf closed.flatten).length + (pushValuesOf cur).length =
      (pushValuesOf (closed ++ [cur]).flatten).length := by
    rw [List.flatten_append, pushValuesOf_append, List.length_append, List.flatten_singleton]
  have hbase : baseCost rev (cur ++ [d]) = baseCost rev cur + costOf rev d := by
    rw [baseCost_append, baseCost, baseCost, Int.add_zero]
  -- each of the four tables grows at its end by what the new instruction adds
  unfold ofOpenBlock ofBlocks
  rw [hjumpdests, hvalues, entriesOf_append, entriesOf, entriesOf, Int.zero_add, hlength, hbase,
    List.append_nil]
  split <;> simp

/-- An instruction is added to the current block. -/
theorem decodeArg_emit (closed : List (List Decoded)) (cur : List Decoded) (code : List Byte)
    (offset : Nat) (opcode : Byte) (hjumpdest : opcode = Opcode.jumpdest.toByte → cur = []) :
    ((ofOpenBlock rev closed cur).emit opcode (opTable rev opcode).fn offset).decodeArg code
        (offset + 1) (baseCost rev (cur ++ [instructionAt code offset opcode])) opcode =
      (ofOpenBlock rev closed (cur ++ [instructionAt code offset opcode]),
        offset + 1 + (instructionAt code offset opcode).data.length, endsBlock opcode) := by
  rw [ofOpenBlock_append _ _ _ hjumpdest]
  unfold AdvancedCodeAnalysis.emit entryOf
  by_cases hop : opcode = Opcode.jumpdest.toByte
  · -- The BEGINBLOCK of the current block is the last entry.
    have hlast : (((ofOpenBlock rev closed cur).instrs.length : Int) - 1) =
        (tableOf rev 0 closed).length := by
      rw [hjumpdest hop]
      simp [ofOpenBlock, entriesOf]
    rw [if_pos hop, hlast]
    subst hop
    simp [instructionAt, largePushOf, AdvancedCodeAnalysis.decodeArg, pushSize, endsBlock]
  · rw [if_neg hop, decodeArg_eq rfl]
    simp [instructionAt, hop]

/-- The instructions after the push data that is present are those after all of it. -/
theorem decodeFrom_data (code : List Byte) (offset : Nat) (opcode : Byte) :
    decodeFrom code (offset + 1 + (instructionAt code offset opcode).data.length) =
      decodeFrom code (offset + 1 + pushSize opcode) := by
  have hlength : (instructionAt code offset opcode).data.length =
      min (pushSize opcode) (code.length - (offset + 1)) := by
    simp [instructionAt]
  by_cases hle : pushSize opcode ≤ code.length - (offset + 1)
  · rw [hlength, Nat.min_eq_left hle]
  · rw [decodeFrom_of_le (by omega), decodeFrom_of_le (by omega)]

theorem atJumpdest_decodeFrom (code : List Byte) (pos : Nat) :
    atJumpdest (decodeFrom code pos) = true ↔ code[pos]? = some Opcode.jumpdest.toByte := by
  cases hb : code[pos]? with
  | none =>
      rw [decodeFrom_of_le (List.getElem?_eq_none_iff.1 hb)]
      simp [atJumpdest]
  | some b =>
      rw [decodeFrom_of_some hb]
      simp [atJumpdest, instructionAt]

/-- One round of the loop of `analyze`. -/
theorem analyzeInstr_eq (closed : List (List Decoded)) (cur : List Decoded) (code : List Byte)
    (pos : Nat) (opcode : Byte) (hjumpdest : opcode = Opcode.jumpdest.toByte → cur = []) :
    analyzeInstr rev code pos opcode (openSummary rev closed cur) (ofOpenBlock rev closed cur) =
      if endsBlock opcode || atJumpdest (decodeFrom code (pos + 1 + pushSize opcode)) then
        (ofOpenBlock rev (closed ++ [cur ++ [instructionAt code pos opcode]]) [],
          openSummary rev (closed ++ [cur ++ [instructionAt code pos opcode]]) [],
          pos + 1 + (instructionAt code pos opcode).data.length)
      else
        (ofOpenBlock rev closed (cur ++ [instructionAt code pos opcode]),
          openSummary rev closed (cur ++ [instructionAt code pos opcode]),
          pos + 1 + (instructionAt code pos opcode).data.length) := by
  have hsummary : (openSummary rev closed cur).add (opTable rev opcode) =
      openSummary rev closed (cur ++ [instructionAt code pos opcode]) :=
    (summarize_append _ cur (instructionAt code pos opcode)).symm
  have hgas : (openSummary rev closed (cur ++ [instructionAt code pos opcode])).gasCost =
      baseCost rev (cur ++ [instructionAt code pos opcode]) := summarize_gasCost _ _
  unfold analyzeInstr
  simp only [hsummary, hgas, decodeArg_emit closed cur code pos opcode hjumpdest, opTable_jumpdest,
    ← decodeFrom_data, Bool.or_eq_true, atJumpdest_decodeFrom, saveBlock_ofOpenBlock]
  split
  · rw [ofOpenBlock_nil]
    rfl
  · rfl

/-! ## The loop -/

/-- The blocks of the rest of the code are added to the current one. -/
theorem analyzeLoop_eq (closed : List (List Decoded)) (cur : List Decoded) (code : List Byte)
    (pos : Nat) (hcur : cur ≠ [] → atJumpdest (decodeFrom code pos) = false) :
    ((analyzeLoop rev code pos (openSummary rev closed cur)
      (ofOpenBlock rev closed cur)).1.saveBlock
        (analyzeLoop rev code pos (openSummary rev closed cur) (ofOpenBlock rev closed cur)).2) =
      ofBlocks rev (closed ++
        (cur ++ (cutBlocks (decodeFrom code pos)).1) :: (cutBlocks (decodeFrom code pos)).2) := by
  -- on the bytes left: `closed` are the blocks already saved, `cur` the one being filled, and
  -- an open block is never entered at a JUMPDEST
  induction hn : code.length - pos using Nat.strong_induction_on generalizing closed cur pos with
  | _ n ih =>
      by_cases hlt : pos < code.length
      · have hb : code[pos]? = some code[pos] := List.getElem?_eq_getElem hlt
        have hjumpdest : code[pos] = Opcode.jumpdest.toByte → cur = [] := by
          intro hop
          by_contra hne
          have hfalse := hcur hne
          rw [Bool.eq_false_iff, ne_eq, atJumpdest_decodeFrom, hb, hop] at hfalse
          exact hfalse rfl
        have hinstr := @analyzeInstr_eq rev closed cur code pos code[pos] hjumpdest
        rw [analyzeLoop, dif_pos hlt, decodeFrom_of_some hb]
        by_cases hends : (endsBlock (instructionAt code pos code[pos]).opcode ||
            atJumpdest (decodeFrom code (pos + 1 + pushSize code[pos]))) = true
        · -- the block ends with this instruction: save it and go on with an empty one
          have hnext := ih _ (by omega) (closed ++ [cur ++ [instructionAt code pos code[pos]]]) []
            (pos + 1 + (instructionAt code pos code[pos]).data.length) (fun h => absurd rfl h) rfl
          rw [if_pos (by exact hends)] at hinstr
          rw [decodeFrom_data] at hnext
          rw [cutBlocks_of_ends hends]
          simp [hinstr, hnext]
        · -- it goes on: the next instruction joins `cur`
          have hnot : atJumpdest (decodeFrom code (pos + 1 + pushSize code[pos])) = false :=
            (Bool.or_eq_false_iff.1 (Bool.eq_false_iff.2 hends)).2
          have hnext := ih _ (by omega) closed (cur ++ [instructionAt code pos code[pos]])
            (pos + 1 + (instructionAt code pos code[pos]).data.length)
            (fun _ => by rw [decodeFrom_data]; exact hnot) rfl
          rw [if_neg (by exact hends)] at hinstr
          rw [decodeFrom_data] at hnext
          rw [cutBlocks_of_not_ends hends]
          simp [hinstr, hnext]
      · rw [analyzeLoop, dif_neg hlt, decodeFrom_of_le (Nat.le_of_not_lt hlt)]
        rw [saveBlock_ofOpenBlock]
        simp [cutBlocks]

variable (rev)

/-- The analysis is the table of the blocks of the code, followed by a STOP. -/
theorem analyze_eq (code : List Byte) :
    analyze rev code =
      { ofBlocks rev (blocksOf (decode code)) with
        instrs := tableOf rev 0 (blocksOf (decode code)) ++ [{ fn := some .opStop }] } := by
  have hblock : ({ beginBlockIndex := 0 } : BlockAnalysis) = openSummary rev [] [] := rfl
  have hstart : ({ instrs := [{ fn := some .opxBeginblock }] } : AdvancedCodeAnalysis) =
      ofOpenBlock rev [] [] := rfl
  unfold analyze
  simp only [opTable_jumpdest, opTable_stop, hblock, hstart]
  rw [analyzeLoop_eq [] [] code 0 (fun h => absurd rfl h)]
  rfl

end Ivmone.Advanced
