import Ivmone.AdvancedRuns
import Ivmone.BaselineSafety
import Ivmone.PushData

/-!
# Decoding push data

The data of a PUSH is decoded by three pieces of code: two loops of `analyze`, one for small and one
for large pushes, and a copy when Baseline executes the instruction. The loops stop at the end of
the code; what is missing counts as zeros. Here are the loops over code positions, as they are
written, with the reads and writes that could go wrong.
-/

set_option autoImplicit false

namespace Ivmone.Advanced

open Lib

/-! ## The loops -/

/-- `while (code_pos < push_end)`. There is no result if a byte outside the code is read. -/
def smallPushWhile (code : List Byte) (pushEnd codePos : Nat) (value : BitVec 64)
    (insertBitPos : Nat) : Option (BitVec 64 × Nat) :=
  if codePos < pushEnd then
    match code[codePos]? with
    | some b =>
        smallPushWhile code pushEnd (codePos + 1) (value ||| b.setWidth 64 <<< insertBitPos)
          ((insertBitPos + 2 ^ 64 - 8) % 2 ^ 64)
    | none => none
  else some (value, codePos)
termination_by pushEnd - codePos

/-- The value of a small push and the position after its data. -/
def decodeSmallPush (code : List Byte) (codePos pushSize : Nat) : Option (BitVec 64 × Nat) :=
  smallPushWhile code (min (codePos + pushSize) code.length) codePos 0 ((pushSize - 1) * 8)

/-- `while (code_pos < push_end && code_pos < code_end)`. There is no result if a byte outside the
code is read, or a byte outside the value is written. -/
def largePushWhile (code : List Byte) (pushEnd codePos : Nat) (bytes : List Byte)
    (insertPos : Int) : Option (List Byte × Nat) :=
  if codePos < pushEnd ∧ codePos < code.length then
    match code[codePos]? with
    | some b =>
        if 0 ≤ insertPos ∧ insertPos < bytes.length then
          largePushWhile code pushEnd (codePos + 1) (bytes.set insertPos.toNat b) (insertPos - 1)
        else none
    | none => none
  else some (bytes, codePos)
termination_by pushEnd - codePos

/-- The bytes of the value of a large push, lowest first, and the position after its data. -/
def decodeLargePush (code : List Byte) (codePos pushSize : Nat) : Option (List Byte × Nat) :=
  largePushWhile code (codePos + pushSize) codePos (List.replicate 32 0) ((pushSize : Int) - 1)

/-- The bytes of the code from a position on, up to another one. -/
def slice (code : List Byte) (codePos pushEnd : Nat) : List Byte :=
  (code.drop codePos).take (pushEnd - codePos)

theorem slice_of_lt {code : List Byte} {codePos pushEnd : Nat} {b : Byte} (h : codePos < pushEnd)
    (hb : code[codePos]? = some b) :
    slice code codePos pushEnd = b :: slice code (codePos + 1) pushEnd := by
  obtain ⟨hlt, rfl⟩ := List.getElem?_eq_some_iff.1 hb
  unfold slice
  rw [List.drop_eq_getElem_cons hlt, show pushEnd - codePos = pushEnd - (codePos + 1) + 1 by omega,
    List.take_succ_cons]

/-- The loop of small pushes inserts the bytes that are in the code. -/
theorem smallPushWhile_eq {code : List Byte} {pushEnd codePos : Nat} (value : BitVec 64)
    (insertBitPos : Nat) (hle : codePos ≤ pushEnd) (hend : pushEnd ≤ code.length) :
    smallPushWhile code pushEnd codePos value insertBitPos =
      some (smallPushLoop value insertBitPos (slice code codePos pushEnd), pushEnd) := by
  -- The induction is on the bytes still to be read.
  induction hn : pushEnd - codePos generalizing codePos value insertBitPos with
  | zero =>
      have heq : codePos = pushEnd := by omega
      subst heq
      rw [smallPushWhile, if_neg (Nat.lt_irrefl _), slice, Nat.sub_self, List.take_zero]
      rfl
  | succ n ih =>
      have hlt : codePos < pushEnd := by omega
      have hb : code[codePos]? = some code[codePos] := List.getElem?_eq_getElem (by omega)
      rw [smallPushWhile, if_pos hlt, hb, slice_of_lt hlt hb]
      exact ih _ _ (by omega) (by omega)

/-- The loop of large pushes stores the bytes that are in the code, all within the value. -/
theorem largePushWhile_eq {code : List Byte} {pushEnd codePos : Nat} (bytes : List Byte)
    {insertPos : Int} (hle : codePos ≤ code.length)
    (hlow : (pushEnd : Int) - codePos ≤ insertPos + 1) (hhigh : insertPos < bytes.length) :
    largePushWhile code pushEnd codePos bytes insertPos =
      some (largePushLoop bytes insertPos (slice code codePos pushEnd),
        codePos + (slice code codePos pushEnd).length) := by
  induction hn : pushEnd - codePos generalizing codePos bytes insertPos with
  | zero =>
      rw [largePushWhile, if_neg (by omega), slice, hn, List.take_zero]
      rfl
  | succ n ih =>
      by_cases hlt : codePos < code.length
      · have hb : code[codePos]? = some code[codePos] := List.getElem?_eq_getElem hlt
        have hpos : codePos < pushEnd := by omega
        rw [largePushWhile, if_pos ⟨hpos, hlt⟩, hb, slice_of_lt hpos hb]
        show ite _ _ _ = _
        -- The insertion pointer has as many bytes below it as can still be read.
        have hrest : largePushWhile code pushEnd (codePos + 1)
            (bytes.set insertPos.toNat code[codePos]) (insertPos - 1) = _ :=
          ih _ hlt (by push_cast; omega) (by rw [List.length_set]; omega) (by omega)
        rw [if_pos ⟨by omega, hhigh⟩, hrest, largePushLoop, List.length_cons, Nat.add_assoc,
          Nat.add_comm 1]
      · have hnil : slice code codePos pushEnd = [] := by
          rw [slice, List.drop_eq_nil_of_le (Nat.not_lt.1 hlt), List.take_nil]
        rw [largePushWhile, if_neg (fun h => hlt h.2), hnil]
        rfl

/-! ## The values -/

theorem smallPushLoop_nil (value : BitVec 64) (insertBitPos : Nat) :
    smallPushLoop value insertBitPos [] = value := rfl

/-- Zeros that are inserted do not change the value. -/
theorem smallPushLoop_zeros (value : BitVec 64) (insertBitPos n : Nat) :
    smallPushLoop value insertBitPos (List.replicate n 0) = value := by
  induction n generalizing insertBitPos with
  | zero => rfl
  | succ n ih =>
      have hzero : value ||| (0 : Byte).setWidth 64 <<< insertBitPos = value := by simp
      rw [List.replicate_succ, smallPushLoop, hzero, ih]

theorem smallPushLoop_append_zeros (value : BitVec 64) (insertBitPos : Nat) (data : List Byte)
    (n : Nat) :
    smallPushLoop value insertBitPos (data ++ List.replicate n 0) =
      smallPushLoop value insertBitPos data := by
  induction data generalizing value insertBitPos with
  | nil => rw [List.nil_append, smallPushLoop_zeros, smallPushLoop_nil]
  | cons b data ih =>
      rw [List.cons_append, smallPushLoop, smallPushLoop]
      exact ih _ _

theorem smallPushValue_of_le {size : Nat} {data : List Byte} (hle : data.length ≤ size)
    (hsize : size ≤ 8) :
    (smallPushValue size data).setWidth 256 =
      beLoad (data ++ List.replicate (size - data.length) 0) := by
  have hlength : (data ++ List.replicate (size - data.length) (0 : Byte)).length = size := by
    rw [List.length_append, List.length_replicate]
    omega
  rw [← setWidth_smallPushValue (hlength.trans_le hsize), hlength, smallPushValue, smallPushValue,
    smallPushLoop_append_zeros]

/-- The bytes are stored from position `size - 1` down. -/
theorem largePushLoop_of_le {size : Nat} {bytes data : List Byte} (hle : data.length ≤ size)
    (hsize : size ≤ bytes.length) :
    largePushLoop bytes ((size : Int) - 1) data =
      bytes.take (size - data.length) ++ data.reverse ++ bytes.drop size := by
  induction data generalizing bytes size with
  | nil => simp [largePushLoop]
  | cons b data ih =>
      rw [List.length_cons] at hle
      obtain ⟨k, rfl⟩ : ∃ k, size = k + 1 := ⟨size - 1, by omega⟩
      have hpos : ((k + 1 : Nat) : Int) - 1 = k := by omega
      have hset : k < (bytes.set k b).length := by
        rw [List.length_set]
        omega
      rw [hpos, largePushLoop, Int.toNat_natCast, ih (by omega) (by omega), List.length_cons,
        Nat.add_sub_add_right, List.reverse_cons, List.take_set_of_le (by omega),
        List.drop_eq_getElem_cons hset, List.getElem_set_self, List.drop_set_of_lt (by omega)]
      simp

theorem leLoad_largePushLoop {size : Nat} {data : List Byte} (hle : data.length ≤ size)
    (hsize : size ≤ 32) :
    leLoad (largePushLoop (List.replicate 32 0) ((size : Int) - 1) data) =
      beLoad (data ++ List.replicate (size - data.length) 0) := by
  rw [largePushLoop_of_le hle (by rw [List.length_replicate]; exact hsize), List.take_replicate,
    List.drop_replicate, Nat.min_eq_left (by omega), ← leLoad_reverse _ (32 - size),
    List.reverse_append, List.reverse_replicate]

/-! ## One PUSH -/

section Push

variable {code : List Byte} {pos : Nat}

/-- The bytes of push data that are in the code. -/
theorem length_pushData (code : List Byte) (pos size : Nat) :
    ((code.drop pos).take size).length = min size (code.length - pos) := by
  rw [List.length_take, List.length_drop]

theorem decodeSmallPush_eq (size : Nat) (hle : pos ≤ code.length) :
    decodeSmallPush code pos size =
      some (smallPushValue size ((code.drop pos).take size),
        pos + min size (code.length - pos)) := by
  have hend : min (pos + size) code.length = pos + min size (code.length - pos) := by omega
  have hslice : slice code pos (pos + min size (code.length - pos)) =
      (code.drop pos).take size := by
    unfold slice
    rw [List.take_eq_take_iff, List.length_drop]
    omega
  unfold decodeSmallPush
  rw [smallPushWhile_eq 0 _ (by omega) (Nat.min_le_right _ _), hend, hslice]
  rfl

theorem decodeLargePush_eq {size : Nat} (hle : pos ≤ code.length) (hsize : size ≤ 32) :
    decodeLargePush code pos size =
      some (largePushLoop (List.replicate 32 0) ((size : Int) - 1) ((code.drop pos).take size),
        pos + min size (code.length - pos)) := by
  have hslice : slice code pos (pos + size) = (code.drop pos).take size := by
    unfold slice
    rw [Nat.add_sub_cancel_left]
  unfold decodeLargePush
  rw [largePushWhile_eq _ hle (by push_cast; omega) (by rw [List.length_replicate]; omega), hslice,
    length_pushData]

theorem length_largePushLoop (bytes : List Byte) (insertPos : Int) (data : List Byte) :
    (largePushLoop bytes insertPos data).length = bytes.length := by
  induction data generalizing bytes insertPos with
  | nil => rfl
  | cons b data ih => rw [largePushLoop, ih, List.length_set]

/-- The value of a PUSH of `size` bytes before `pos`: its data, and zeros for what is missing. -/
def pushValueAt (code : List Byte) (pos size : Nat) : UInt256 :=
  let data := (code.drop pos).take size
  beLoad (data ++ List.replicate (size - data.length) 0)

/-- The entry of a PUSH before `pos`: it has the value that the loop for small pushes leaves, or
refers to the one that the loop for large pushes leaves. -/
inductive RecordsPush (code : List Byte) (values : List UInt256) (pos : Nat) (n : Fin 32) :
    Instruction → Prop
  | small {value : BitVec 64} (hn : n.val < 8)
      (hloop : decodeSmallPush code pos (n.val + 1) =
        some (value, pos + min (n.val + 1) (code.length - pos)))
      (hvalue : value.setWidth 256 = pushValueAt code pos (n.val + 1)) :
      RecordsPush code values pos n { fn := some .opPushSmall, arg := .smallPushValue value }
  | full {k : Nat} {bytes : List Byte} (hn : 8 ≤ n.val)
      (hloop : decodeLargePush code pos (n.val + 1) =
        some (bytes, pos + min (n.val + 1) (code.length - pos)))
      (hlength : bytes.length = 32) (hk : values[k]? = some (leLoad bytes))
      (hvalue : leLoad bytes = pushValueAt code pos (n.val + 1)) :
      RecordsPush code values pos n { fn := some .opPushFull, arg := .pushValue k }

/-- The push data is decoded alike: by the loops of `analyze`, in the table they leave, by the
functions of the entries and by Baseline. -/
structure PushDecoded (rev : Revision) (code : List Byte) (uninit : Nat → Byte) (pos : Nat)
    (b : Byte) (n : Fin 32) : Prop where
  /-- The body of the loop of `analyze` consumes the data that is in the code. -/
  consumed : ∀ block a, (analyzeInstr rev code pos b block a).2.2 =
    pos + 1 + min (n.val + 1) (code.length - (pos + 1))
  /-- The entry of the instruction in the table records the value, and its function pushes it. -/
  recorded : ∃ closed done rest post fn arg,
    blocksOf (decode code) = closed ++ (done ++ instructionAt code pos b :: rest) :: post ∧
    (analyze rev code).instrs[(tableOf rev 0 closed).length + 1 +
      (entriesOf rev 0 0 done).length]? = some { fn := some fn, arg := arg } ∧
    RecordsPush code (analyze rev code).pushValues (pos + 1) n { fn := some fn, arg := arg } ∧
    ∀ (σ : Type) (env : Env σ) (s : ExecutionState σ) (cost : Nat) (ctx : Context) (ip : Nat),
      (exec (analyze rev code) cost ctx fn arg ip).run env s =
        (handle env (.push (pushValueAt code (pos + 1) (n.val + 1))) s).bind
          fun _ s' => .ok (ip + 1) s'
  /-- Baseline pushes the same value if all the data is in the code. -/
  baseline : n.val + 1 ≤ code.length - (pos + 1) →
    ∀ (σ : Type) (env : Env σ) (s : ExecutionState σ),
      (Baseline.push n (Baseline.analyze uninit code) pos).run env s =
        (handle env (.push (pushValueAt code (pos + 1) (n.val + 1))) s).bind
          fun _ s' => .ok (pos + (n.val + 1 + 1)) s'
  /-- Baseline's analysis goes on at the same offset, or both are at the end of the code. -/
  scanned : ∀ map, Baseline.scan code pos map = Baseline.scan code (pos + (n.val + 1 + 1)) map
  offset : pos + 1 + min (n.val + 1) (code.length - (pos + 1)) =
    min (pos + (n.val + 1 + 1)) code.length

theorem gasCosts_push (rev : Revision) (n : Fin 32) : instr.gasCosts rev (.push n) = 3 := by
  cases rev <;> rfl

theorem opTable_push {b : Byte} {n : Fin 32} (rev : Revision)
    (hop : Opcode.ofByte b = some (.push n)) :
    (opTable rev b).fn = some (instructionImplementations (.push n)) := by
  have hcost : instr.gasCost rev b = 3 := by
    rw [instr.gasCost_of_ofByte hop, gasCosts_push]
  unfold opTable
  rw [hcost, if_neg (by decide), hop]
  rfl

/-- Every instruction of the code is in one of its blocks. -/
theorem exists_split_of_start {b : Byte} (hstart : IsStart code pos) (hb : code[pos]? = some b) :
    ∃ closed done rest post,
      blocksOf (decode code) = closed ++ (done ++ instructionAt code pos b :: rest) :: post := by
  have hmem : instructionAt code pos b ∈ (blocksOf (decode code)).flatten := by
    rw [flatten_blocksOf]
    exact mem_decode_iff.2 ⟨hstart, b, hb, rfl⟩
  obtain ⟨block, hblock, hin⟩ := List.mem_flatten.1 hmem
  obtain ⟨closed, post, hsplit⟩ := List.append_of_mem hblock
  obtain ⟨done, rest, rfl⟩ := List.append_of_mem hin
  exact ⟨closed, done, rest, post, hsplit⟩

/-- What the analysis records for a PUSH. -/
theorem recordsPush_argOf {b : Byte} {n : Fin 32} {values : List UInt256} {k : Nat}
    (hop : Opcode.ofByte b = some (.push n)) (hle : pos + 1 ≤ code.length)
    (hvalue : PushValueAt values k (instructionAt code pos b)) (gas : Int) :
    RecordsPush code values (pos + 1) n
      { fn := some (instructionImplementations (.push n))
        arg := argOf gas k (instructionAt code pos b) } := by
  have hn := n.isLt
  have hop' : Opcode.ofByte (instructionAt code pos b).opcode = some (.push n) := hop
  have hdata : (instructionAt code pos b).data = (code.drop (pos + 1)).take (n.val + 1) := by
    rw [← pushSize_eq hop]
    rfl
  have hlength : ((code.drop (pos + 1)).take (n.val + 1)).length ≤ n.val + 1 :=
    List.length_take_le _ _
  by_cases hsmall : n < 8
  · have himpl : instructionImplementations (.push n) = .opPushSmall := if_pos hsmall
    rw [himpl, argOf_pushSmall hop' hsmall, hdata]
    have hlt : n.val < 8 := hsmall
    exact .small hlt (decodeSmallPush_eq _ hle) (smallPushValue_of_le hlength (by omega))
  · have himpl : instructionImplementations (.push n) = .opPushFull := if_neg hsmall
    have hlarge := largePushOf_pushFull hop' hsmall
    rw [hdata] at hlarge
    rw [himpl, argOf_pushFull hop' hsmall]
    have hge : 8 ≤ n.val := Nat.not_lt.1 hsmall
    refine .full hge (decodeLargePush_eq hle (by omega)) ?_ ?_
      (leLoad_largePushLoop hlength (by omega))
    · rw [length_largePushLoop, List.length_replicate]
    · exact hvalue _ (by rw [hlarge]; exact List.mem_singleton.2 rfl)

/-- The function of the entry of a PUSH pushes the recorded value. -/
theorem RecordsPush.run {n : Fin 32} {fn : ExecFn} {arg : Argument}
    {analysis : AdvancedCodeAnalysis}
    (h : RecordsPush code analysis.pushValues pos n { fn := some fn, arg := arg }) {σ : Type}
    (env : Env σ) (s : ExecutionState σ) (cost : Nat) (ctx : Context) (ip : Nat) :
    (exec analysis cost ctx fn arg ip).run env s =
      (handle env (.push (pushValueAt code pos (n.val + 1))) s).bind fun _ s' =>
        .ok (ip + 1) s' := by
  generalize hinstr : ({ fn := some fn, arg := arg } : Instruction) = instr at h
  cases h with
  | small hn hloop hvalue =>
      injection hinstr with hfn harg
      injection hfn with hfn
      subst hfn harg
      rw [← hvalue]
      rfl
  | full hn hloop hlength hk hvalue =>
      injection hinstr with hfn harg
      injection hfn with hfn
      subst hfn harg
      simp only [exec, opPushFull, hk, hvalue]
      rfl

end Push

/-- The three decodings of push data agree on all data and on every truncation at the end of the
code. -/
theorem push_decoding_agrees (rev : Revision) (code : List Byte) (uninit : Nat → Byte) (pos : Nat)
    (b : Byte) (n : Fin 32) (hstart : IsStart code pos) (hb : code[pos]? = some b)
    (hop : Opcode.ofByte b = some (.push n)) : PushDecoded rev code uninit pos b n where
  consumed block a := by
    have hlength := length_pushData code (pos + 1) (n.val + 1)
    unfold analyzeInstr AdvancedCodeAnalysis.decodeArg
    rw [hop]
    dsimp only
    rw [← hlength]
    -- The next position is the same whether a block ends here or not, and for both sizes.
    by_cases hn : n < 8
    · rw [if_pos hn]
      split <;> rfl
    · rw [if_neg hn]
      split <;> rfl
  recorded := by
    have hpos : pos + 1 ≤ code.length := hstart.2
    obtain ⟨closed, done, rest, post, hsplit⟩ := exists_split_of_start hstart hb
    have hne : (instructionAt code pos b).opcode ≠ Opcode.jumpdest.toByte := by
      intro hjumpdest
      have hb' : b = Opcode.jumpdest.toByte := hjumpdest
      rw [hb', ofByte_toByte] at hop
      cases hop
    have hentry : (analyze rev code).instrs[_]? = _ := getElem?_instrs_inBlock hsplit hne
    have hvalue : PushValueAt (analyze rev code).pushValues _ _ := pushValueAt_inBlock hsplit
    rw [show (instructionAt code pos b).opcode = b from rfl, opTable_push rev hop] at hentry
    have hrecords := recordsPush_argOf hop hpos hvalue
      (baseCost rev (done ++ [instructionAt code pos b]))
    exact ⟨closed, done, rest, post, _, _, hsplit, hentry, hrecords,
      fun σ env s cost ctx ip => hrecords.run env s cost ctx ip⟩
  baseline hcomplete σ env s := by
    have hpos := hstart.2
    have hlength : ((code.drop (pos + 1)).take (n.val + 1)).length = n.val + 1 := by
      rw [length_pushData]
      omega
    have hvalue : pushValueAt code (pos + 1) (n.val + 1) =
        beLoad ((code.drop (pos + 1)).take (n.val + 1)) := by
      simp only [pushValueAt, hlength, Nat.sub_self, List.replicate_zero, List.append_nil]
    rw [Baseline.run_push env s hstart.1 hb hop, pushData_paddedCode uninit (by omega), hvalue]
  scanned map := by
    have hne : b ≠ Opcode.jumpdest.toByte := by
      rintro rfl
      rw [ofByte_toByte] at hop
      cases hop
    rw [Baseline.scan_of_some hb, if_neg hne, pushSize_eq hop, Nat.add_assoc, Nat.add_comm 1]
  offset := by
    have hpos := hstart.2
    omega

/-- A PUSH2 with one byte of its data missing. -/
theorem push_decoding_agrees_push2 :
    PushDecoded .berlin [(Opcode.push 1).toByte, 0x12] (fun _ => 0) 0 (Opcode.push 1).toByte 1 :=
  push_decoding_agrees .berlin [(Opcode.push 1).toByte, 0x12] (fun _ => 0) 0
    (Opcode.push 1).toByte 1 ⟨.refl, by decide⟩ rfl (by decide)

example : pushValueAt [(Opcode.push 1).toByte, 0x12] 1 2 = 0x1200 := by decide

end Ivmone.Advanced
