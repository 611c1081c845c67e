import Ivmone.Execution
import Mathlib.Tactic.IntervalCases

/-!
# Inputs of the fuzzer

`test/fuzzer/fuzzer.cpp`: every byte string is an input of the fuzz target. A header of 24 bytes
gives the revision, the message and the host in a compressed form; what comes after it is the call
data and the code. `populate_input` never leaves its arrays, and the theorem at the end says exactly
which messages and codes it can produce.

The IVMC headers are not part of the repository, so the status codes are a parameter here.
-/

set_option autoImplicit false

namespace Ivmone

namespace Buffer

/-- The data after its first `n` bytes. -/
def drop (b : Buffer) (n : Nat) : Buffer :=
  ⟨b.bytes.drop n, Nat.lt_of_le_of_lt (List.drop_sublist n b.bytes).length_le b.size_lt⟩

/-- The first `n` bytes of the data. -/
def take (b : Buffer) (n : Nat) : Buffer :=
  ⟨b.bytes.take n, Nat.lt_of_le_of_lt (List.take_sublist n b.bytes).length_le b.size_lt⟩

end Buffer

namespace Fuzzer

/-! ## Generators -/

/-- `z.bytes[i] ^= x`, within the array. -/
def xorAt (bytes : List Byte) (i : Nat) (x : Byte) : Option (List Byte) :=
  if i < bytes.length then some (bytes.modify i (· ^^^ x)) else none

/-- The common part of the generators: `width` bytes, of which the last `size` are filled with ones,
and half a byte of noise just above them or at their upper end. -/
def interesting (width size : Nat) (b : Byte) : Option (List Byte) :=
  let fill := (b.toNat >>> 5) &&& 1
  let above := (b.toNat >>> 4) &&& 1
  let val := b.toNat &&& 15
  let z := (List.range width).map fun i => if fill ≠ 0 ∧ width - size ≤ i then (255 : Byte) else 0
  if above ≠ 0 then xorAt z (width - size % width - 1) (BitVec.ofNat 8 val)
  else xorAt z (width - size) (BitVec.ofNat 8 (val <<< 4))

def generateInterestingValue (b : Byte) : Option UInt256 :=
  let s := (b.toNat >>> 6) &&& 3
  let size := if s = 0 then 1 else 1 <<< (s + 2)
  (interesting 32 size b).map beLoad

def generateInterestingAddress (b : Byte) : Option Address :=
  let s := (b.toNat >>> 6) &&& 3
  let size := if s = 3 then 20 else 1 <<< s
  (interesting 20 size b).map fun bytes => (beLoad bytes).toAddress

/-- The generators stay inside their arrays. -/
theorem exists_interesting {width size : Nat} (hpos : 0 < size) (hle : size ≤ width) (b : Byte) :
    ∃ bytes, interesting width size b = some bytes := by
  unfold interesting xorAt
  dsimp only
  rw [List.length_map, List.length_range]
  split
  · exact ⟨_, if_pos (by omega)⟩
  · exact ⟨_, if_pos (by omega)⟩

theorem exists_generateInterestingValue (b : Byte) : ∃ z, generateInterestingValue b = some z := by
  have hs : (b.toNat >>> 6) &&& 3 ≤ 3 := Nat.and_le_right
  unfold generateInterestingValue
  generalize (b.toNat >>> 6) &&& 3 = s at hs
  have hsize : 0 < (if s = 0 then 1 else 1 <<< (s + 2)) ∧
      (if s = 0 then 1 else 1 <<< (s + 2)) ≤ 32 := by
    interval_cases s <;> decide
  obtain ⟨bytes, hbytes⟩ := exists_interesting hsize.1 hsize.2 b
  exact ⟨beLoad bytes, by simp only [hbytes, Option.map_some]⟩

theorem exists_generateInterestingAddress (b : Byte) :
    ∃ z, generateInterestingAddress b = some z := by
  have hs : (b.toNat >>> 6) &&& 3 ≤ 3 := Nat.and_le_right
  unfold generateInterestingAddress
  generalize (b.toNat >>> 6) &&& 3 = s at hs
  have hsize : 0 < (if s = 3 then 20 else 1 <<< s) ∧ (if s = 3 then 20 else 1 <<< s) ≤ 20 := by
    interval_cases s <;> decide
  obtain ⟨bytes, hbytes⟩ := exists_interesting hsize.1 hsize.2 b
  exact ⟨(beLoad bytes).toAddress, by simp only [hbytes, Option.map_some]⟩

def generateDepth (x2bits : Nat) : Int :=
  let h := (x2bits >>> 1) &&& 1
  let l := x2bits &&& 1
  1023 * h + l  -- 0, 1, 1023, 1024.

def expandBlockNumber (x : Byte) : Int := x.toNat * 97

def expandBlockTimestamp (x : Byte) : Int :=
  if x.toNat < 255 then 16777619 * x.toNat else 2 ^ 63 - 1

def expandBlockGasLimit (x : Byte) : Int :=
  if x = 0 then 0 else (2 ^ 63 - 1) / x.toNat

/-! ## Inputs -/

/-- A slot of a mocked account: its value, and whether it has been modified in the transaction. -/
structure StorageValue where
  value : UInt256
  dirty : Bool := false

/-- The fields of `ivmc::MockedAccount` that are set, the slots of the storage in the order in which
they are. -/
structure MockedAccount where
  balance : UInt256 := 0
  codehash : UInt256 := 0
  code : Buffer := .empty
  storage : List (UInt256 × StorageValue) := []

/-- The fields of `FuzzHost` that are set, most of them inherited from `ivmc::MockedHost`. -/
structure FuzzHost where
  txContext : TxContext := ⟨0, 0, 0, 0, 0, 0, 0, 0, 0⟩
  accounts : List (Address × MockedAccount) := []
  callResult : CallResult := ⟨.success, 0, .empty, 0⟩
  gasLeftFactor : Nat := 0

/-- `fuzz_input`. -/
structure FuzzInput where
  rev : Revision := .frontier
  msg : Message := {}
  host : FuzzHost := {}
  input_size_lt : msg.input.length < 2 ^ 63

/-- The constructor of `fuzz_input` creates an invalid input. -/
def FuzzInput.invalid : FuzzInput where
  msg := { gas := -1 }
  input_size_lt := Buffer.size_nil_lt

/-- `operator bool`. -/
def FuzzInput.IsValid (input : FuzzInput) : Prop := input.msg.gas ≠ -1

instance (input : FuzzInput) : Decidable input.IsValid := inferInstanceAs (Decidable (_ ≠ _))

/-- The code of the account that receives the message, `host.accounts[msg.destination].code`. -/
def FuzzInput.code (input : FuzzInput) : Buffer :=
  match input.host.accounts.find? fun account => account.1 = input.msg.recipient with
  | some account => account.2.code
  | none => .empty

/-! ## Populating an input -/

/-- What `populate_input` reads from the header. -/
structure Header where
  rev4bits : Nat
  kind1bit : Nat
  static1bit : Nat
  depth2bits : Nat
  gas24bits : Nat
  inputSize16bits : Nat
  destination8bits : Byte
  sender8bits : Byte
  value8bits : Byte
  create2Salt8bits : Byte
  txGasPrice8bits : Byte
  txOrigin8bits : Byte
  blockCoinbase8bits : Byte
  blockNumber8bits : Byte
  blockTimestamp8bits : Byte
  blockGasLimit8bits : Byte
  blockDifficulty8bits : Byte
  chainid8bits : Byte
  accountBalance8bits : Byte
  accountStorageKey1 : Byte
  accountStorageKey2 : Byte
  accountCodehash8bits : Byte
  callResultStatus4bits : Nat
  callResultGasLeftFactor4bits : Nat

def Header.read (data : Fin 24 → Byte) : Header where
  rev4bits := (data 0).toNat >>> 4
  kind1bit := ((data 0).toNat >>> 3) &&& 1
  static1bit := ((data 0).toNat >>> 2) &&& 1
  depth2bits := (data 0).toNat &&& 3
  gas24bits := ((data 1).toNat <<< 16) ||| ((data 2).toNat <<< 8) ||| (data 3).toNat
  inputSize16bits := ((data 4).toNat <<< 8) ||| (data 5).toNat
  destination8bits := data 6
  sender8bits := data 7
  value8bits := data 8
  create2Salt8bits := data 9
  txGasPrice8bits := data 10
  txOrigin8bits := data 11
  blockCoinbase8bits := data 12
  blockNumber8bits := data 13
  blockTimestamp8bits := data 14
  blockGasLimit8bits := data 15
  blockDifficulty8bits := data 16
  chainid8bits := data 17
  accountBalance8bits := data 18
  accountStorageKey1 := data 19
  accountStorageKey2 := data 20
  accountCodehash8bits := data 21
  callResultStatus4bits := (data 22).toNat >>> 4
  callResultGasLeftFactor4bits := (data 23).toNat &&& 15

/-- `latest_rev`. -/
def latestRev : Revision := .istanbul

/-- `old_rev`, the newest revision with the cap on the gas. -/
def oldRev : Revision := .spuriousDragon

def oldRevMaxGas : Nat := 500000

/-- `static_cast<ivmc_revision>`. -/
def castRevision : Nat → Revision
  | 0 => .frontier
  | 1 => .homestead
  | 2 => .tangerineWhistle
  | 3 => .spuriousDragon
  | 4 => .byzantium
  | 5 => .constantinople
  | 6 => .petersburg
  | 7 => .istanbul
  | 8 => .berlin
  | 9 => .london
  | _ => .shanghai

/-- The part of `populate_input` after the header, on the data that is left. -/
def populate (statusOf : Nat → StatusCode) (header : Header) (data : Buffer) : Option FuzzInput :=
  if data.size < header.inputSize16bits then some .invalid  -- Not enough data for input.
  else do
    let rev := if latestRev.toNat < header.rev4bits then latestRev else castRevision header.rev4bits
    let destination ← generateInterestingAddress header.destination8bits
    let sender ← generateInterestingAddress header.sender8bits
    let value ← generateInterestingValue header.value8bits
    let create2Salt ← generateInterestingValue header.create2Salt8bits
    let input := data.take header.inputSize16bits
    let data := data.drop header.inputSize16bits
    let txGasPrice ← generateInterestingValue header.txGasPrice8bits
    let txOrigin ← generateInterestingAddress header.txOrigin8bits
    let blockCoinbase ← generateInterestingAddress header.blockCoinbase8bits
    let blockDifficulty ← generateInterestingValue header.blockDifficulty8bits
    let chainId ← generateInterestingValue header.chainid8bits
    let balance ← generateInterestingValue header.accountBalance8bits
    let storageKey1 ← generateInterestingValue header.accountStorageKey1
    let storageKey2 ← generateInterestingValue header.accountStorageKey2
    let codehash ← generateInterestingValue header.accountCodehash8bits
    -- Use 3/5 of the input from the end as the potential call output.
    let offset := header.inputSize16bits * 2 / 5
    pure {
      rev := rev
      msg := {
        kind := if header.kind1bit ≠ 0 then .create else .call
        flags := if header.static1bit ≠ 0 then ivmcStatic else 0
        depth := generateDepth header.depth2bits
        gas :=
          if rev ≤ oldRev then (min header.gas24bits oldRevMaxGas : Int) else header.gas24bits
        recipient := destination
        sender := sender
        input := input.bytes
        value := value
        create2Salt := create2Salt }
      host := {
        txContext := {
          txGasPrice := txGasPrice
          txOrigin := txOrigin
          blockCoinbase := blockCoinbase
          blockNumber := expandBlockNumber header.blockNumber8bits
          blockTimestamp := expandBlockTimestamp header.blockTimestamp8bits
          blockGasLimit := expandBlockGasLimit header.blockGasLimit8bits
          blockDifficulty := blockDifficulty
          chainId := chainId
          blockBaseFee := 0 }
        accounts := [(destination, {
          balance := balance
          codehash := codehash
          code := data
          storage := [(0, ⟨storageKey2, false⟩), (storageKey1, ⟨storageKey2, false⟩),
            -- A dirty value as if it has been already modified in this transaction.
            (storageKey2, ⟨storageKey1, true⟩)] })]
        callResult := ⟨statusOf header.callResultStatus4bits, 0, input.drop offset, 0⟩
        gasLeftFactor := header.callResultGasLeftFactor4bits }
      input_size_lt := input.size_lt }

def minRequiredSize : Nat := 24

/-- Past the first test the header is inside the data. -/
theorem header_index_lt {data : Buffer} (h : ¬ data.size < minRequiredSize) (n : Fin 24) :
    n.val < data.bytes.length := Nat.lt_of_lt_of_le n.isLt (Nat.not_lt.1 h)

/-- `populate_input`: there is no input if a generator leaves its array. -/
def populateInput (statusOf : Nat → StatusCode) (data : Buffer) : Option FuzzInput :=
  if h : data.size < minRequiredSize then some .invalid
  else
    populate statusOf (Header.read fun n => data.bytes.get ⟨n.val, header_index_lt h n⟩)
      (data.drop minRequiredSize)

/-! ## What is produced -/

/-- The input `populate_input` makes of a header and the data after it. -/
structure Populated (header : Header) (data : Buffer) (input : FuzzInput) : Prop where
  rev : input.rev =
    if latestRev.toNat < header.rev4bits then latestRev else castRevision header.rev4bits
  kind : input.msg.kind = if header.kind1bit ≠ 0 then .create else .call
  flags : input.msg.flags = if header.static1bit ≠ 0 then ivmcStatic else 0
  depth : input.msg.depth = generateDepth header.depth2bits
  gas : input.msg.gas =
    if input.rev ≤ oldRev then (min header.gas24bits oldRevMaxGas : Int) else header.gas24bits
  callData : input.msg.input = data.bytes.take header.inputSize16bits
  code : input.code = data.drop header.inputSize16bits

theorem exists_populate (statusOf : Nat → StatusCode) (header : Header) (data : Buffer) :
    ∃ input, populate statusOf header data = some input ∧
      (data.size < header.inputSize16bits → input = .invalid) ∧
      (header.inputSize16bits ≤ data.size → Populated header data input) := by
  obtain ⟨destination, hdestination⟩ := exists_generateInterestingAddress header.destination8bits
  obtain ⟨sender, hsender⟩ := exists_generateInterestingAddress header.sender8bits
  obtain ⟨value, hvalue⟩ := exists_generateInterestingValue header.value8bits
  obtain ⟨salt, hsalt⟩ := exists_generateInterestingValue header.create2Salt8bits
  obtain ⟨gasPrice, hgasPrice⟩ := exists_generateInterestingValue header.txGasPrice8bits
  obtain ⟨origin, horigin⟩ := exists_generateInterestingAddress header.txOrigin8bits
  obtain ⟨coinbase, hcoinbase⟩ := exists_generateInterestingAddress header.blockCoinbase8bits
  obtain ⟨difficulty, hdifficulty⟩ := exists_generateInterestingValue header.blockDifficulty8bits
  obtain ⟨chainId, hchainId⟩ := exists_generateInterestingValue header.chainid8bits
  obtain ⟨balance, hbalance⟩ := exists_generateInterestingValue header.accountBalance8bits
  obtain ⟨key1, hkey1⟩ := exists_generateInterestingValue header.accountStorageKey1
  obtain ⟨key2, hkey2⟩ := exists_generateInterestingValue header.accountStorageKey2
  obtain ⟨codehash, hcodehash⟩ := exists_generateInterestingValue header.accountCodehash8bits
  by_cases hshort : data.size < header.inputSize16bits
  · exact ⟨.invalid, if_pos hshort, fun _ => rfl, fun hle => absurd hshort (Nat.not_lt.2 hle)⟩
  · unfold populate
    rw [if_neg hshort, hdestination, hsender, hvalue, hsalt, hgasPrice, horigin, hcoinbase,
      hdifficulty, hchainId, hbalance, hkey1, hkey2, hcodehash]
    -- the code is looked up under the recipient, the only account there is
    refine ⟨_, rfl, fun h => absurd h hshort, fun _ => ⟨rfl, rfl, rfl, rfl, rfl, rfl, ?_⟩⟩
    simp [FuzzInput.code]

/-! ## Headers -/

theorem shiftLeft_or {a b : Nat} (hb : b < 256) : (a <<< 8) ||| b = a * 256 + b := by
  rw [← Nat.shiftLeft_add_eq_or_of_lt (show b < 2 ^ 8 from hb), Nat.shiftLeft_eq]

theorem shiftLeft_or_or {a b c : Nat} (hb : b < 256) (hc : c < 256) :
    (a <<< 16) ||| (b <<< 8) ||| c = (a * 256 + b) * 256 + c := by
  have hshift : (a <<< 16) ||| (b <<< 8) = ((a <<< 8) ||| b) <<< 8 := by
    rw [Nat.shiftLeft_or_distrib, ← Nat.shiftLeft_add]
  rw [hshift, shiftLeft_or hc, shiftLeft_or hb]

theorem byte_lt (b : Byte) : b.toNat < 256 := b.isLt

/-- The fields of a header that decide about the message, as numbers. -/
theorem Header.read_eq (data : Fin 24 → Byte) :
    (Header.read data).rev4bits = (data 0).toNat / 16 ∧
      (Header.read data).kind1bit = (data 0).toNat / 8 % 2 ∧
      (Header.read data).static1bit = (data 0).toNat / 4 % 2 ∧
      (Header.read data).depth2bits = (data 0).toNat % 4 ∧
      (Header.read data).gas24bits =
        ((data 1).toNat * 256 + (data 2).toNat) * 256 + (data 3).toNat ∧
      (Header.read data).inputSize16bits = (data 4).toNat * 256 + (data 5).toNat := by
  refine ⟨?_, ?_, ?_, ?_, shiftLeft_or_or (byte_lt _) (byte_lt _), shiftLeft_or (byte_lt _)⟩
  · exact Nat.shiftRight_eq_div_pow _ 4
  · exact (Nat.and_one_is_mod _).trans (by rw [Nat.shiftRight_eq_div_pow])
  · exact (Nat.and_one_is_mod _).trans (by rw [Nat.shiftRight_eq_div_pow])
  · exact Nat.and_two_pow_sub_one_eq_mod _ 2

/-- A revision and a message that the fuzzer can run. -/
structure InRange (rev : Revision) (msg : Message) : Prop where
  latest : rev ≤ latestRev
  kind : msg.kind = .call ∨ msg.kind = .create
  flags : msg.flags = 0 ∨ msg.flags = ivmcStatic
  depth : msg.depth = 0 ∨ msg.depth = 1 ∨ msg.depth = 1023 ∨ msg.depth = 1024
  gas : 0 ≤ msg.gas ∧ msg.gas < 2 ^ 24
  oldGas : rev ≤ oldRev → msg.gas ≤ 500000
  input : msg.input.length < 2 ^ 16

theorem generateDepth_cases {x : Nat} (hx : x < 4) :
    generateDepth x = 0 ∨ generateDepth x = 1 ∨ generateDepth x = 1023 ∨
      generateDepth x = 1024 := by
  interval_cases x <;> decide

theorem castRevision_le {n : Nat} (hn : n ≤ latestRev.toNat) : castRevision n ≤ latestRev := by
  have hle : n ≤ 7 := hn
  interval_cases n <;> decide

/-- Every header gives a message that is in range. -/
theorem Populated.inRange {bytes : Fin 24 → Byte} {data : Buffer} {input : FuzzInput}
    (h : Populated (Header.read bytes) data input) : InRange input.rev input.msg := by
  obtain ⟨-, -, -, hdepth, hgas, hsize⟩ := Header.read_eq bytes
  have h1 := byte_lt (bytes 1)
  have h2 := byte_lt (bytes 2)
  have h3 := byte_lt (bytes 3)
  have h4 := byte_lt (bytes 4)
  have h5 := byte_lt (bytes 5)
  refine ⟨?_, ?_, ?_, ?_, ?_, ?_, ?_⟩
  · rw [h.rev]
    split
    · exact Nat.le_refl _
    · rename_i hle
      exact castRevision_le (Nat.not_lt.1 hle)
  · rw [h.kind]
    split
    · exact .inr rfl
    · exact .inl rfl
  · rw [h.flags]
    split
    · exact .inr rfl
    · exact .inl rfl
  · rw [h.depth, hdepth]
    exact generateDepth_cases (Nat.mod_lt _ (by norm_num))
  · rw [h.gas, hgas]
    unfold oldRevMaxGas
    split <;> omega
  · intro hold
    rw [h.gas, if_pos hold]
    unfold oldRevMaxGas
    omega
  · rw [h.callData, List.length_take, hsize]
    omega

/-- What becomes of the data: it is too short, or it is cut into the header, the call data and the
code. -/
theorem exists_populateInput (statusOf : Nat → StatusCode) (data : Buffer) :
    ∃ input, populateInput statusOf data = some input ∧
      (input = .invalid ∨ InRange input.rev input.msg ∧
        data.bytes.drop minRequiredSize = input.msg.input ++ input.code.bytes) := by
  by_cases hshort : data.size < minRequiredSize
  · exact ⟨.invalid, dif_pos hshort, .inl rfl⟩
  · unfold populateInput
    rw [dif_neg hshort]
    generalize hbytes : (fun n : Fin 24 => data.bytes.get ⟨n.val, header_index_lt hshort n⟩) = bytes
    obtain ⟨input, hinput, hinvalid, hpopulated⟩ :=
      exists_populate statusOf (Header.read bytes) (data.drop minRequiredSize)
    refine ⟨input, hinput, ?_⟩
    rcases Nat.lt_or_ge (data.drop minRequiredSize).size (Header.read bytes).inputSize16bits with
      hlt | hge
    · exact .inl (hinvalid hlt)
    · have h := hpopulated hge
      refine .inr ⟨h.inRange, ?_⟩
      rw [h.callData, h.code]
      exact (List.take_append_drop _ _).symm

/-- An input in range is a valid one. -/
theorem InRange.isValid {input : FuzzInput} (h : InRange input.rev input.msg) : input.IsValid := by
  have hgas := h.gas
  unfold FuzzInput.IsValid
  omega

end Fuzzer

end Ivmone
