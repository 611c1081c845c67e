import Ivmone.FuzzInputs
import Ivmone.GasThreshold
import Ivmone.Replays
import Ivmone.Statuses
import Ivmone.Vm

/-!
# The fuzz target

`LLVMFuzzerTestOneInput` of `test/fuzzer/fuzzer.cpp` executes one input with the reference VM and
with all external VMs, and compares what they return and what they have asked the host. Without Aleth
the only external VM is one whose interpreter is Baseline, and no input makes an assertion fail: with
less than `2 ^ 24` gas none of the differences between the interpreters is in reach.

`ivmc::MockedHost` is not part of the repository. It is a parameter: some host, the state its fields
have been set to, and what it has recorded in a state.
-/

set_option autoImplicit false

namespace Ivmone

open Lib

variable {σ : Type}

namespace Fuzzer

/-! ## The host -/

/-- `ivmc::MockedHost`. -/
structure MockedHost (σ : Type) where
  host : Host σ
  /-- The host whose fields have been set. -/
  create : FuzzHost → σ
  recordedCalls : σ → List Message
  /-- The creator, the data and the topics of each log. -/
  recordedLogs : σ → List (Address × List Byte × List UInt256)
  recordedBlockhashes : σ → List Int
  /-- Each account that has been destructed, with the beneficiary. -/
  recordedSelfdestructs : σ → List (Address × Address)

/-- `memcpy` to the bytes of an address, of no more bytes than it has. -/
def fillAddress (addr : Address) (bytes : List Byte) : Address :=
  let old := (beStore (UInt256.ofAddress addr)).drop 12
  (beLoad (bytes.take 20 ++ old.drop (min 20 bytes.length))).toAddress

/-- The gas left that `FuzzHost::call` sets. -/
def gasLeftOf (gasLeftFactor : Nat) (gas : Int) : Int :=
  if gasLeftFactor = 0 then 0
  else if gasLeftFactor = 1 then gas
  else gas.tdiv (gasLeftFactor + 3)

/-- `FuzzHost::call`. -/
def callResultOf (gasLeftFactor : Nat) (msg : Message) (result : CallResult) : CallResult :=
  { result with
    gasLeft := gasLeftOf gasLeftFactor msg.gas
    -- The output stays, to check that the VM is going to ignore it.
    createAddress :=
      if msg.kind = .create ∨ msg.kind = .create2 then
        fillAddress result.createAddress result.output.bytes
      else result.createAddress }

/-- `class FuzzHost`: it overrides `call` and inherits the rest. -/
def fuzzHost (mocked : MockedHost σ) (gasLeftFactor : Nat) : Host σ := fun q st =>
  match q with
  | .call msg =>
      let (result, st') := mocked.host (.call msg) st
      (callResultOf gasLeftFactor msg result, st')
  | q => mocked.host q st

theorem fuzzHost_callBounded (mocked : MockedHost σ) (gasLeftFactor : Nat) :
    (fuzzHost mocked gasLeftFactor).CallBounded := by
  intro msg st hgas
  show 0 ≤ gasLeftOf gasLeftFactor msg.gas ∧ gasLeftOf gasLeftFactor msg.gas ≤ msg.gas
  unfold gasLeftOf
  split
  · exact ⟨le_rfl, hgas⟩
  · split
    · exact ⟨hgas, le_rfl⟩
    · exact ⟨Int.tdiv_nonneg hgas (by omega), Int.tdiv_le_self _ hgas⟩

theorem fuzzHost_copyFits {mocked : MockedHost σ} (h : mocked.host.CopyFits)
    (gasLeftFactor : Nat) : (fuzzHost mocked gasLeftFactor).CopyFits := h

/-! ## The target -/

/-- The memory that an execution allocates and does not initialise. -/
structure Surroundings where
  alloc : Allocator
  uninitStack : Stack
  uninitCode : Nat → Byte

/-- An execution of an input on a copy of its host. -/
def FuzzInput.invocation (input : FuzzInput) (mocked : MockedHost σ)
    (keccak256 : List Byte → UInt256) (m : Surroundings) : Invocation σ where
  ctx := ⟨input.msg, input.rev, input.code, input.input_size_lt⟩
  env := ⟨fuzzHost mocked input.host.gasLeftFactor, keccak256, m.alloc⟩
  host := mocked.create input.host
  uninitStack := m.uninitStack
  uninitCode := m.uninitCode

/-- `check_and_normalize`: there is no status if the assertion fails. -/
def checkAndNormalize (status : StatusCode) : Option StatusCode :=
  match status with
  | .other code => if 0 ≤ code then some .failure else none
  | status => some status.normalize

/-- What `execute` returns, with the host after it. There is nothing if the execution faults. -/
def execute (vm : Vm) (i : Invocation (World σ)) : Part (Option (World σ × ExecutionResult)) :=
  (vm.run i).map fun c =>
    match c with
    | .halted s => (makeResult s).map fun r => (s.host, r)
    | _ => none

/-- The fields of recorded calls that are compared. -/
def sameCall (m1 m2 : Message) : Bool :=
  m1.kind = m2.kind ∧ m1.flags = m2.flags ∧ m1.depth = m2.depth ∧ m1.gas = m2.gas ∧
    m1.recipient = m2.recipient ∧ m1.sender = m2.sender ∧ m1.input = m2.input ∧
    m1.value = m2.value ∧ m1.create2Salt = m2.create2Salt

/-- The assertions on what two hosts have recorded. -/
def sameRecords (mocked : MockedHost σ) (refHost host : σ) : Bool :=
  let calls1 := mocked.recordedCalls refHost
  let calls2 := mocked.recordedCalls host
  calls1.length = calls2.length ∧ ((calls1.zip calls2).all fun m => sameCall m.1 m.2) ∧
    mocked.recordedLogs refHost = mocked.recordedLogs host ∧
    (mocked.recordedBlockhashes refHost).length = (mocked.recordedBlockhashes host).length ∧
    mocked.recordedBlockhashes refHost = mocked.recordedBlockhashes host ∧
    mocked.recordedSelfdestructs refHost = mocked.recordedSelfdestructs host

/-- The assertions on the execution of an external VM. -/
def passes (mocked : MockedHost σ) (refStatus : StatusCode) (ref res : σ × ExecutionResult) :
    Bool :=
  match checkAndNormalize res.2.status with
  | none => false
  | some status =>
      status = refStatus ∧ res.2.gasLeft = ref.2.gasLeft ∧ res.2.output = ref.2.output ∧
        (refStatus ≠ .failure → sameRecords mocked ref.1 res.1)

/-- The reference VM. -/
def refVm : Vm := Vm.configured []

/-- Aleth is left out, as the build does by default. -/
def externalVms : List Vm := [Vm.configured [(some "O", some "0")]]

section Target

variable (mocked : MockedHost (World σ)) (keccak256 : List Byte → UInt256)
  (memory : Nat → Surroundings) (input : FuzzInput) (refStatus : StatusCode)
  (ref : World σ × ExecutionResult)

/-- The loop over the external VMs; `n` executions have been done before. -/
def compareWith : List Vm → Nat → Part Bool
  | [], _ => pure true
  | vm :: vms, n => do
      let res ← execute vm (input.invocation mocked keccak256 (memory n))
      match res with
      | none => pure false
      | some res =>
          if passes mocked refStatus ref res then compareWith vms (n + 1) else pure false

/-- `LLVMFuzzerTestOneInput`: `true` if it returns, `false` if an assertion fails. -/
def testOneInput (statusOf : Nat → StatusCode) (data : Buffer) : Part Bool :=
  match populateInput statusOf data with
  | none => pure false
  | some input =>
      if ¬ input.IsValid then pure true
      else do
        let ref ← execute refVm (input.invocation mocked keccak256 (memory 0))
        match ref with
        | none => pure false
        | some ref =>
            match checkAndNormalize ref.2.status with
            | none => pure false
            | some refStatus =>
                if refStatus = .failure ∧ ref.2.gasLeft ≠ 0 then pure false
                else compareWith mocked keccak256 memory input refStatus ref externalVms 1

end Target

/-! ## No assertion fails -/

theorem checkAndNormalize_of_isInterpreted {status : StatusCode} (h : status.IsInterpreted) :
    checkAndNormalize status = some status.normalize := by
  cases status with
  | other code => exact h.elim
  | _ => rfl

theorem normalize_eq_failure_iff {status : StatusCode} :
    status.normalize = .failure ↔ ¬ status.keepsGas := by
  cases status <;> simp [StatusCode.normalize, StatusCode.keepsGas]

/-- Every call is the same as itself. -/
theorem all_sameCall (calls : List Message) :
    ((calls.zip calls).all fun m => sameCall m.1 m.2) = true := by
  induction calls with
  | nil => rfl
  | cons m calls ih =>
      rw [List.zip_cons_cons, List.all_cons, ih, Bool.and_true]
      simp [sameCall]

theorem sameRecords_refl (mocked : MockedHost σ) (host : σ) :
    sameRecords mocked host host = true := by
  simp [sameRecords, all_sameCall]

/-- The reference VM runs Advanced. -/
theorem mem_execute_refVm {i : Invocation (World σ)} {t : Advanced.AdvancedExecutionState (World σ)}
    {r : ExecutionResult} (ht : .halted t ∈ Advanced.execute i)
    (hr : makeResult t.toExecutionState = some r) : some (t.host, r) ∈ execute refVm i := by
  have hrun : Config.halted t.toExecutionState ∈ refVm.run i :=
    Part.mem_map (fun c => c.map (·.toExecutionState)) ht
  refine (Part.mem_map_iff _).2 ⟨_, hrun, ?_⟩
  simp only [hr, Option.map_some]

/-- The option of the external VM makes it run Baseline, without tracers. -/
theorem mem_execute_externalVm {i : Invocation (World σ)} {s : ExecutionState (World σ)}
    {r : ExecutionResult} (hs : .halted s ∈ Baseline.execute i) (hr : makeResult s = some r) :
    some (s.host, r) ∈ execute (Vm.configured [(some "O", some "0")]) i := by
  have hrun : Config.halted s ∈ (Vm.configured [(some "O", some "0")]).run i := hs
  refine (Part.mem_map_iff _).2 ⟨_, hrun, ?_⟩
  simp only [hr, Option.map_some]

/-- Equal records of answers leave the same host. -/
theorem host_eq_of_calls {i j : Invocation σ} (hsame : i.Same j) {s : ExecutionState σ}
    {t : Advanced.AdvancedExecutionState σ} (hs : .halted s ∈ Baseline.execute i)
    (ht : .halted t ∈ Advanced.execute j) (hcalls : s.calls = t.calls) : s.host = t.host := by
  obtain ⟨m, hm⟩ := exists_after_of_reaches (ends_iff_mem_eval.2 hs).1
  obtain ⟨n, hn⟩ := exists_after_of_reaches (ends_iff_mem_eval.2 ht).1
  have hanswers := (Baseline.after_replays i i.env.host m (s := s) (by rw [hm]; rfl)).1
  have hanswers' := (Advanced.after_replays j j.env.host n (s := t) (by rw [hn]; rfl)).1
  rw [hcalls, hsame.envHost, hsame.host] at hanswers
  exact hanswers.unique hanswers'

section Passes

variable {mocked : MockedHost (World σ)} {input : FuzzInput}

/-- Both VMs end, and every assertion about what they return holds. -/
theorem exists_executions (keccak256 : List Byte → UInt256) (hrange : InRange input.rev input.msg)
    (hsize : input.code.bytes.length < 2 ^ 30) (hcopy : mocked.host.CopyFits)
    (m m' : Surroundings) :
    ∃ ref res refStatus,
      some ref ∈ execute refVm (input.invocation mocked keccak256 m) ∧
      some res ∈ execute (Vm.configured [(some "O", some "0")])
        (input.invocation mocked keccak256 m') ∧
      checkAndNormalize ref.2.status = some refStatus ∧
      (refStatus = .failure → ref.2.gasLeft = 0) ∧ passes mocked refStatus ref res = true := by
  let j := input.invocation mocked keccak256 m
  let i := input.invocation mocked keccak256 m'
  have hsame : i.Same j := ⟨rfl, rfl, rfl, rfl⟩
  obtain ⟨h0, hgas⟩ : 0 ≤ i.ctx.msg.gas ∧ i.ctx.msg.gas < 2 ^ 24 := hrange.gas
  -- so little gas does not pay for a block whose cost does not fit
  obtain ⟨s, t, r, r', hs, ht, hr, hr', hresult, hcalls⟩ := exists_same_results hsame hsize h0
    (by omega) (fuzzHost_callBounded mocked _) (fuzzHost_copyFits hcopy _)
    (fun _ _ => .inr (by omega)) (.inr (by omega))
  obtain ⟨hstatus, -⟩ := makeResult_fields hr
  obtain ⟨hstatus', hgasLeft'⟩ := makeResult_fields hr'
  -- the assertion about unknown statuses: an interpreter gives none
  obtain ⟨_, _, -, -, hblames⟩ := Baseline.exists_blames (ends_iff_mem_eval.2 hs).1
  obtain ⟨_, _, -, -, hblames'⟩ := Advanced.exists_blames hsize (ends_iff_mem_eval.2 ht).1
  have hcheck : checkAndNormalize r.status = some r.status.normalize :=
    checkAndNormalize_of_isInterpreted (hstatus ▸ hblames.isInterpreted)
  have hcheck' : checkAndNormalize r'.status = some r'.status.normalize :=
    checkAndNormalize_of_isInterpreted (hstatus' ▸ hblames'.isInterpreted)
  refine ⟨(t.host, r'), (s.host, r), r'.status.normalize, mem_execute_refVm ht hr',
    mem_execute_externalVm hs hr, hcheck', ?_, ?_⟩
  · intro hfailure
    show r'.gasLeft = 0
    rw [hgasLeft', ← hstatus', if_neg (normalize_eq_failure_iff.1 hfailure)]
  · unfold passes
    rw [hcheck]
    simp only [decide_eq_true_eq]
    refine ⟨hresult.status, hresult.gasLeft, hresult.output, fun hne => ?_⟩
    -- records are compared only if there is no failure; then both hosts are in the same state
    have hkeeps : r.status.keepsGas := by
      by_contra hnot
      exact hne (hresult.status.symm.trans (normalize_eq_failure_iff.2 hnot))
    rw [host_eq_of_calls hsame hs ht (hcalls hkeeps)]
    exact sameRecords_refl mocked t.host

/-- The input that is executed comes from the data, so its code is no longer. -/
theorem length_code_le {data : Buffer} (hdata : data.bytes.drop minRequiredSize =
    input.msg.input ++ input.code.bytes) : input.code.bytes.length ≤ data.size := by
  have hlength := congrArg List.length hdata
  rw [List.length_drop, List.length_append] at hlength
  unfold Buffer.size
  omega

end Passes

/-- No data makes the fuzz target fail: the target returns, for every mocked host and whatever is in
uninitialised memory. -/
theorem fuzz_target_passes (mocked : MockedHost (World σ)) (hcopy : mocked.host.CopyFits)
    (statusOf : Nat → StatusCode) (keccak256 : List Byte → UInt256) (memory : Nat → Surroundings)
    (data : Buffer) (hsize : data.size < 2 ^ 30) :
    true ∈ testOneInput mocked keccak256 memory statusOf data := by
  obtain ⟨input, hinput, hcases⟩ := exists_populateInput statusOf data
  unfold testOneInput
  rw [hinput]
  dsimp only
  rcases hcases with rfl | ⟨hrange, hdata⟩
  · exact Part.mem_some true
  · rw [if_neg (not_not.2 hrange.isValid)]
    have hcode := length_code_le hdata
    obtain ⟨ref, res, refStatus, href, hres, hcheck, hgas, hpasses⟩ := exists_executions
      keccak256 hrange (Nat.lt_of_le_of_lt hcode hsize) hcopy (memory 0) (memory 1)
    refine Part.mem_bind href ?_
    dsimp only
    rw [hcheck]
    dsimp only
    rw [if_neg (fun h => h.2 (hgas h.1))]
    refine Part.mem_bind hres ?_
    dsimp only
    rw [if_pos hpasses]
    exact Part.mem_some true

/-- A mocked host without accounts. It has nothing to record as long as it is not asked. -/
def unasked : MockedHost (World Unit) where
  host q w := ((emptyHost q w.state).1, w)
  create _ := ⟨(), []⟩
  recordedCalls _ := []
  recordedLogs _ := []
  recordedBlockhashes _ := []
  recordedSelfdestructs _ := []

/-- A header of zeros, without call data and code. -/
def zeroHeader : Buffer := ⟨List.replicate 24 0, by rw [List.length_replicate]; norm_num⟩

theorem fuzz_target_passes_zeroHeader :
    true ∈ testOneInput unasked (fun _ => 0)
      (fun _ => ⟨zeroAllocator, truncatedPush.uninitStack, fun _ => 0⟩) (fun _ => .success)
      zeroHeader :=
  fuzz_target_passes unasked (fun _ _ _ _ => Nat.zero_le _) (fun _ => .success) (fun _ => 0)
    (fun _ => ⟨zeroAllocator, truncatedPush.uninitStack, fun _ => 0⟩) zeroHeader (by decide)

end Fuzzer

end Ivmone
