import Ivmone.AdvancedRuns
import Ivmone.Effects
import Ivmone.Lib.Replay
import Ivmone.StaticMode
import Ivmone.TracedExecutions

/-!
# Replaying executions

The host is the only thing outside an execution that it asks, and the requests with their answers are
recorded in the state. With any host that gives the answers of the record, in the same order, the
execution is the same, round by round. One such host does nothing but read them from the record.
-/

set_option autoImplicit false

namespace Ivmone

open Lib Lib.Program

variable {σ τ : Type}

/-! ## Hosts that answer the same -/

/-- From one state to another, the host gives the answers of the record. -/
def Host.Answers (host : Host τ) : List HostCall → τ → τ → Prop
  | [], w, w' => w' = w
  | c :: log, w, w' =>
      (host c.request w).1 = c.response ∧ Host.Answers host log (host c.request w).2 w'

theorem Host.Answers.of_append {host : Host τ} {x y : List HostCall} {w w'' : τ}
    (h : host.Answers (x ++ y) w w'') : ∃ w', host.Answers x w w' ∧ host.Answers y w' w'' := by
  induction x generalizing w with
  | nil => exact ⟨w, rfl, h⟩
  | cons c x ih =>
      obtain ⟨hanswer, hrest⟩ := h
      obtain ⟨w', hx, hy⟩ := ih hrest
      exact ⟨w', ⟨hanswer, hx⟩, hy⟩

theorem Host.Answers.append {host : Host τ} {x y : List HostCall} {w w' w'' : τ}
    (hx : host.Answers x w w') (hy : host.Answers y w' w'') : host.Answers (x ++ y) w w'' := by
  induction x generalizing w with
  | nil => exact hx ▸ hy
  | cons c x ih => exact ⟨hx.1, ih hx.2⟩

/-- The answers of a record determine the state of the host. -/
theorem Host.Answers.unique {host : Host τ} {log : List HostCall} {w w' w'' : τ}
    (h : host.Answers log w w') (h' : host.Answers log w w'') : w' = w'' := by
  induction log generalizing w with
  | nil => exact h.trans h'.symm
  | cons c log ih => exact ih h.2 h'.2

namespace ExecutionState

/-- The state with the state of another host. -/
def withHost (s : ExecutionState σ) (w : τ) : ExecutionState τ := { s with host := w }

variable (s : ExecutionState σ) (w : τ)

/-- The end of `grow_memory`, where the cost has been subtracted. -/
theorem growPaid_withHost (alloc : Allocator) (newSize : Nat) :
    (if (s.withHost w).gasLeft < 0 then .ok false (s.withHost w)
      else
        match (s.withHost w).memory.grow? alloc newSize with
        | some memory => .ok true { s.withHost w with memory := memory }
        | none => .fault .growth : Result τ Bool) =
      (if s.gasLeft < 0 then .ok false s
        else
          match s.memory.grow? alloc newSize with
          | some memory => .ok true { s with memory := memory }
          | none => .fault .growth : Result σ Bool).mapState fun t => t.withHost w := by
  have hgas : (s.withHost w).gasLeft = s.gasLeft := rfl
  have hmemory : (s.withHost w).memory = s.memory := rfl
  rw [hgas, hmemory]
  split
  · rfl
  · cases s.memory.grow? alloc newSize <;> rfl

theorem growMemory_withHost (alloc : Allocator) (newSize : Nat) :
    (s.withHost w).growMemory alloc newSize =
      (s.growMemory alloc newSize).mapState fun t => t.withHost w := by
  let cost := memoryCost (numWords newSize) - memoryCost (s.memory.size / wordSize)
  let noted := ((((s.noteInt64 (numWords newSize * numWords newSize)).noteInt64
    (memoryCost (numWords newSize))).noteInt64
    (s.memory.size / wordSize * (s.memory.size / wordSize))).noteInt64
    (memoryCost (s.memory.size / wordSize))).noteInt64 cost
  exact growPaid_withHost (noted.setGas (s.gasLeft - cost)) w alloc _

theorem checkMemory64_withHost (alloc : Allocator) (offset : UInt256) (size : Nat) :
    (s.withHost w).checkMemory64 alloc offset size =
      (s.checkMemory64 alloc offset size).mapState fun t => t.withHost w := by
  have hmemory : (s.withHost w).memory = s.memory := rfl
  unfold checkMemory64
  simp only [hmemory]
  split
  · rfl
  · split
    · exact s.growMemory_withHost w alloc _
    · rfl

theorem checkMemory_withHost (alloc : Allocator) (offset : UInt256) (size : MemorySize) :
    (s.withHost w).checkMemory alloc offset size =
      (s.checkMemory alloc offset size).mapState fun t => t.withHost w := by
  cases size with
  | u64 size => exact s.checkMemory64_withHost w alloc offset size
  | u256 size =>
      show (s.withHost w).checkMemory256 _ _ _ = Outcome.mapState _ (s.checkMemory256 _ _ _)
      unfold checkMemory256
      split
      · rfl
      · split
        · rfl
        · exact s.checkMemory64_withHost w alloc offset _

end ExecutionState

/-- The environment with another host. -/
def Env.withHost (env : Env σ) (host : Host τ) : Env τ := ⟨host, env.keccak256, env.alloc⟩

/-! ## Replaying implementations -/

/-- The record of what the host has answered between two states. -/
def hostReplay (host : Host σ) (host' : Host τ) :
    Replay (ExecutionState σ) (ExecutionState τ) τ HostCall where
  place s w := s.withHost w
  path := host'.Answers
  grows s log t := t.calls = s.calls ++ log ∧ host.Answers log s.host t.host
  path_nil := id
  path_append := Host.Answers.of_append
  grows_nil s := ⟨(List.append_nil _).symm, rfl⟩
  grows_append h h' :=
    ⟨by rw [h'.1, h.1, List.append_assoc], h.2.append h'.2⟩

variable {env : Env σ} {host' : Host τ}

/-- Operations other than requests leave the host alone. -/
theorem handle_silent {o : Op} (ho : ∀ q, o ≠ .request q) (s : ExecutionState σ) :
    (handle env o s).Meets (fun _ t => t.calls = s.calls ∧ t.host = s.host)
      (fun _ t => t.calls = s.calls ∧ t.host = s.host) fun _ => True := by
  cases o with
  | request q => exact absurd rfl (ho q)
  | checkMemory offset size =>
      have hgrows : ∀ t, Grows s t → t.calls = s.calls ∧ t.host = s.host := by
        rintro _ ⟨memory, gas, ghost, rfl, -⟩
        exact ⟨rfl, rfl⟩
      exact (grows_handle env s offset size).mono (fun _ => hgrows) (fun _ => hgrows) fun _ => id
  | pop | push | peek | poke | load | store =>
      simp only [handle]
      split
      · exact ⟨rfl, rfl⟩
      · trivial
  | charge cost =>
      simp only [handle]
      split
      · exact ⟨rfl, rfl⟩
      · exact ⟨rfl, rfl⟩
  | fault f => trivial
  | _ => exact ⟨rfl, rfl⟩

/-- They do the same with any host. -/
theorem handle_withHost {o : Op} (ho : ∀ q, o ≠ .request q) (s : ExecutionState σ) (w : τ) :
    handle (env.withHost host') o (s.withHost w) =
      (handle env o s).mapState fun t => t.withHost w := by
  have hstack : (s.withHost w).stack = s.stack := rfl
  have hmemory : (s.withHost w).memory = s.memory := rfl
  cases o with
  | request q => exact absurd rfl (ho q)
  | checkMemory offset size =>
      show ((s.withHost w).checkMemory env.alloc offset size).bind _ = _
      rw [s.checkMemory_withHost w env.alloc offset size]
      show _ = Outcome.mapState _ ((s.checkMemory env.alloc offset size).bind _)
      cases s.checkMemory env.alloc offset size with
      | ok passed t => cases passed <;> rfl
      | exit status t => rfl
      | fault f => rfl
  | pop | push | peek | poke =>
      simp only [handle, hstack]
      split <;> rfl
  | load | store =>
      simp only [handle, hmemory]
      split <;> rfl
  | charge cost =>
      have hgas : (((s.withHost w).noteInt64 cost).setGas ((s.withHost w).gasLeft - cost)).gasLeft =
          ((s.noteInt64 cost).setGas (s.gasLeft - cost)).gasLeft := rfl
      simp only [handle, hgas]
      split <;> rfl
  | _ => rfl

theorem handle_replays (o : Op) (s : ExecutionState σ) :
    ∃ log, (hostReplay env.host host').Outcomes log s (handle env o s)
      (handle (env.withHost host') o) := by
  by_cases hrequest : ∃ q, o = .request q
  · obtain ⟨q, rfl⟩ := hrequest
    -- the other host gives the recorded answer, so both states record the same
    refine ⟨[⟨q, (env.host q s.host).1⟩], ⟨rfl, rfl, rfl⟩, ?_⟩
    rintro w w' ⟨hanswer, rfl⟩
    show Outcome.ok (host' q w).1 ({ s with
      host := (host' q w).2
      calls := s.calls ++ [⟨q, (host' q w).1⟩] } : ExecutionState τ) = _
    rw [hanswer]
    rfl
  · have ho : ∀ q, o ≠ .request q := fun q h => hrequest ⟨q, h⟩
    have hgrows : ∀ t : ExecutionState σ, t.calls = s.calls ∧ t.host = s.host →
        (hostReplay env.host host').grows s [] t := by
      rintro t ⟨hcalls, hhost⟩
      exact ⟨by rw [hcalls, List.append_nil], hhost⟩
    refine ⟨[], (handle_silent ho s).mono (fun _ => hgrows) (fun _ => hgrows) fun _ => id, ?_⟩
    rintro w w' rfl
    exact handle_withHost ho s w'

/-- Every implementation can be replayed. -/
theorem run_replays {α : Type} (p : Exec α) (s : ExecutionState σ) :
    ∃ log, (hostReplay env.host host').Outcomes log s (p.run env s)
      (p.run (env.withHost host')) :=
  Replay.run_replays _ handle_replays p s

/-! ## Replaying rounds -/

/-- The configurations of states that are replayed. -/
def Config.replay {S S' W L : Type} (R : Replay S S' W L) : Replay (Config S) (Config S') W L where
  place c w := c.map fun s => R.place s w
  path := R.path
  grows c log c' := ∀ t, c'.state? = some t → ∃ s, c.state? = some s ∧ R.grows s log t
  path_nil := R.path_nil
  path_append := R.path_append
  grows_nil _ := fun t ht => ⟨t, ht, R.grows_nil t⟩
  grows_append h h' := by
    intro u hu
    obtain ⟨t, ht, hgrows'⟩ := h' u hu
    obtain ⟨s, hs, hgrows⟩ := h t ht
    exact ⟨s, hs, R.grows_append hgrows hgrows'⟩

/-- What a round of a loop does can be replayed. -/
def Replayed {S S' W L : Type} (R : Replay S S' W L) (s : S) (c : Config S) (f' : S' → Config S') :
    Prop :=
  ∃ log, (∀ t, c.state? = some t → R.grows s log t) ∧
    ∀ w w', R.path log w w' → f' (R.place s w) = c.map fun t => R.place t w'

theorem Replayed.fault {S S' W L : Type} {R : Replay S S' W L} {s : S} {f' : S' → Config S'}
    {f : Fault} (h : ∀ w, f' (R.place s w) = .fault f) : Replayed R s (.fault f) f' := by
  refine ⟨[], ?_, fun w w' _ => h w⟩
  intro t ht
  cases ht

theorem Replayed.silent {S S' W L : Type} {R : Replay S S' W L} {s : S} {c : Config S}
    {f' : S' → Config S'} (hgrows : ∀ t, c.state? = some t → R.grows s [] t)
    (h : ∀ w, f' (R.place s w) = c.map fun t => R.place t w) : Replayed R s c f' := by
  refine ⟨[], hgrows, fun w w' hpath => ?_⟩
  rw [R.path_nil hpath]
  exact h w

theorem Replayed.ofResult {host : Host σ} {s : ExecutionState σ} {log : List HostCall}
    {r : Result σ Nat} {f' : ExecutionState τ → Result τ Nat}
    (h : (hostReplay host host').Outcomes log s r f') :
    Replayed (hostReplay host host') s (.ofResult r) fun s' => .ofResult (f' s') := by
  obtain ⟨hgrows, hreplay⟩ := h
  refine ⟨log, ?_, fun w w' hpath => ?_⟩
  · intro t ht
    cases r with
    | ok pos s' =>
        injection ht with ht
        exact ht ▸ hgrows
    | exit status s' =>
        injection ht with ht
        exact ht ▸ hgrows
    | fault f => cases ht
  · show Config.ofResult (f' _) = _
    rw [hreplay w w' hpath]
    cases r <;> rfl

namespace Baseline

theorem checkRequirements_withHost (s : ExecutionState σ) (op : Byte) (w : τ) :
    checkRequirements (s.withHost w) op =
      ((checkRequirements s op).1, (checkRequirements s op).2.withHost w) := by
  have hrev : (s.withHost w).rev = s.rev := rfl
  unfold checkRequirements
  rw [hrev]
  generalize instructionTable s.rev op = metrics
  have hgas : ((s.withHost w).setGas ((s.withHost w).gasLeft - metrics.gasCost)).gasLeft =
      (s.setGas (s.gasLeft - metrics.gasCost)).gasLeft := rfl
  have hstack : ((s.withHost w).setGas ((s.withHost w).gasLeft - metrics.gasCost)).stack =
      (s.setGas (s.gasLeft - metrics.gasCost)).stack := rfl
  simp only [hgas, hstack]
  split_ifs <;> rfl

theorem checkRequirements_silent (s : ExecutionState σ) (op : Byte) :
    (checkRequirements s op).2.calls = s.calls ∧ (checkRequirements s op).2.host = s.host := by
  unfold checkRequirements
  dsimp only
  split_ifs <;> exact ⟨rfl, rfl⟩

theorem dispatch_replays (analysis : CodeAnalysis) (pos : Nat) (op : Byte)
    (s : ExecutionState σ) :
    Replayed (hostReplay env.host host') s (dispatch env analysis pos op s)
      (dispatch (env.withHost host') analysis pos op) := by
  unfold dispatch
  cases Opcode.ofByte op with
  | none => exact .fault fun _ => rfl
  | some opcode =>
      obtain ⟨log, hlog⟩ := run_replays (invoke (op2fn opcode) analysis s.toContext pos) s
      exact .ofResult hlog

/-- One round of the loop. -/
theorem step_replays (analysis : CodeAnalysis) (pos : Nat) (s : ExecutionState σ) :
    ∃ c f', step env analysis (.running pos s) = some c ∧
      (∀ s', step (env.withHost host') analysis (.running pos s') = some (f' s')) ∧
      Replayed (hostReplay env.host host') s c f' := by
  refine ⟨_, _, rfl, fun _ => rfl, ?_⟩
  cases analysis.paddedCode[pos]? with
  | none => exact .fault fun _ => rfl
  | some op =>
      have hwith := checkRequirements_withHost (τ := τ) s op
      have hsilent := checkRequirements_silent s op
      dsimp only
      generalize hcheck : checkRequirements s op = checked at hwith hsilent
      obtain ⟨status, s'⟩ := checked
      obtain ⟨hcalls, hhost⟩ := hsilent
      cases status with
      | success =>
          have hdispatch : Replayed (hostReplay env.host host') s' _ _ :=
            dispatch_replays analysis pos op s'
          obtain ⟨log, hgrows, hreplay⟩ := hdispatch
          refine ⟨log, ?_, fun w w' hpath => ?_⟩
          · intro t ht
            obtain ⟨hlog, hanswers⟩ := hgrows t ht
            exact ⟨hcalls ▸ hlog, hhost ▸ hanswers⟩
          · simp only [hostReplay, hwith]
            exact hreplay w w' hpath
      | _ =>
          apply Replayed.silent
          · rintro _ ⟨⟩
            exact ⟨by rw [List.append_nil]; exact hcalls, hhost⟩
          · intro w
            simp only [hostReplay, hwith]
            rfl

end Baseline

namespace Advanced

/-- The record between two states of the Advanced interpreter. -/
def blockReplay (host : Host σ) (host' : Host τ) :
    Replay (AdvancedExecutionState σ) (AdvancedExecutionState τ) τ HostCall where
  place s w := ⟨s.toExecutionState.withHost w, s.currentBlockCost⟩
  path := host'.Answers
  grows s log t := (hostReplay host host').grows s.toExecutionState log t.toExecutionState
  path_nil := id
  path_append := Host.Answers.of_append
  grows_nil s := (hostReplay host host').grows_nil s.toExecutionState
  grows_append h h' := (hostReplay host host').grows_append h h'

theorem replayed_ofResult {host : Host σ} {s : AdvancedExecutionState σ} {log : List HostCall}
    {r : Result σ Nat} {f' : ExecutionState τ → Result τ Nat}
    (h : (hostReplay host host').Outcomes log s.toExecutionState r f') :
    Replayed (blockReplay host host') s (ofResult s.currentBlockCost r) fun s' =>
      ofResult s'.currentBlockCost (f' s'.toExecutionState) := by
  obtain ⟨hgrows, hreplay⟩ := h
  refine ⟨log, ?_, fun w w' hpath => ?_⟩
  · intro t ht
    cases r with
    | ok ip s' =>
        injection ht with ht
        exact ht ▸ hgrows
    | exit status s' =>
        injection ht with ht
        exact ht ▸ hgrows
    | fault f => cases ht
  · have hrun : f' (s.withHost w) = _ := hreplay w w' hpath
    show ofResult s.currentBlockCost (f' (s.withHost w)) = _
    rw [hrun]
    cases r <;> rfl

theorem opxBeginblock_replays (block : BlockInfo) (ip : Nat) (s : AdvancedExecutionState σ) :
    Replayed (blockReplay env.host host') s (opxBeginblock block ip s) (opxBeginblock block ip) := by
  apply Replayed.silent
  · intro t ht
    rcases opxBeginblock_cases block ip s with ⟨status, -, heq, -⟩ | ⟨heq, -⟩
    · rw [heq] at ht
      cases ht
      exact ⟨(List.append_nil _).symm, rfl⟩
    · rw [heq] at ht
      cases ht
      exact ⟨(List.append_nil _).symm, rfl⟩
  · intro w
    have hgas : ((s.withHost w).setGas ((s.withHost w).gasLeft - block.gasCost)).gasLeft =
        (s.setGas (s.gasLeft - block.gasCost)).gasLeft := rfl
    have hstack : ((s.withHost w).setGas ((s.withHost w).gasLeft - block.gasCost)).stack =
        (s.setGas (s.gasLeft - block.gasCost)).stack := rfl
    show opxBeginblock block ip ⟨s.withHost w, s.currentBlockCost⟩ = _
    unfold opxBeginblock
    simp only [hgas, hstack]
    split_ifs <;> rfl

theorem dispatch_replays (analysis : AdvancedCodeAnalysis) (instr : Instruction) (ip : Nat)
    (s : AdvancedExecutionState σ) :
    Replayed (blockReplay env.host host') s (dispatch env analysis instr ip s)
      (dispatch (env.withHost host') analysis instr ip) := by
  obtain ⟨fn, arg⟩ := instr
  cases fn with
  | none => exact .fault fun _ => rfl
  | some fn =>
      by_cases hbegin : fn = .opxBeginblock
      · subst hbegin
        cases arg with
        | block info => exact opxBeginblock_replays info ip s
        | _ => exact .fault fun _ => rfl
      -- any entry but BEGINBLOCK is called with the state as it is, under either host
      · have hcalled : ∀ {υ : Type} (env : Env υ) (s : AdvancedExecutionState υ),
            dispatch env analysis ⟨some fn, arg⟩ ip s = ofResult s.currentBlockCost
              ((exec analysis s.currentBlockCost s.toContext fn arg ip).run env
                s.toExecutionState) := by
          intro υ env s
          cases fn with
          | opxBeginblock => exact absurd rfl hbegin
          | _ => rfl
        have hrun : ∃ log, (hostReplay env.host host').Outcomes log s.toExecutionState _ _ :=
          run_replays (exec analysis s.currentBlockCost s.toContext fn arg ip) s.toExecutionState
        obtain ⟨log, hlog⟩ := hrun
        obtain ⟨log, hgrows, hreplay⟩ := replayed_ofResult hlog
        refine ⟨log, ?_, fun w w' hpath => ?_⟩
        · rw [hcalled]
          exact hgrows
        · rw [hcalled, hcalled]
          exact hreplay w w' hpath

/-- One round of the loop. -/
theorem step_replays (analysis : AdvancedCodeAnalysis) (ip : Nat) (s : AdvancedExecutionState σ) :
    ∃ c f', step env analysis (.running ip s) = some c ∧
      (∀ s', step (env.withHost host') analysis (.running ip s') = some (f' s')) ∧
      Replayed (blockReplay env.host host') s c f' := by
  refine ⟨_, _, rfl, fun _ => rfl, ?_⟩
  cases analysis.instrs[ip]? with
  | none => exact .fault fun _ => rfl
  | some instr => exact dispatch_replays analysis instr ip s

end Advanced

/-! ## Replaying runs -/

/-- A loop can be replayed if its rounds can be. -/
theorem loop_replays {S S' W : Type} (R : Replay S S' W HostCall)
    {f : Config S → Option (Config S)} {f' : Config S' → Option (Config S')}
    (hrounds : ∀ pos s, ∃ c g, f (.running pos s) = some c ∧
      (∀ s', f' (.running pos s') = some (g s')) ∧ Replayed R s c g)
    (hhalted : ∀ s, f (.halted s) = none) (hfault : ∀ x, f (.fault x) = none)
    (hhalted' : ∀ s, f' (.halted s) = none) (hfault' : ∀ x, f' (.fault x) = none)
    (c : Config S) (n : Nat) :
    ∃ log, (Config.replay R).grows c log (after f c n) ∧ ∀ w w', R.path log w w' →
      after f' (c.map fun s => R.place s w) n = (after f c n).map fun t => R.place t w' := by
  apply Replay.after_replays (Config.replay R)
  · intro a w ha
    cases a with
    | running pos s =>
        obtain ⟨c, g, hc, -⟩ := hrounds pos s
        rw [hc] at ha
        cases ha
    | halted s => exact hhalted' _
    | fault x => exact hfault' x
  · intro a b hab
    cases a with
    | running pos s =>
        obtain ⟨c, g, hc, hg, log, hgrows, hreplay⟩ := hrounds pos s
        rw [hc] at hab
        injection hab with hab
        subst hab
        refine ⟨log, fun t ht => ⟨s, rfl, hgrows t ht⟩, fun w w' hpath => ?_⟩
        show f' (.running pos (R.place s w)) = _
        rw [hg, hreplay w w' hpath]
        rfl
    | halted s =>
        rw [hhalted] at hab
        cases hab
    | fault x =>
        rw [hfault] at hab
        cases hab

/-- The invocation with another host, in a state of it. -/
def Invocation.withHost (i : Invocation σ) (host : Host τ) (w : τ) : Invocation τ where
  ctx := i.ctx
  env := i.env.withHost host
  host := w
  uninitStack := i.uninitStack
  uninitCode := i.uninitCode

theorem Baseline.after_replays (i : Invocation σ) (host : Host τ) (n : Nat)
    {s : ExecutionState σ}
    (hs : (after (step i.env (analysisOf i)) (start i) n).state? = some s) :
    i.env.host.Answers s.calls i.host s.host ∧ ∀ w w', host.Answers s.calls w w' →
      after (step (i.env.withHost host) (analysisOf i)) (start (i.withHost host w)) n =
        (after (step i.env (analysisOf i)) (start i) n).map fun t => t.withHost w' := by
  obtain ⟨log, hgrows, hreplay⟩ := loop_replays (hostReplay i.env.host host)
    (step_replays (analysisOf i)) (fun _ => rfl) (fun _ => rfl) (fun _ => rfl) (fun _ => rfl)
    (start i) n
  obtain ⟨s0, hs0, hlog, hanswers⟩ := hgrows s hs
  injection hs0 with hs0
  subst hs0
  -- nothing has been recorded at the start, so the record is that of the whole run
  replace hlog : s.calls = log := hlog
  subst hlog
  exact ⟨hanswers, hreplay⟩

theorem Advanced.after_replays (i : Invocation σ) (host : Host τ) (n : Nat)
    {s : AdvancedExecutionState σ}
    (hs : (after (step i.env (analysisOf i)) (start i) n).state? = some s) :
    i.env.host.Answers s.calls i.host s.host ∧ ∀ w w', host.Answers s.calls w w' →
      after (step (i.env.withHost host) (analysisOf i)) (start (i.withHost host w)) n =
        (after (step i.env (analysisOf i)) (start i) n).map fun t =>
          ⟨t.toExecutionState.withHost w', t.currentBlockCost⟩ := by
  obtain ⟨log, hgrows, hreplay⟩ := loop_replays (blockReplay i.env.host host)
    (step_replays (analysisOf i)) (fun _ => rfl) (fun _ => rfl) (fun _ => rfl) (fun _ => rfl)
    (start i) n
  obtain ⟨s0, hs0, hlog, hanswers⟩ := hgrows s hs
  injection hs0 with hs0
  subst hs0
  -- as in Baseline, the record is that of the whole run
  replace hlog : s.calls = log := hlog
  subst hlog
  exact ⟨hanswers, hreplay⟩

end Ivmone
