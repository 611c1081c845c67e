import Ivmone.CallGating

/-!
# Copies to memory

The copy instructions put a window of a buffer into the memory. The window may reach beyond the end
of the buffer; it has zeros there. `Copied` says what every byte of the memory is afterwards.
-/

set_option autoImplicit false

namespace Ivmone

open Lib Lib.Program Instructions

variable {σ : Type} {env : Env σ} {ctx : Context} {s t : ExecutionState σ}

/-! ## Windows -/

/-- The bytes from `index` on, with zeros beyond the end. -/
def window (source : List Byte) (index size : Nat) : List Byte :=
  (List.range size).map fun k => source.getD (index + k) 0

@[simp] theorem length_window (source : List Byte) (index size : Nat) :
    (window source index size).length = size := by
  simp [window]

theorem getElem?_window {source : List Byte} {index size k : Nat} (h : k < size) :
    (window source index size)[k]? = some (source.getD (index + k) 0) := by
  simp [window, h]

/-- A window is what the buffer has, and zeros. -/
theorem window_eq (source : List Byte) (index size : Nat) :
    window source index size =
      (source.drop index).take size ++
        List.replicate (size - min size (source.length - index)) 0 := by
  apply List.ext_getElem?
  intro k
  have hlen : ((source.drop index).take size).length = min size (source.length - index) := by simp
  by_cases hk : k < size
  · rw [getElem?_window hk]
    by_cases hin : k < min size (source.length - index)
    · rw [List.getElem?_append_left (by omega), List.getElem?_take_of_lt hk, List.getElem?_drop,
        List.getD_eq_getElem?_getD, List.getElem?_eq_getElem (by omega)]
      rfl
    · rw [List.getElem?_append_right (by omega), hlen, List.getElem?_replicate_of_lt (by omega),
        List.getD_eq_getElem?_getD, List.getElem?_eq_none (by omega)]
      rfl
  · rw [List.getElem?_eq_none (by simpa using Nat.le_of_not_lt hk),
      List.getElem?_eq_none (by simp; omega)]

/-- A window inside of the buffer. -/
theorem window_of_le {source : List Byte} {index size : Nat} (h : index + size ≤ source.length) :
    window source index size = (source.drop index).take size := by
  rw [window_eq, Nat.min_eq_left (by omega), Nat.sub_self]
  exact List.append_nil _

/-- Beyond the end there are only zeros. -/
theorem window_of_length_le {source : List Byte} {index : Nat} (h : source.length ≤ index)
    (size : Nat) : window source index size = List.replicate size 0 := by
  rw [window_eq, List.drop_eq_nil_of_le h, Nat.sub_eq_zero_of_le h, Nat.min_zero, Nat.sub_zero,
    List.take_nil, List.nil_append]

/-- The two pieces that the copy instructions write. -/
theorem pieces_eq_window (source : List Byte) (index size : Nat) :
    (source.drop (min index source.length)).take (min size
      (source.length - min index source.length)) ++
        List.replicate (size - min size (source.length - min index source.length)) 0 =
      window source index size := by
  have hdrop : source.drop (min index source.length) = source.drop index := by
    by_cases hle : index ≤ source.length
    · rw [Nat.min_eq_left hle]
    · rw [Nat.min_eq_right (by omega), List.drop_length, List.drop_eq_nil_of_le (by omega)]
  have hrest : source.length - min index source.length = source.length - index := by omega
  have htake : (source.drop index).take (min size (source.length - index)) =
      (source.drop index).take size := by
    by_cases hle : size ≤ source.length - index
    · rw [Nat.min_eq_left hle]
    · rw [Nat.min_eq_right (by omega), List.take_of_length_le (by simp),
        List.take_of_length_le (by simp; omega)]
  rw [hdrop, hrest, htake, ← window_eq]

/-! ## Memory after a copy -/

/-- The memory `m'` is `m` extended by zeros, with the given bytes from `dst` on. -/
structure Copied (m m' : Memory) (dst : Nat) (bytes : List Byte) : Prop where
  size_le : m.size ≤ m'.size
  region : bytes ≠ [] → dst + bytes.length ≤ m'.size
  bytes : ∀ p < m'.size, m'.bytes[p]? =
    some (if dst ≤ p ∧ p < dst + bytes.length then bytes.getD (p - dst) 0 else m.bytes.getD p 0)

/-- Extension by zeros. -/
theorem copied_of_grown {m m' : Memory} (hgrown : m.Grown m') (dst : Nat) :
    Copied m m' dst [] := by
  obtain ⟨n, h⟩ := hgrown
  have hsize : m'.size = m.size + n := by
    rw [← m'.length_bytes, h, List.length_append, m.length_bytes, List.length_replicate]
  refine ⟨by omega, fun h => absurd rfl h, fun p hp => ?_⟩
  rw [if_neg (by simp), h, List.getD_eq_getElem?_getD]
  by_cases hin : p < m.size
  · rw [List.getElem?_append_left (by simpa using hin),
      List.getElem?_eq_getElem (by simpa using hin)]
    rfl
  · rw [List.getElem?_append_right (by simpa using hin), List.getElem?_replicate_of_lt
      (by rw [m.length_bytes]; omega), List.getElem?_eq_none (by simpa using hin)]
    rfl

theorem getElem?_overwrite {data bytes : List Byte} {offset p : Nat}
    (h : offset + bytes.length ≤ data.length) :
    (overwrite data offset bytes)[p]? =
      if offset ≤ p ∧ p < offset + bytes.length then bytes[p - offset]? else data[p]? := by
  have hlen : (data.take offset).length = offset := by
    rw [List.length_take]
    omega
  unfold overwrite
  rw [List.append_assoc]
  by_cases hlow : p < offset
  · rw [if_neg (by omega), List.getElem?_append_left (by omega), List.getElem?_take_of_lt hlow]
  · rw [List.getElem?_append_right (by omega), hlen]
    by_cases hmid : p < offset + bytes.length
    · rw [if_pos ⟨by omega, hmid⟩, List.getElem?_append_left (by omega)]
    · rw [if_neg (by omega), List.getElem?_append_right (by omega), List.getElem?_drop]
      congr 1
      omega

/-- A further piece is stored behind the bytes that were copied. -/
theorem Copied.store {m m1 m2 : Memory} {dst : Nat} {bytes more : List Byte}
    (h : Copied m m1 dst bytes) (hstore : m1.store? (dst + bytes.length) more = some m2) :
    Copied m m2 dst (bytes ++ more) := by
  by_cases hle : dst + bytes.length + more.length ≤ m1.size
  · obtain ⟨m', hm', hbytes, hsize⟩ := Memory.store?_of_le hle
    rw [hm'] at hstore
    injection hstore with hstore
    subst hstore
    refine ⟨hsize ▸ h.size_le, fun _ => by rw [List.length_append]; omega, fun p hp => ?_⟩
    rw [hsize] at hp
    rw [hbytes, getElem?_overwrite (by rw [m1.length_bytes]; exact hle), List.length_append]
    by_cases hmore : dst + bytes.length ≤ p ∧ p < dst + bytes.length + more.length
    · rw [if_pos hmore, if_pos (by omega), List.getD_eq_getElem?_getD,
        List.getElem?_append_right (by omega), Nat.sub_sub,
        List.getElem?_eq_getElem (by omega)]
      rfl
    · rw [if_neg hmore, h.bytes p hp]
      by_cases hold : dst ≤ p ∧ p < dst + bytes.length
      · rw [if_pos hold, if_pos (by omega), List.getD_eq_getElem?_getD, List.getD_eq_getElem?_getD,
          List.getElem?_append_left (by omega)]
      · rw [if_neg hold, if_neg (by omega)]
  · rw [Memory.store?_of_not_le hle] at hstore
    cases hstore

/-- The start of a region that was checked, as an unbounded number. -/
theorem Copied.at_toNat {m m' : Memory} {offset size : UInt256} {bytes : List Byte} {n : Nat}
    (h : Copied m m' offset.toSize bytes) (hregion : Checked offset size n)
    (hlen : bytes.length ≤ size.toNat) : Copied m m' offset.toNat bytes := by
  by_cases hsize : size.toNat = 0
  · obtain rfl := List.eq_nil_of_length_eq_zero (Nat.le_zero.1 (hsize ▸ hlen))
    refine ⟨h.size_le, fun hne => absurd rfl hne, fun p hp => ?_⟩
    rw [h.bytes p hp, if_neg (by simp), if_neg (by simp)]
  · obtain ⟨hoffset, -, -⟩ := hregion hsize
    unfold maxBufferSize at hoffset
    rw [← UInt256.toSize_of_lt (show offset.toNat < 2 ^ 64 by omega)]
    exact h

/-! ## Runs of single operations -/

/-- The memory, the return data and the state of the host are the same. -/
structure SameData (s t : ExecutionState σ) : Prop where
  memory : t.memory = s.memory
  returnData : t.returnData = s.returnData
  host : t.host = s.host

theorem SameData.trans {s1 s2 s3 : ExecutionState σ} (h : SameData s1 s2) (h' : SameData s2 s3) :
    SameData s1 s3 :=
  ⟨h'.memory.trans h.memory, h'.returnData.trans h.returnData, h'.host.trans h.host⟩

theorem pop_ok {x : UInt256} (h : run (handle env) Exec.pop s = .ok x t) :
    s.stack.items = x :: t.stack.items ∧ SameData s t := by
  rw [Exec.pop, Exec.perform, run_perform] at h
  simp only [handle] at h
  by_cases hpos : 0 < s.stack.height
  · obtain ⟨item, stack, hpop, hitems⟩ := Stack.pop?_of_pos hpos
    rw [hpop] at h
    injection h with hx ht
    subst hx ht
    exact ⟨hitems, rfl, rfl, rfl⟩
  · rw [Stack.pop?_of_not_pos hpos] at h
    cases h

theorem charge_frame {cost : Int} (h : run (handle env) (Exec.charge cost) s = .ok () t) :
    t.stack = s.stack ∧ SameData s t := by
  rw [Exec.charge, Exec.perform, run_perform] at h
  simp only [handle] at h
  split at h
  · cases h
  · injection h with _ ht
    subst ht
    exact ⟨rfl, rfl, rfl, rfl⟩

theorem charge_cases (env : Env σ) (cost : Int) (s : ExecutionState σ) :
    (∃ t, (Exec.charge cost).run env s = .ok () t) ∨
      ∃ t, (Exec.charge cost).run env s = .exit .outOfGas t := by
  rw [Exec.run, Exec.charge, Exec.perform, run_perform]
  simp only [handle]
  split
  · exact .inr ⟨_, rfl⟩
  · exact .inl ⟨_, rfl⟩

theorem top_ok {x : UInt256} (h : run (handle env) Exec.top s = .ok x t) :
    t = s ∧ ∃ rest, s.stack.items = x :: rest := by
  rw [Exec.top, Exec.peek, Exec.perform, run_perform] at h
  simp only [handle, Stack.get?_eq] at h
  split at h
  · rename_i item hitem
    injection h with hx ht
    subst hx ht
    cases hitems : s.stack.items with
    | nil =>
        rw [hitems] at hitem
        cases hitem
    | cons first rest =>
        rw [hitems] at hitem
        injection hitem with hitem
        exact ⟨rfl, rest, hitem ▸ rfl⟩
  · cases h

theorem setTop_ok {x item : UInt256} {rest : List UInt256} (hitems : s.stack.items = x :: rest)
    (h : run (handle env) (Exec.setTop item) s = .ok () t) :
    t.stack.items = item :: rest ∧ SameData s t := by
  rw [Exec.setTop, Exec.poke, Exec.perform, run_perform] at h
  simp only [handle] at h
  have hpos : 0 < s.stack.height := by
    rw [← Stack.length_items, hitems]
    exact Nat.succ_pos _
  obtain ⟨stack, hset, hstack⟩ := Stack.set?_of_lt hpos item
  rw [hset] at h
  injection h with _ ht
  subst ht
  rw [hitems] at hstack
  exact ⟨hstack, rfl, rfl, rfl⟩

/-- A check that passes has extended the memory by zeros. -/
theorem checked_copied {offset size : UInt256}
    (h : run (handle env) (Exec.checkMemory offset size) s = .ok () t) :
    Checked offset size t.memory.size ∧ t.stack = s.stack ∧ t.returnData = s.returnData ∧
      t.host = s.host ∧ ∀ dst, Copied s.memory t.memory dst [] := by
  obtain ⟨hregion, memory, gas, ghost, n, rfl, hbytes⟩ := checkMemory_ok h
  exact ⟨hregion, rfl, rfl, rfl, copied_of_grown ⟨n, hbytes⟩⟩

/-- The three operands of a copy instruction. -/
theorem popThree_ok {α : Type} {f : UInt256 → UInt256 → UInt256 → Exec α} {r : α}
    (h : run (handle env)
      (Exec.pop >>= fun x => Exec.pop >>= fun y => Exec.pop >>= fun z => f x y z) s = .ok r t) :
    ∃ x y z s', s.stack.items = x :: y :: z :: s'.stack.items ∧ SameData s s' ∧
      run (handle env) (f x y z) s' = .ok r t := by
  obtain ⟨x, s1, h1, h⟩ := run_bind_eq_ok h
  obtain ⟨y, s2, h2, h⟩ := run_bind_eq_ok h
  obtain ⟨z, s3, h3, h⟩ := run_bind_eq_ok h
  obtain ⟨hitems1, hsame1⟩ := pop_ok h1
  obtain ⟨hitems2, hsame2⟩ := pop_ok h2
  obtain ⟨hitems3, hsame3⟩ := pop_ok h3
  exact ⟨x, y, z, s3, by rw [hitems1, hitems2, hitems3], (hsame1.trans hsame2).trans hsame3, h⟩

theorem store_ok {m : Memory} {dst : Nat} {bytes more : List Byte}
    (hcopied : Copied m s.memory dst bytes)
    (h : run (handle env) (Exec.store (dst + bytes.length) more) s = .ok () t) :
    t.stack = s.stack ∧ Copied m t.memory dst (bytes ++ more) := by
  rw [Exec.store, Exec.perform, run_perform] at h
  simp only [handle] at h
  split at h
  · rename_i memory hstore
    injection h with _ ht
    subst ht
    exact ⟨rfl, hcopied.store hstore⟩
  · cases h

/-- Stores bytes unless there are none. -/
def putBytes (offset : Nat) (bytes : List Byte) : Exec Unit :=
  if 0 < bytes.length then Exec.store offset bytes else pure ()

theorem putBytes_ok {m : Memory} {dst : Nat} {bytes more : List Byte}
    (hcopied : Copied m s.memory dst bytes)
    (h : run (handle env) (putBytes (dst + bytes.length) more) s = .ok () t) :
    t.stack = s.stack ∧ Copied m t.memory dst (bytes ++ more) := by
  unfold putBytes at h
  split at h
  · exact store_ok hcopied h
  · rename_i hempty
    injection h with _ ht
    subst ht
    rw [List.eq_nil_of_length_eq_zero (Nat.eq_zero_of_not_pos hempty), List.append_nil]
    exact ⟨rfl, hcopied⟩

/-! ## CALLDATACOPY and CODECOPY -/

/-- The offset in a buffer, at most its size. -/
theorem clamped_index {source : List Byte} (hlen : source.length < 2 ^ 63) (index : UInt256) :
    (if source.length < index.toNat then source.length else index.toSize) =
      min index.toNat source.length := by
  split
  · omega
  · rw [UInt256.toSize_of_lt (by omega)]
    omega

/-- The copy at the end of `copyWindow`: a piece of the buffer, and zeros. -/
theorem copyWindow_eq (source : List Byte) (hlen : source.length < 2 ^ 63) :
    copyWindow source = (do
      let memIndex ← Exec.pop
      let index ← Exec.pop
      let size ← Exec.pop
      Exec.checkMemory memIndex size
      Exec.charge (numWords size.toSize * 3)
      let src := min index.toNat source.length
      let copySize := min size.toSize (source.length - src)
      putBytes memIndex.toSize ((source.drop src).take copySize)
      putBytes (memIndex.toSize + copySize) (List.replicate (size.toSize - copySize) 0)) := by
  unfold copyWindow
  refine bind_congr fun memIndex => bind_congr fun index => bind_congr fun size =>
    bind_congr fun _ => bind_congr fun _ => ?_
  rw [clamped_index hlen]
  have hpiece : ((source.drop (min index.toNat source.length)).take
      (min size.toSize (source.length - min index.toNat source.length))).length =
      min size.toSize (source.length - min index.toNat source.length) := by
    simp
  have hread : Exec.read source (min index.toNat source.length)
      (min size.toSize (source.length - min index.toNat source.length)) =
      pure ((source.drop (min index.toNat source.length)).take
        (min size.toSize (source.length - min index.toNat source.length))) :=
    if_pos (by omega)
  simp only [putBytes, hpiece, List.length_replicate, hread, pure_bind, ite_bind]

theorem copyWindow_ok {source : List Byte} (hlen : source.length < 2 ^ 63)
    (h : (copyWindow source).run env s = .ok () t) :
    ∃ memIndex index size, s.stack.items = memIndex :: index :: size :: t.stack.items ∧
      Copied s.memory t.memory memIndex.toNat (window source index.toNat size.toNat) := by
  rw [copyWindow_eq source hlen] at h
  obtain ⟨memIndex, index, size, s1, hitems, hsame1, h⟩ := popThree_ok h
  obtain ⟨_, s2, hcheck, h⟩ := run_bind_eq_ok h
  obtain ⟨_, s3, hcharge, h⟩ := run_bind_eq_ok h
  obtain ⟨_, s4, hput, hzeros⟩ := run_bind_eq_ok h
  obtain ⟨hregion, hstack2, -, -, hgrown⟩ := checked_copied hcheck
  obtain ⟨hstack3, hsame3⟩ := charge_frame hcharge
  rw [hsame1.memory, ← hsame3.memory] at hgrown
  obtain ⟨hstack4, hpiece⟩ := putBytes_ok (hgrown memIndex.toSize) hput
  -- the two writes join into one: the bytes that are there, then zeros
  have hlength : ([] ++ (source.drop (min index.toNat source.length)).take
      (min size.toSize (source.length - min index.toNat source.length))).length =
      min size.toSize (source.length - min index.toNat source.length) := by
    simp
  rw [← hlength] at hzeros
  obtain ⟨hstack5, hcopied⟩ := putBytes_ok hpiece hzeros
  rw [hlength] at hcopied
  rw [List.nil_append, pieces_eq_window] at hcopied
  refine ⟨memIndex, index, size, ?_, ?_⟩
  · rw [hitems, hstack5, hstack4, hstack3, hstack2]
  · rw [hregion.toSize_eq] at hcopied
    exact hcopied.at_toNat hregion (Nat.le_of_eq (length_window source index.toNat size.toNat))

/-! ## CALLDATALOAD -/

/-- The 32 bytes that `calldataload` puts together. -/
theorem loaded_eq_window {source : List Byte} {index : Nat} (hlen : source.length < 2 ^ 63)
    (hle : index ≤ source.length) :
    (source.drop index).take (subSize (min ((index + 32) % 2 ^ 64) source.length) index) ++
        List.replicate (32 - ((source.drop index).take
          (subSize (min ((index + 32) % 2 ^ 64) source.length) index)).length) 0 =
      window source index 32 := by
  have hsub : subSize (min ((index + 32) % 2 ^ 64) source.length) index =
      min 32 (source.length - index) := by
    rw [Nat.mod_eq_of_lt (by omega), subSize_of_le (by omega) (by omega)]
    omega
  have hmin : min index source.length = index := Nat.min_eq_left hle
  rw [hsub, ← pieces_eq_window, hmin, List.length_take, List.length_drop,
    Nat.min_assoc, Nat.min_self]

theorem beLoad_window_of_lt {source : List Byte} {index : Nat} (h : source.length < index) :
    beLoad (window source index 32) = 0 := by
  rw [window_of_length_le (Nat.le_of_lt h)]
  decide

theorem calldataload_ok (h : (calldataload ctx).run env s = .ok () t) :
    ∃ index rest, s.stack.items = index :: rest ∧
      t.stack.items = beLoad (window ctx.msg.input index.toNat 32) :: rest ∧
      t.memory = s.memory := by
  obtain ⟨index, s1, htop, hload⟩ := run_bind_eq_ok h
  obtain ⟨rfl, rest, hitems⟩ := top_ok htop
  refine ⟨index, rest, hitems, ?_⟩
  dsimp only at hload
  split at hload
  · rename_i hlt
    obtain ⟨hset, hsame⟩ := setTop_ok hitems hload
    rw [beLoad_window_of_lt hlt]
    exact ⟨hset, hsame.memory⟩
  · rename_i hle
    have hlen := ctx.input_size_lt
    rw [UInt256.toSize_of_lt (by omega)] at hload
    -- the index is inside the input, so neither the sum nor the difference wraps
    have hsub : subSize (min ((index.toNat + 32) % 2 ^ 64) ctx.msg.input.length) index.toNat =
        min 32 (ctx.msg.input.length - index.toNat) := by
      rw [Nat.mod_eq_of_lt (by omega), subSize_of_le (by omega) (by omega)]
      omega
    obtain ⟨data, s2, hread, hset⟩ := run_bind_eq_ok hload
    rw [Exec.read, if_pos (by omega)] at hread
    injection hread with hdata hs2
    subst hdata hs2
    rw [loaded_eq_window hlen (by omega)] at hset
    obtain ⟨hset, hsame⟩ := setTop_ok hitems hset
    exact ⟨hset, hsame.memory⟩

/-! ## EXTCODECOPY -/

/-- The host has the code `code st addr` for every account, and `copy_code` returns the bytes of it
that are there. -/
structure ServesCode (host : Host σ) (code : σ → Address → List Byte) : Prop where
  copyCode : ∀ addr offset size st,
    (host (.copyCode addr offset size) st).1 = ((code st addr).drop offset).take size
  accessAccount : ∀ accessed addr st, code (host (.accessAccount accessed) st).2 addr = code st addr

/-- The account access leaves everything but the gas and the state of the host. -/
theorem chargeColdAccount_ok {code : σ → Address → List Byte} (hserves : ServesCode env.host code)
    {addr : Address} {cost : Int}
    (h : run (handle env) (chargeColdAccount ctx addr cost) s = .ok () t) :
    t.stack = s.stack ∧ t.memory = s.memory ∧ ∀ a, code t.host a = code s.host a := by
  unfold chargeColdAccount at h
  split at h
  · obtain ⟨access, s1, haccess, hrest⟩ := run_bind_eq_ok h
    injection haccess with _ hs1
    have hcode : ∀ a, code s1.host a = code s.host a := by
      rw [← hs1]
      exact fun a => hserves.accessAccount addr a s.host
    have hstack : s1.stack = s.stack := by
      rw [← hs1]
    have hmemory : s1.memory = s.memory := by
      rw [← hs1]
    split at hrest
    · obtain ⟨hstack', hsame⟩ := charge_frame hrest
      exact ⟨hstack'.trans hstack, hsame.memory.trans hmemory, fun a => hsame.host ▸ hcode a⟩
    · injection hrest with _ ht
      subst ht
      exact ⟨hstack, hmemory, hcode⟩
  · injection h with _ ht
    subst ht
    exact ⟨rfl, rfl, fun _ => rfl⟩

/-- The offset in external code, at most the buffer limit. -/
theorem window_clamped {source : List Byte} (hlen : source.length ≤ maxBufferSize) (index : UInt256)
    (size : Nat) :
    window source (if maxBufferSize < index.toNat then maxBufferSize else index.toSize) size =
      window source index.toNat size := by
  split
  · rename_i hlt
    rw [window_of_length_le hlen, window_of_length_le (by omega)]
  · rename_i hle
    unfold maxBufferSize at hle
    rw [UInt256.toSize_of_lt (by omega)]

/-- The end of `extcodecopy`: the host writes what it has, and the rest is cleared. -/
theorem copyCode_ok {code : σ → Address → List Byte} (hserves : ServesCode env.host code)
    {m : Memory} {addr : Address} {src dst size : Nat} (hsize : size < 2 ^ 64)
    (hgrown : Copied m s.memory dst [])
    (h : run (handle env) (do
      let copied ← Exec.Host.copyCode addr src size
      Exec.store dst copied
      let numBytesToClear := subSize size copied.length
      if 0 < numBytesToClear then
        Exec.store (dst + copied.length) (List.replicate numBytesToClear 0)) s = .ok () t) :
    t.stack = s.stack ∧ Copied m t.memory dst (window (code s.host addr) src size) := by
  obtain ⟨copied, s1, hcopy, h⟩ := run_bind_eq_ok h
  obtain ⟨_, s2, hstore, hclear⟩ := run_bind_eq_ok h
  injection hcopy with hcopied hs1
  have hstack1 : s1.stack = s.stack := by
    rw [← hs1]
  have hmemory1 : s1.memory = s.memory := by
    rw [← hs1]
  rw [hserves.copyCode] at hcopied
  rw [← hmemory1] at hgrown
  obtain ⟨hstack2, hpiece⟩ := store_ok hgrown hstore
  rw [List.nil_append] at hpiece
  have hlength : copied.length = min size ((code s.host addr).length - src) := by
    rw [← hcopied, List.length_take, List.length_drop]
  have hput : run (handle env) (putBytes (dst + copied.length)
      (List.replicate (size - min size ((code s.host addr).length - src)) 0)) s2 = .ok () t := by
    rw [putBytes, List.length_replicate, ← hlength, ← subSize_of_le (by omega) hsize]
    exact hclear
  obtain ⟨hstack3, hcopied3⟩ := putBytes_ok hpiece hput
  rw [← hcopied, ← window_eq] at hcopied3
  exact ⟨by rw [hstack3, hstack2, hstack1], hcopied3⟩

theorem extcodecopy_ok {code : σ → Address → List Byte} (hserves : ServesCode env.host code)
    (h : (extcodecopy ctx).run env s = .ok () t) :
    ∃ x memIndex index size,
      s.stack.items = x :: memIndex :: index :: size :: t.stack.items ∧
      ((code s.host x.toAddress).length ≤ maxBufferSize →
        Copied s.memory t.memory memIndex.toNat
          (window (code s.host x.toAddress) index.toNat size.toNat)) := by
  obtain ⟨x, s0, hpop, h⟩ := run_bind_eq_ok h
  obtain ⟨hitems0, hsame0⟩ := pop_ok hpop
  obtain ⟨memIndex, index, size, s1, hitems, hsame1, h⟩ := popThree_ok h
  obtain ⟨_, s2, hcheck, h⟩ := run_bind_eq_ok h
  obtain ⟨_, s3, hcharge, h⟩ := run_bind_eq_ok h
  obtain ⟨_, s4, hcold, h⟩ := run_bind_eq_ok h
  obtain ⟨hregion, hstack2, -, hhost2, hgrown⟩ := checked_copied hcheck
  obtain ⟨hstack3, hsame3⟩ := charge_frame hcharge
  obtain ⟨hstack4, hmemory4, hcode4⟩ := chargeColdAccount_ok hserves hcold
  rw [(hsame0.trans hsame1).memory, ← hsame3.memory, ← hmemory4] at hgrown
  have hcode : code s4.host x.toAddress = code s.host x.toAddress := by
    rw [hcode4, hsame3.host, hhost2, (hsame0.trans hsame1).host]
  refine ⟨x, memIndex, index, size, ?_⟩
  split at h
  · obtain ⟨hstack5, hcopied⟩ := copyCode_ok hserves size.toSize_lt (hgrown memIndex.toSize) h
    refine ⟨by rw [hitems0, hitems, hstack5, hstack4, hstack3, hstack2], fun hlen => ?_⟩
    rw [hcode, hregion.toSize_eq, window_clamped hlen] at hcopied
    exact hcopied.at_toNat hregion (Nat.le_of_eq (length_window _ _ _))
  · rename_i hzero
    injection h with _ ht
    subst ht
    refine ⟨by rw [hitems0, hitems, hstack4, hstack3, hstack2], fun _ => ?_⟩
    rw [hregion.toSize_eq] at hzero
    rw [Nat.eq_zero_of_not_pos hzero]
    exact (hgrown _)

/-! ## RETURNDATACOPY -/

/-- `returndatacopy` up to its memory check, with the operands. -/
def checkCopy : Exec (UInt256 × UInt256 × UInt256) := do
  let memIndex ← Exec.pop
  let index ← Exec.pop
  let size ← Exec.pop
  Exec.checkMemory memIndex size
  pure (memIndex, index, size)

/-- `returndatacopy` after its memory check. -/
def copyReturnData (memIndex index size : UInt256) : Exec Unit := do
  let data ← Exec.returnData
  if data.size < index.toNat then
    Exec.exit .invalidMemoryAccess
  if data.size < (index.toSize + size.toSize) % 2 ^ 64 then
    Exec.exit .invalidMemoryAccess
  Exec.charge (numWords size.toSize * 3)
  if 0 < size.toSize then
    let bytes ← Exec.read data.bytes index.toSize size.toSize
    Exec.store memIndex.toSize bytes

theorem returndatacopy_eq (ctx : Context) :
    returndatacopy ctx = checkCopy >>= fun x => copyReturnData x.1 x.2.1 x.2.2 := by
  simp only [returndatacopy, checkCopy, copyReturnData, bind_assoc, pure_bind]

theorem checkCopy_ok {memIndex index size : UInt256}
    (h : checkCopy.run env s = .ok (memIndex, index, size) t) :
    s.stack.items = memIndex :: index :: size :: t.stack.items ∧
      Checked memIndex size t.memory.size ∧ t.returnData = s.returnData ∧
      ∀ dst, Copied s.memory t.memory dst [] := by
  obtain ⟨x, y, z, s1, hitems, hsame, h⟩ := popThree_ok h
  obtain ⟨_, s2, hcheck, hpure⟩ := run_bind_eq_ok h
  injection hpure with hxyz ht
  obtain ⟨rfl, rfl, rfl⟩ : x = memIndex ∧ y = index ∧ z = size := by simpa using hxyz
  subst ht
  obtain ⟨hregion, hstack, hdata, -, hgrown⟩ := checked_copied hcheck
  refine ⟨by rw [hitems, hstack], hregion, hdata.trans hsame.returnData, fun dst => ?_⟩
  rw [← hsame.memory]
  exact hgrown dst

/-- A window that reaches beyond the return data is refused. -/
theorem run_copyReturnData_invalid {memIndex index size : UInt256}
    (hsize : size.toNat ≤ maxBufferSize) (h : s.returnData.size < index.toNat + size.toNat) :
    (copyReturnData memIndex index size).run env s = .exit .invalidMemoryAccess s := by
  have hdata := s.returnData.size_lt_two_pow
  unfold maxBufferSize at hsize
  show Exec.run env (if s.returnData.size < index.toNat then _ else _) s = _
  split
  · rfl
  · rw [UInt256.toSize_of_lt (show index.toNat < 2 ^ 64 by omega),
      UInt256.toSize_of_lt (show size.toNat < 2 ^ 64 by omega), Nat.mod_eq_of_lt (by omega),
      if_pos h]
    rfl

/-- A window inside of the return data is paid for and copied. -/
theorem run_copyReturnData_valid {memIndex index size : UInt256}
    (hsize : size.toNat ≤ maxBufferSize) (h : index.toNat + size.toNat ≤ s.returnData.size) :
    (copyReturnData memIndex index size).run env s =
      ((Exec.charge (numWords size.toNat * 3)).run env s).bind fun _ s' =>
        (putBytes memIndex.toSize (window s.returnData.bytes index.toNat
          size.toNat)).run env s' := by
  have hdata := s.returnData.size_lt_two_pow
  have hlen : s.returnData.bytes.length = s.returnData.size := rfl
  unfold maxBufferSize at hsize
  show Exec.run env (if s.returnData.size < index.toNat then _ else _) s = _
  rw [if_neg (by omega), UInt256.toSize_of_lt (show index.toNat < 2 ^ 64 by omega),
    UInt256.toSize_of_lt (show size.toNat < 2 ^ 64 by omega), Nat.mod_eq_of_lt (by omega),
    if_neg (by omega), Exec.run, run_bind]
  have hread : Exec.read s.returnData.bytes index.toNat size.toNat =
      pure ((s.returnData.bytes.drop index.toNat).take size.toNat) := if_pos h
  congr 1
  funext _ s'
  rw [putBytes, length_window, hread, window_of_le h, pure_bind]
  rfl

/-- Storing a window inside of the memory succeeds. -/
theorem putBytes_total (env : Env σ) {offset size : UInt256} {bytes : List Byte}
    (hregion : Checked offset size s.memory.size) (hlen : bytes.length = size.toNat) :
    ∃ t, (putBytes offset.toSize bytes).run env s = .ok () t := by
  unfold putBytes
  split
  · rename_i hpos
    have hle := hregion.end_le (by rw [hregion.toSize_eq]; omega)
    rw [hregion.toSize_eq, ← hlen] at hle
    obtain ⟨m, hm, -, -⟩ := Memory.store?_of_le hle
    refine ⟨{ s with memory := m }, (run_perform (handle env)
      (.store offset.toSize bytes) s).trans ?_⟩
    simp only [handle, hm]
  · exact ⟨s, rfl⟩

/-- What `returndatacopy` does once its memory check has passed. -/
structure CopiesReturnData (env : Env σ) (ctx : Context) (s s' : ExecutionState σ)
    (memIndex index size : UInt256) : Prop where
  operands : s.stack.items = memIndex :: index :: size :: s'.stack.items
  invalid : (∃ t, (returndatacopy ctx).run env s = .exit .invalidMemoryAccess t) ↔
    s.returnData.size < index.toNat + size.toNat
  copy : index.toNat + size.toNat ≤ s.returnData.size →
    ((Exec.charge (numWords size.toNat * 3)).run env s').Meets
      (fun _ _ => ∃ t, (returndatacopy ctx).run env s = .ok () t ∧ t.stack = s'.stack ∧
        Copied s.memory t.memory memIndex.toNat
          (window s.returnData.bytes index.toNat size.toNat))
      (fun status t => (returndatacopy ctx).run env s = .exit status t) fun _ => False

/-- The window is copied, or the gas runs out. -/
theorem copyReturnData_cases {memIndex index size : UInt256} {m : Memory}
    (hregion : Checked memIndex size s.memory.size) (hgrown : ∀ dst, Copied m s.memory dst [])
    (hle : index.toNat + size.toNat ≤ s.returnData.size) :
    (∃ s' t, (Exec.charge (numWords size.toNat * 3)).run env s = .ok () s' ∧
      (copyReturnData memIndex index size).run env s = .ok () t ∧ t.stack = s.stack ∧
      Copied m t.memory memIndex.toNat (window s.returnData.bytes index.toNat size.toNat)) ∨
    ∃ t, (Exec.charge (numWords size.toNat * 3)).run env s = .exit .outOfGas t ∧
      (copyReturnData memIndex index size).run env s = .exit .outOfGas t := by
  have hlen := length_window s.returnData.bytes index.toNat size.toNat
  rw [run_copyReturnData_valid hregion.toNat_le hle]
  rcases charge_cases env (numWords size.toNat * 3) s with ⟨s', hcharge⟩ | ⟨t, hcharge⟩
  · obtain ⟨hstack, hsame⟩ := charge_frame hcharge
    obtain ⟨t, hput⟩ := putBytes_total env (hsame.memory ▸ hregion) hlen
    have hgrown' : Copied m s'.memory memIndex.toSize [] := by
      rw [hsame.memory]
      exact hgrown _
    obtain ⟨hstack', hcopied⟩ := putBytes_ok hgrown' hput
    refine .inl ⟨s', t, hcharge, ?_, hstack'.trans hstack, hcopied.at_toNat hregion hlen.le⟩
    rw [hcharge]
    exact hput
  · refine .inr ⟨t, hcharge, ?_⟩
    rw [hcharge]
    rfl

theorem returndatacopy_ok {memIndex index size : UInt256}
    (h : checkCopy.run env s = .ok (memIndex, index, size) t) :
    CopiesReturnData env ctx s t memIndex index size := by
  obtain ⟨hitems, hregion, hdata, hgrown⟩ := checkCopy_ok h
  have hrun : (returndatacopy ctx).run env s = (copyReturnData memIndex index size).run env t := by
    rw [Exec.run] at h
    rw [returndatacopy_eq, Exec.run, run_bind, h]
    rfl
  refine ⟨hitems, ⟨?_, ?_⟩, ?_⟩
  · rintro ⟨t', ht'⟩
    -- a window that ends inside the data either succeeds or runs out of gas
    by_contra hle
    rcases copyReturnData_cases hregion hgrown (hdata ▸ Nat.le_of_not_lt hle) with
      ⟨s', t2, -, hok, -⟩ | ⟨t2, -, hexit⟩
    · rw [hrun, hok] at ht'
      cases ht'
    · rw [hrun, hexit] at ht'
      cases ht'
  · intro hlt
    exact ⟨t, hrun.trans (run_copyReturnData_invalid hregion.toNat_le (hdata ▸ hlt))⟩
  · intro hle
    rw [hrun, ← hdata]
    rcases copyReturnData_cases hregion hgrown (hdata ▸ hle) with
      ⟨s', t2, hcharge, hok, hstack, hcopied⟩ | ⟨t2, hcharge, hexit⟩
    · rw [hcharge]
      exact ⟨t2, hok, hstack, hcopied⟩
    · rw [hcharge]
      exact hexit

/-! ## The output of calls -/

/-- The output of a call goes to the region that was checked for it. -/
theorem outputCopied_copied {m m1 m2 : Memory} {offset size : UInt256} {output : Buffer}
    (hgrown : m.Grown m1) (hregion : Checked offset size m1.size)
    (h : outputCopied offset size output m1 = some m2) :
    Copied m m2 offset.toNat (output.bytes.take (min size.toNat output.size)) := by
  have hcopied : Copied m m1 offset.toSize [] := copied_of_grown hgrown _
  have hlen : (output.bytes.take (min size.toNat output.size)).length ≤ size.toNat := by
    rw [List.length_take]
    omega
  unfold outputCopied at h
  rw [hregion.toSize_eq] at h
  dsimp only at h
  split at h
  · exact (hcopied.store h).at_toNat hregion hlen
  · rename_i hzero
    injection h with h
    subst h
    rw [Nat.eq_zero_of_not_pos hzero] at hlen ⊢
    exact hcopied.at_toNat hregion hlen

theorem call_output {kind : CallKind} {isStatic : Bool}
    (h : (call kind isStatic ctx).run env s = .ok () t) :
    ∃ x paid, (payCall kind isStatic ctx).run env s = .ok x paid ∧
      (∀ msg result, Makes s t msg result →
        Copied s.memory t.memory x.outputOffset.toNat
          (result.output.bytes.take (min x.outputSize.toNat result.output.size))) ∧
      ((∀ msg result, ¬ Makes s t msg result) → Copied s.memory t.memory 0 []) := by
  obtain ⟨x, paid, msgGas, ready, hpay, hforward, hend⟩ := call_ok h
  obtain ⟨a, hcovers, hmem⟩ := covers_of_ok (payCall_regions kind isStatic ctx [])
    ⟨Memory.Grown.refl s.memory, fun _ h => absurd h List.not_mem_nil⟩ hpay
  obtain ⟨_, hready, rfl⟩ := covers_of_ok (forwardGas_regions ctx x.gas x.value a) hcovers hforward
  obtain ⟨hqueries, hasked⟩ := noEffect_ready hpay hforward
  obtain ⟨host, calls, hask⟩ := askBalance_eq env ctx x.value ready
  -- a call the gate stops may have grown the memory, but wrote nothing
  have hstopped : (t = ready ∨ t = askBalance env ctx x.value ready) →
      NoEffect s t ∧ Copied s.memory t.memory 0 [] := by
    rintro (rfl | rfl)
    · exact ⟨hqueries, copied_of_grown hready.grown 0⟩
    · refine ⟨hasked, ?_⟩
      rw [hask]
      exact copied_of_grown hready.grown 0
  refine ⟨x, paid, hpay, ?_, ?_⟩
  · intro msg result hmakes
    rcases hend with ⟨-, stack, memory, hcopied, rfl⟩ | ⟨-, hstops⟩
    · obtain ⟨rfl, rfl⟩ := hasked.makes_last rfl hmakes
      exact outputCopied_copied hready.grown (hready.checked _ hmem) hcopied
    · exact absurd hmakes ((hstopped hstops).1.not_makes msg result)
  · intro hnone
    rcases hend with ⟨-, stack, memory, hcopied, rfl⟩ | ⟨-, hstops⟩
    · exact absurd (hasked.makes rfl) (hnone _ _)
    · exact (hstopped hstops).2

/-! ## All copies -/

/-- The three operands were popped, and the zero-extended window they describe is in the memory. -/
def CopiesWindow (source : List Byte) (s t : ExecutionState σ) : Prop :=
  ∃ memIndex index size, s.stack.items = memIndex :: index :: size :: t.stack.items ∧
    Copied s.memory t.memory memIndex.toNat (window source index.toNat size.toNat)

/-- The copy instructions implement the zero-extended window exactly, and calls write exactly the
part of the output that was asked for. -/
theorem copies_are_exact (env : Env σ) (ctx : Context) (s : ExecutionState σ) :
    (∀ t, (calldatacopy ctx).run env s = .ok () t → CopiesWindow ctx.msg.input s t) ∧
    (∀ t, (codecopy ctx).run env s = .ok () t → CopiesWindow ctx.code.bytes s t) ∧
    (∀ code t, ServesCode env.host code → (extcodecopy ctx).run env s = .ok () t →
      ∃ x memIndex index size,
        s.stack.items = x :: memIndex :: index :: size :: t.stack.items ∧
        ((code s.host x.toAddress).length ≤ maxBufferSize →
          Copied s.memory t.memory memIndex.toNat
            (window (code s.host x.toAddress) index.toNat size.toNat))) ∧
    (∀ t, (calldataload ctx).run env s = .ok () t →
      ∃ index rest, s.stack.items = index :: rest ∧
        t.stack.items = beLoad (window ctx.msg.input index.toNat 32) :: rest ∧
        t.memory = s.memory) ∧
    (∀ memIndex index size s', checkCopy.run env s = .ok (memIndex, index, size) s' →
      CopiesReturnData env ctx s s' memIndex index size) ∧
    (∀ kind isStatic t, (call kind isStatic ctx).run env s = .ok () t →
      ∃ x paid, (payCall kind isStatic ctx).run env s = .ok x paid ∧
        (∀ msg result, Makes s t msg result →
          Copied s.memory t.memory x.outputOffset.toNat
            (result.output.bytes.take (min x.outputSize.toNat result.output.size))) ∧
        ((∀ msg result, ¬ Makes s t msg result) → Copied s.memory t.memory 0 [])) := by
  refine ⟨?_, ?_, ?_, ?_, ?_, ?_⟩
  · intro t h
    exact copyWindow_ok ctx.input_size_lt h
  · intro t h
    exact copyWindow_ok ctx.code.size_lt h
  · intro code t hserves h
    exact extcodecopy_ok hserves h
  · intro t h
    exact calldataload_ok h
  · intro memIndex index size s' h
    exact returndatacopy_ok h
  · intro kind isStatic t h
    exact call_output h

/-- The operands of a copy of one byte to the start of the memory. -/
def oneByte : ExecutionState Unit :=
  { truncatedPush.newState with
    stack := ⟨1 :: List.replicate 1023 0, 3,
      by rw [List.length_cons, List.length_replicate], by norm_num⟩ }

set_option maxRecDepth 4000 in
theorem copies_are_exact_oneByte :
    ∃ t, (codecopy truncatedPush.ctx).run truncatedPush.env oneByte = .ok () t ∧
      CopiesWindow [(Opcode.push 0).toByte] oneByte t := by
  have hok : ∃ t, (codecopy truncatedPush.ctx).run truncatedPush.env oneByte = .ok () t := ⟨_, rfl⟩
  obtain ⟨t, hrun⟩ := hok
  exact ⟨t, hrun, (copies_are_exact truncatedPush.env truncatedPush.ctx oneByte).2.1 t hrun⟩

end Ivmone
