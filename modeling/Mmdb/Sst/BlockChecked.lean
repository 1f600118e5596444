import Mathlib
import Mmdb.Sst.Block
import Mmdb.Lib.Panic

/-!
# Data blocks under Rust's bounds and overflow checks

`src/sst/block.rs` again, now with every operation that can panic written as one
(`Mmdb.Lib.Panic`): the slices of the input, the `usize` and `u32` arithmetic, the shift into the
`u32` of a varint. The total model of `Mmdb.Sst.Block` reads out of range as a shorter list; here
that is a panic.

**No panic** (`decodeEntryAt_refines` and the lemmas after it): on any input, each function
refines its total model, so it never panics and returns what the total model returns. The
checks of the source come before every slice: the offset check of `decode_entry_at` before the
first varint, the truncation checks before the next ones, the end check before the key and the
value; and a `u32` length added to a position inside a slice cannot reach `2^64`.
-/

namespace Mmdb.Checked

open Panic

/-! ## Varints -/

/-- `decode_varint` at byte `i`: the shift of the byte into the `u32` result panics at a shift
of `32` or more. -/
def decodeVarintLoop : Bytes → Nat → Nat → Nat → ExceptT Error Option (Nat × Nat)
  | [], _, _, _ => throw (.corruption "unterminated varint")
  | byte :: rest, i, result, shift => do
    if i ≥ 5 then throw (.corruption "varint too long")
    if i = 4 ∧ byte &&& 0xF0 ≠ 0 then throw (.corruption "varint overflows u32")
    let result := result ||| (← shl 32 (byte &&& 0x7F).toNat shift)
    if byte &&& 0x80 = 0 then return (result, i + 1)
    decodeVarintLoop rest (i + 1) result (shift + 7)

/-- `decode_varint`. -/
def decodeVarint (data : Bytes) : ExceptT Error Option (Nat × Nat) := decodeVarintLoop data 0 0 0

/-- The seven value bits of a varint byte. -/
theorem toNat_and_low_lt (byte : UInt8) : (byte &&& 0x7F).toNat < 2 ^ 7 := by
  rw [UInt8.toNat_and]
  exact Nat.lt_of_le_of_lt Nat.and_le_right (by decide)

/-- A fifth byte whose top four bits are clear carries four value bits. -/
theorem toNat_and_low_lt_of_high {byte : UInt8} (h : byte &&& 0xF0 = 0) :
    (byte &&& 0x7F).toNat < 2 ^ 4 := by
  have hhigh : byte.toNat &&& 240 = 0 := by
    simpa [UInt8.toNat_and] using congrArg UInt8.toNat h
  -- the bits `4..6` that `0x7F` keeps are among the clear ones
  have hmid : byte.toNat &&& 112 = 0 := by
    rw [show (112 : Nat) = 240 &&& 112 by decide, ← Nat.and_assoc, hhigh, Nat.zero_and]
  rw [UInt8.toNat_and, show (0x7F : UInt8).toNat = 15 ||| 112 by decide, Nat.and_or_distrib_left,
    hmid, Nat.or_zero]
  exact Nat.lt_of_le_of_lt Nat.and_le_right (by decide)

/-- The bits byte `i` of a varint adds fit in the `u32` above the `7 * i` bits read before it. -/
theorem toNat_and_low_lt_of_fifth {byte : UInt8} {i : Nat} (hi : ¬ i ≥ 5)
    (hfifth : ¬ (i = 4 ∧ byte &&& 0xF0 ≠ 0)) : (byte &&& 0x7F).toNat < 2 ^ (32 - 7 * i) := by
  by_cases h4 : i = 4
  · subst h4
    exact toNat_and_low_lt_of_high (by simpa using hfifth)
  · exact Nat.lt_of_lt_of_le (toNat_and_low_lt byte) (Nat.pow_le_pow_right (by decide) (by omega))

/-- What a varint the total model reads can be: a `u32`, read from the bytes there are. -/
theorem decodeVarintLoop_bound {data : Bytes} {i acc v n : Nat} (hacc : acc < 2 ^ (7 * i))
    (h : Mmdb.decodeVarintLoop data i acc (7 * i) = .ok (v, n)) :
    v < 2 ^ 32 ∧ n ≤ i + data.length := by
  induction data generalizing i acc with
  | nil => cases h
  | cons byte rest ih =>
    rw [Mmdb.decodeVarintLoop] at h
    split_ifs at h with hi hfifth hlast
    · -- the last byte: its bits end below bit 32
      simp only [Except.ok.injEq, Prod.mk.injEq] at h
      obtain ⟨rfl, rfl⟩ := h
      have hshift := shiftLeft_lt (toNat_and_low_lt_of_fifth hi hfifth) (7 * i)
      rw [show 7 * i + (32 - 7 * i) = 32 by omega] at hshift
      have hacc' : acc < 2 ^ 32 :=
        Nat.lt_of_lt_of_le hacc (Nat.pow_le_pow_right (by decide) (by omega))
      exact ⟨Nat.or_lt_two_pow hacc' hshift, by simp⟩
    · -- more bytes: the bits read so far stay below bit `7 * (i + 1)`
      have hshift := shiftLeft_lt (toNat_and_low_lt byte) (7 * i)
      have hacc' : acc < 2 ^ (7 * i + 7) :=
        Nat.lt_of_lt_of_le hacc (Nat.pow_le_pow_right (by decide) (by omega))
      rw [show 7 * i + 7 = 7 * (i + 1) by ring] at h hshift hacc'
      have := ih (Nat.or_lt_two_pow hacc' hshift) h
      simp only [List.length_cons]
      omega

theorem decodeVarint_bound {data : Bytes} {v n : Nat} (h : Mmdb.decodeVarint data = .ok (v, n)) :
    v < 2 ^ 32 ∧ n ≤ data.length := by
  have := decodeVarintLoop_bound (i := 0) (by decide) h
  simpa using this

/-- The varint loop does not panic: a shift reaches `7 * 4 = 28` at most. -/
theorem decodeVarintLoop_refines (data : Bytes) (i acc : Nat) :
    Refines (decodeVarintLoop data i acc (7 * i)) (Mmdb.decodeVarintLoop data i acc (7 * i)) := by
  induction data generalizing i acc with
  | nil => rfl
  | cons byte rest ih =>
    rw [decodeVarintLoop, Mmdb.decodeVarintLoop]
    dsimp only
    split
    · rfl
    rename_i hi
    split
    · rfl
    rename_i hfifth
    have hshift := shiftLeft_lt (toNat_and_low_lt_of_fifth hi hfifth) (7 * i)
    rw [show 7 * i + (32 - 7 * i) = 32 by omega] at hshift
    rw [shl_eq (by omega) hshift, lift_some, pure_bind]
    split
    · rfl
    · rw [show 7 * i + 7 = 7 * (i + 1) by ring]
      exact ih (i + 1) _

theorem decodeVarint_refines (data : Bytes) : Refines (decodeVarint data) (Mmdb.decodeVarint data) :=
  decodeVarintLoop_refines data 0 0

/-! ## Entries -/

/-- What `decode_entry_at` and `decode_entry_reuse` share: the three lengths and the checks,
then `finish` with the length of the shared prefix, where the rest of the key starts, where it
ends, the value length and where the value ends. The key before is read for its length only. -/
def decodeEntryWith {β : Type} (data : Bytes) (offset prevLen : Nat)
    (finish : Nat → Nat → Nat → Nat → Nat → ExceptT Error Option β) : ExceptT Error Option β := do
  if offset > data.length then throw (.corruption "block entry offset past end of data")
  let pos := offset
  let (sharedLen, n) ← decodeVarint (← rangeFrom data pos)
  let pos ← add 64 pos n
  if pos > data.length then throw (.corruption "block entry header truncated")
  let (unsharedLen, n) ← decodeVarint (← rangeFrom data pos)
  let pos ← add 64 pos n
  if pos > data.length then throw (.corruption "block entry header truncated")
  let (valueLen, n) ← decodeVarint (← rangeFrom data pos)
  let pos ← add 64 pos n
  let some keyEnd := add 64 pos unsharedLen
    | throw (.corruption "block entry key length overflow")
  let some valueEnd := add 64 keyEnd valueLen
    | throw (.corruption "block entry value length overflow")
  if valueEnd > data.length then throw (.corruption "block entry extends past end of data")
  if sharedLen > prevLen then
    throw (.corruption "block entry shared prefix exceeds previous key length")
  finish sharedLen pos keyEnd valueLen valueEnd

/-- `decode_entry_at`: the key, the value and the offset after the entry. -/
def decodeEntryAt (data : Bytes) (offset : Nat) (prevKey : Bytes) :
    ExceptT Error Option (Bytes × Bytes × Nat) :=
  decodeEntryWith data offset prevKey.length fun sharedLen pos keyEnd _ valueEnd => do
    let key := (← rangeTo prevKey sharedLen) ++ (← range data pos keyEnd)
    let value ← range data keyEnd valueEnd
    pure (key, value, valueEnd)

/-- `decode_entry_reuse`: the key is rebuilt in `keyBuf`, cut to the shared prefix and then the
rest appended; the buffer, where the value starts, its length and where it ends. The buffer
changes only once every check has passed. -/
def decodeEntryReuse (data : Bytes) (offset : Nat) (keyBuf : Bytes) :
    ExceptT Error Option (Bytes × Nat × Nat × Nat) :=
  decodeEntryWith data offset keyBuf.length fun sharedLen pos keyEnd valueLen valueEnd => do
    let keyBuf := keyBuf.take sharedLen ++ (← range data pos keyEnd)
    pure (keyBuf, keyEnd, valueLen, valueEnd)

/-- The shared part reads what the total `decode_entry_at` reads: whatever `finish` does with a
key and a value inside the data, the whole does with the total entry. -/
theorem decodeEntryWith_refines {β : Type} {data : Bytes} (hlen : data.length < 2 ^ 63)
    (offset : Nat) (prevKey : Bytes) {finish : Nat → Nat → Nat → Nat → Nat → ExceptT Error Option β}
    {k : Bytes × Bytes × Nat → Except Error β}
    (hfinish : ∀ sharedLen pos keyEnd valueLen, sharedLen ≤ prevKey.length → pos ≤ keyEnd →
      keyEnd + valueLen ≤ data.length →
      Refines (finish sharedLen pos keyEnd valueLen (keyEnd + valueLen))
        (k (prevKey.take sharedLen ++ data.slice pos (keyEnd - pos), data.slice keyEnd valueLen,
          keyEnd + valueLen))) :
    Refines (decodeEntryWith data offset prevKey.length finish)
      (Mmdb.decodeEntryAt data offset prevKey >>= k) := by
  unfold decodeEntryWith Mmdb.decodeEntryAt
  refine Refines.ite_bind (fun _ => Refines.throw_bind_bind _ _ _ _) fun hoff => ?_
  refine Refines.lift (rangeFrom_eq (by omega)) ?_
  refine (decodeVarint_refines _).bind_bind fun ⟨sharedLen, n₁⟩ h₁ => ?_
  have hn₁ := (decodeVarint_bound h₁).2
  simp only [List.length_drop] at hn₁
  refine Refines.lift (add_eq (by omega)) ?_
  refine Refines.ite_bind (fun _ => Refines.throw_bind_bind _ _ _ _) fun hpos₁ => ?_
  refine Refines.lift (rangeFrom_eq (by omega)) ?_
  refine (decodeVarint_refines _).bind_bind fun ⟨unsharedLen, n₂⟩ h₂ => ?_
  obtain ⟨hunshared, hn₂⟩ := decodeVarint_bound h₂
  simp only [List.length_drop] at hn₂
  refine Refines.lift (add_eq (by omega)) ?_
  refine Refines.ite_bind (fun _ => Refines.throw_bind_bind _ _ _ _) fun hpos₂ => ?_
  refine Refines.lift (rangeFrom_eq (by omega)) ?_
  refine (decodeVarint_refines _).bind_bind fun ⟨valueLen, n₃⟩ h₃ => ?_
  obtain ⟨hvalue, hn₃⟩ := decodeVarint_bound h₃
  simp only [List.length_drop] at hn₃
  refine Refines.lift (add_eq (by omega)) ?_
  -- the two `checked_add`s: a `u32` added to a position inside the data stays below `2^64`
  rw [add_eq (by omega)]
  dsimp -zeta only
  rw [add_eq (by omega)]
  dsimp -zeta only
  refine Refines.ite_bind (fun _ => Refines.throw_bind_bind _ _ _ _) fun hend => ?_
  refine Refines.ite_bind (fun _ => Refines.throw_bind_bind _ _ _ _) fun hshared => ?_
  have := hfinish sharedLen (offset + n₁ + n₂ + n₃) (offset + n₁ + n₂ + n₃ + unsharedLen) valueLen
    (by omega) (by omega) (by omega)
  rwa [Nat.add_sub_cancel_left] at this

theorem decodeEntryAt_refines {data : Bytes} (hlen : data.length < 2 ^ 63) (offset : Nat)
    (prevKey : Bytes) :
    Refines (decodeEntryAt data offset prevKey) (Mmdb.decodeEntryAt data offset prevKey) := by
  rw [← bind_pure (Mmdb.decodeEntryAt data offset prevKey)]
  refine decodeEntryWith_refines hlen offset prevKey fun sharedLen pos keyEnd valueLen hshared hpos
    hend => ?_
  refine Refines.lift (rangeTo_eq hshared) ?_
  refine Refines.lift (range_eq hpos (by omega)) ?_
  refine Refines.lift (range_eq (by omega) hend) ?_
  rw [Nat.add_sub_cancel_left]
  rfl

/-- The buffer-reusing decode reads the entry `decode_entry_at` reads: the buffer ends as its
key, and the value lies between the offsets it returns. -/
theorem decodeEntryReuse_refines {data : Bytes} (hlen : data.length < 2 ^ 63) (offset : Nat)
    (keyBuf : Bytes) :
    Refines (decodeEntryReuse data offset keyBuf)
      ((fun entry => (entry.1, entry.2.2 - entry.2.1.length, entry.2.1.length, entry.2.2)) <$>
        Mmdb.decodeEntryAt data offset keyBuf) := by
  rw [← bind_pure_comp]
  refine decodeEntryWith_refines hlen offset keyBuf fun sharedLen pos keyEnd valueLen _ hpos
    hend => ?_
  refine Refines.lift (range_eq hpos (by omega)) ?_
  have hvalue : (data.slice keyEnd valueLen).length = valueLen := by
    simp only [List.slice, List.length_take, List.length_drop]
    omega
  rw [hvalue, Nat.add_sub_cancel]
  rfl

/-- A checked read that returns an entry moves past its offset. -/
theorem decodeEntryAt_advance {data key k v : Bytes} {offset n : Nat} (hlen : data.length < 2 ^ 63)
    (h : (decodeEntryAt data offset key).run = some (.ok (k, v, n))) : offset < n := by
  have htotal := h.symm.trans (decodeEntryAt_refines hlen offset key)
  exact (Mmdb.decodeEntryAt_advance (Option.some.inj htotal).symm).1

/-! ## Reading entries in a loop -/

/-- The bytes a loop reads its entries from (`entry_data()`, or a prefix of it), which panics
when `view` does; a Rust slice, so shorter than `2^63`. -/
structure Reader where
  view : Option Bytes
  view_lt : ∀ d, view = some d → d.length < 2 ^ 63

namespace Reader

/-- `decode_entry_at` on the reader's bytes. -/
def read (r : Reader) (offset : Nat) (key : Bytes) : ExceptT Error Option (Bytes × Bytes × Nat) := do
  decodeEntryAt (← r.view) offset key

theorem read_refines {r : Reader} {d : Bytes} (hview : r.view = some d) (offset : Nat)
    (key : Bytes) : Refines (r.read offset key) (Mmdb.decodeEntryAt d offset key) := by
  unfold read
  rw [hview]
  exact Refines.lift rfl (decodeEntryAt_refines (r.view_lt d hview) offset key)

/-- What makes the loops terminate: an entry read moves past its offset. -/
theorem read_advance {r : Reader} {key k v : Bytes} {offset n : Nat}
    (h : (r.read offset key).run = some (.ok (k, v, n))) : offset < n := by
  cases hview : r.view with
  | none =>
    unfold read at h
    rw [hview] at h
    cases h
  | some d =>
    unfold read at h
    rw [hview] at h
    exact decodeEntryAt_advance (r.view_lt d hview) h

end Reader

/-- The loop of `iter_from_restart` and `iter_restart_segment`: the entries read from `offset` on,
while the offset is below `bound`. The match on the run is the `?` of the read. -/
def scanEntries (r : Reader) (bound offset : Nat) (currentKey : Bytes) :
    ExceptT Error Option (List (Bytes × Bytes)) :=
  if offset < bound then
    match hentry : (r.read offset currentKey).run with
    | none => fail
    | some (.error e) => throw e
    | some (.ok (key, value, nextOff)) =>
      have := r.read_advance hentry
      ((key, value) :: ·) <$> scanEntries r bound nextOff key
  else pure []
termination_by bound - offset

/-- The scan of `seek_by` from `offset`. -/
def seekScan (r : Reader) (bound : Nat) (target : Bytes) (compare : Bytes → Bytes → Ordering)
    (offset : Nat) (currentKey : Bytes) : ExceptT Error Option (Option (Bytes × Bytes)) :=
  if offset < bound then
    match hentry : (r.read offset currentKey).run with
    | none => fail
    | some (.error e) => throw e
    | some (.ok (key, value, nextOff)) =>
      if compare key target ≠ .lt then pure (some (key, value))
      else
        have := r.read_advance hentry
        seekScan r bound target compare nextOff key
  else pure none
termination_by bound - offset

/-- The scan of `seek_for_prev_by` from `offset`. -/
def seekForPrevScan (r : Reader) (bound : Nat) (target : Bytes)
    (compare : Bytes → Bytes → Ordering) (offset : Nat) (currentKey : Bytes)
    (best : Option (Bytes × Bytes)) : ExceptT Error Option (Option (Bytes × Bytes)) :=
  if offset < bound then
    match hentry : (r.read offset currentKey).run with
    | none => fail
    | some (.error e) => throw e
    | some (.ok (key, value, nextOff)) =>
      if compare key target ≠ .gt then
        have := r.read_advance hentry
        seekForPrevScan r bound target compare nextOff key (some (key, value))
      else pure best
  else pure best
termination_by bound - offset

section Scans

variable {r : Reader} {d : Bytes} {bound offset : Nat} {currentKey : Bytes}

/-- One pass of the loop of `iter_from_restart`, given what the read returns. -/
theorem scanEntries_step (hlt : offset < bound) (hview : r.view = some d) :
    scanEntries r bound offset currentKey =
      match Mmdb.decodeEntryAt d offset currentKey with
      | .error e => throw e
      | .ok (key, value, nextOff) => ((key, value) :: ·) <$> scanEntries r bound nextOff key := by
  rw [scanEntries, if_pos hlt]
  have hread := r.read_refines hview offset currentKey
  split
  · rename_i heq
    rw [hread] at heq
    cases heq
  · rename_i e heq
    rw [Option.some.inj (hread.symm.trans heq)]
  · rename_i key value nextOff heq
    rw [Option.some.inj (hread.symm.trans heq)]

/-- One pass of the scan of `seek_by`, given what the read returns. -/
theorem seekScan_step {target : Bytes} {compare : Bytes → Bytes → Ordering} (hlt : offset < bound)
    (hview : r.view = some d) :
    seekScan r bound target compare offset currentKey =
      match Mmdb.decodeEntryAt d offset currentKey with
      | .error e => throw e
      | .ok (key, value, nextOff) =>
        if compare key target ≠ .lt then pure (some (key, value))
        else seekScan r bound target compare nextOff key := by
  rw [seekScan, if_pos hlt]
  have hread := r.read_refines hview offset currentKey
  split
  · rename_i heq
    rw [hread] at heq
    cases heq
  · rename_i e heq
    rw [Option.some.inj (hread.symm.trans heq)]
  · rename_i key value nextOff heq
    rw [Option.some.inj (hread.symm.trans heq)]

/-- One pass of the scan of `seek_for_prev_by`, given what the read returns. -/
theorem seekForPrevScan_step {target : Bytes} {compare : Bytes → Bytes → Ordering}
    {best : Option (Bytes × Bytes)} (hlt : offset < bound)
    (hview : r.view = some d) :
    seekForPrevScan r bound target compare offset currentKey best =
      match Mmdb.decodeEntryAt d offset currentKey with
      | .error e => throw e
      | .ok (key, value, nextOff) =>
        if compare key target ≠ .gt then
          seekForPrevScan r bound target compare nextOff key (some (key, value))
        else pure best := by
  rw [seekForPrevScan, if_pos hlt]
  have hread := r.read_refines hview offset currentKey
  split
  · rename_i heq
    rw [hread] at heq
    cases heq
  · rename_i e heq
    rw [Option.some.inj (hread.symm.trans heq)]
  · rename_i key value nextOff heq
    rw [Option.some.inj (hread.symm.trans heq)]

/-- The loop of `iter_from_restart` and `iter_restart_segment` reads what the total one reads. -/
theorem scanEntries_refines (hview : r.view = some d) (bound offset : Nat)
    (currentKey : Bytes) :
    Refines (scanEntries r bound offset currentKey) (Mmdb.Block.scanEntries d bound offset currentKey) := by
  induction offset, currentKey using Mmdb.Block.scanEntries.induct d bound with
  | case1 offset currentKey hlt e herror =>
    rw [scanEntries_step hlt hview, Mmdb.Block.scanEntries_step hlt, herror]
    rfl
  | case2 offset currentKey hlt key value nextOff hentry _ ih =>
    rw [scanEntries_step hlt hview, Mmdb.Block.scanEntries_step hlt, hentry]
    exact ih.map _
  | case3 offset currentKey hge =>
    rw [scanEntries, Mmdb.Block.scanEntries, if_neg hge, if_neg hge]
    rfl

variable {b : Mmdb.Block} {target : Bytes} {compare : Bytes → Bytes → Ordering}

theorem seekScan_refines (hview : r.view = some b.entryData) (offset : Nat) (currentKey : Bytes) :
    Refines (seekScan r b.restartOffset target compare offset currentKey)
      (b.seekScan target compare offset currentKey) := by
  induction offset, currentKey using Mmdb.Block.seekScan.induct b target compare with
  | case1 offset currentKey hlt e herror =>
    rw [seekScan_step hlt hview, Mmdb.Block.seekScan_step hlt, herror]
    rfl
  | case2 offset currentKey hlt key value nextOff hentry hfound =>
    rw [seekScan_step hlt hview, Mmdb.Block.seekScan_step hlt, hentry]
    exact Refines.ite (fun _ => rfl) (fun h => absurd hfound h)
  | case3 offset currentKey hlt key value nextOff hentry hbelow _ ih =>
    rw [seekScan_step hlt hview, Mmdb.Block.seekScan_step hlt, hentry]
    exact Refines.ite (fun h => absurd h hbelow) (fun _ => ih)
  | case4 offset currentKey hge =>
    rw [seekScan, Mmdb.Block.seekScan, if_neg hge, if_neg hge]
    rfl

theorem seekForPrevScan_refines (hview : r.view = some b.entryData) (offset : Nat)
    (currentKey : Bytes) (best : Option (Bytes × Bytes)) :
    Refines (seekForPrevScan r b.restartOffset target compare offset currentKey best)
      (b.seekForPrevScan target compare offset currentKey best) := by
  induction offset, currentKey, best using Mmdb.Block.seekForPrevScan.induct b target compare with
  | case1 offset currentKey best hlt e herror =>
    rw [seekForPrevScan_step hlt hview, Mmdb.Block.seekForPrevScan_step hlt, herror]
    rfl
  | case2 offset currentKey best hlt key value nextOff hentry hnotAbove _ ih =>
    rw [seekForPrevScan_step hlt hview, Mmdb.Block.seekForPrevScan_step hlt, hentry]
    exact Refines.ite (fun _ => ih) (fun h => absurd hnotAbove h)
  | case3 offset currentKey best hlt key value nextOff hentry habove =>
    rw [seekForPrevScan_step hlt hview, Mmdb.Block.seekForPrevScan_step hlt, hentry]
    exact Refines.ite (fun h => absurd h habove) (fun _ => rfl)
  | case4 offset currentKey best hge =>
    rw [seekForPrevScan, Mmdb.Block.seekForPrevScan, if_neg hge, if_neg hge]
    rfl

end Scans

/-! ## Blocks -/

/-- `Block`: the bytes, where the restart array starts and how many restart points it holds. -/
structure Block where
  data : Slice UInt8
  restartOffset : Nat
  numRestarts : Nat

/-- One pass of the restart check of `Block::new`. -/
def checkRestart (data : Bytes) (restartOffset prevRestart i : Nat) : ExceptT Error Option Nat := do
  let offset ← add 64 restartOffset (← mul 64 i 4)
  let restart := leValue (← range data offset (← add 64 offset 4))
  if (i = 0 ∧ restart ≠ 0) ∨ restart > restartOffset ∨ (i > 0 ∧ restart < prevRestart) then
    throw (.corruption "bad restart offset")
  pure restart

/-- `Block::new`: the size of the restart array is computed before the count is checked. -/
def Block.new (data : Slice UInt8) : ExceptT Error Option Block := do
  if data.1.length < 4 then throw (.corruption "block too short")
  let numRestarts := leValue (← rangeFrom data.1 (← sub data.1.length 4))
  let restartsSize ← add 64 (← mul 64 numRestarts 4) 4
  if numRestarts = 0 then throw (.corruption "bad restart count")
  if restartsSize > data.1.length then throw (.corruption "bad restart count")
  let restartOffset ← sub data.1.length restartsSize
  let _ ← (List.range numRestarts).foldlM (checkRestart data.1 restartOffset) 0
  pure ⟨data, restartOffset, numRestarts⟩

namespace Block

/-- The block `Block::new` returns on the bytes `data` where the total model returns `b`. -/
def ofBlock (data : Slice UInt8) (b : Mmdb.Block) : Block := ⟨data, b.restartOffset, b.numRestarts⟩

/-- `restart_point`; `none` is a panic. -/
def restartPoint (b : Block) (i : Nat) : Option Nat := do
  let offset ← add 64 b.restartOffset (← mul 64 i 4)
  pure (leValue (← range b.data.1 offset (← add 64 offset 4)))

/-- `entry_data`. -/
def entryData (b : Block) : Option Bytes := rangeTo b.data.1 b.restartOffset

/-- The loops read from `entry_data()`. -/
def reader (b : Block) : Reader :=
  ⟨b.entryData, fun _ h => Nat.lt_of_le_of_lt (rangeTo_length_le h) b.data.2⟩

/-- The loop of `iter_restart_segment` reads from `entry_data()[..end]`. -/
def segmentReader (b : Block) (stop : Nat) : Reader :=
  ⟨b.entryData.bind (rangeTo · stop), fun _ h => by
    obtain ⟨d, hd, hstop⟩ := Option.bind_eq_some_iff.mp h
    exact Nat.lt_of_le_of_lt (rangeTo_length_le hstop)
      (Nat.lt_of_le_of_lt (rangeTo_length_le hd) b.data.2)⟩

end Block

/-- What `Block::new` checked of a block it returned on the bytes `data` (`Block.new_eq_ok`). -/
structure Block.Valid (data : Slice UInt8) (b : Mmdb.Block) : Prop where
  data_eq : b.data = data.1
  numRestarts_lt : b.numRestarts < 2 ^ 32
  restartPoint_le : ∀ i, i < b.numRestarts → b.restartPoint i ≤ b.restartOffset

theorem Block.valid_of_new {data : Slice UInt8} {b : Mmdb.Block}
    (h : Mmdb.Block.new data.1 = .ok b) : Block.Valid data b :=
  let ⟨hdata, hlt, hle⟩ := Mmdb.Block.new_eq_ok h
  ⟨hdata, hlt, hle⟩

/-- A restart point inside the restart array is read without a panic. -/
theorem checkRestart_refines {data : Bytes} (hlen : data.length < 2 ^ 63) (restartOffset : Nat)
    {i : Nat} (hi : restartOffset + i * 4 + 4 ≤ data.length) (prevRestart : Nat) :
    Refines (checkRestart data restartOffset prevRestart i)
      (Mmdb.checkRestart data restartOffset prevRestart i) := by
  unfold checkRestart Mmdb.checkRestart
  refine Refines.lift (mul_eq (by omega)) (Refines.lift (add_eq (by omega)) ?_)
  refine Refines.lift (add_eq (by omega)) (Refines.lift (range_add_eq hi) ?_)
  exact Refines.ite (fun _ => rfl) (fun _ => rfl)

/-- **`Block::new` does not panic**, and returns the block the total model returns. The count is
a `u32`, so the size of the restart array fits in a `usize`. -/
theorem Block.new_refines (data : Slice UInt8) :
    Refines (Block.new data) (Block.ofBlock data <$> Mmdb.Block.new data.1) := by
  have hlen := data.2
  unfold Block.new Mmdb.Block.new
  rw [← bind_pure_comp]
  refine Refines.ite_bind (fun _ => rfl) fun hlong => ?_
  have hcount : data.1.slice (data.1.length - 4) 4 = data.1.drop (data.1.length - 4) := by
    simp only [List.slice]
    exact List.take_of_length_le (by simp; omega)
  have hn : leValue (data.1.slice (data.1.length - 4) 4) < 2 ^ 32 :=
    Nat.lt_of_lt_of_eq (leValue_slice_lt _ _ 4) (by norm_num)
  refine Refines.lift (sub_eq (by omega)) (Refines.lift (rangeFrom_eq (by omega)) ?_)
  rw [← hcount]
  refine Refines.lift (mul_eq (by omega)) (Refines.lift (add_eq (by omega)) ?_)
  refine Refines.ite_dite_bind (fun _ => rfl) fun hzero => ?_
  refine Refines.ite_dite_bind (fun _ => rfl) fun hsize => ?_
  refine Refines.lift (sub_eq (by omega)) ?_
  -- the restart check, then the block; the total side matches on the result of the check
  have hfold := Refines.foldlM (l := List.range (leValue (data.1.slice (data.1.length - 4) 4)))
    (fun prev i hi => checkRestart_refines hlen
      (data.1.length - (leValue (data.1.slice (data.1.length - 4) 4) * 4 + 4)) (i := i)
      (by have := List.mem_range.mp hi; omega) prev) 0
  cases hres : (List.range (leValue (data.1.slice (data.1.length - 4) 4))).foldlM
      (Mmdb.checkRestart data.1 (data.1.length - (leValue (data.1.slice (data.1.length - 4) 4) * 4 + 4))) 0
    with
  | error e =>
    rw [hres] at hfold
    exact hfold.bind_error
  | ok _ =>
    rw [hres] at hfold
    exact hfold.bind_ok rfl

namespace Block

section Valid

variable {data : Slice UInt8} {b : Mmdb.Block}

/-- A restart point of a valid block is read without a panic. -/
theorem restartPoint_eq (hv : Valid data b) {i : Nat} (hi : i < b.numRestarts) :
    (ofBlock data b).restartPoint i = some (b.restartPoint i) := by
  have hsize := b.size_eq
  have hlen := data.2
  rw [hv.data_eq] at hsize
  have hread : b.restartOffset + i * 4 + 4 ≤ data.1.length := by
    have : i * 4 + 4 ≤ b.numRestarts * 4 := by omega
    omega
  simp only [restartPoint, ofBlock, mul_eq (show i * 4 < 2 ^ 64 by omega), Option.bind_eq_bind,
    Option.bind_some, add_eq (show b.restartOffset + i * 4 < 2 ^ 64 by omega),
    add_eq (show b.restartOffset + i * 4 + 4 < 2 ^ 64 by omega), range_add_eq hread]
  rw [Mmdb.Block.restartPoint, hv.data_eq]
  rfl

theorem entryData_eq (hv : Valid data b) : (ofBlock data b).entryData = some b.entryData := by
  have hsize := b.size_eq
  rw [hv.data_eq] at hsize
  rw [entryData, rangeTo_eq (by simp only [ofBlock]; omega), Mmdb.Block.entryData, hv.data_eq]
  rfl

theorem segmentReader_view (hv : Valid data b) {stop : Nat} (hstop : stop ≤ b.restartOffset) :
    ((ofBlock data b).segmentReader stop).view = some (b.entryData.take stop) := by
  have hsize := b.size_eq
  have hlen : b.entryData.length = b.restartOffset := by
    simp only [Mmdb.Block.entryData, List.length_take]
    omega
  simp only [segmentReader, entryData_eq hv, Option.bind_some]
  exact rangeTo_eq (by omega)

end Valid

/-- The binary search over the restart points; the index arithmetic is on `u32`. -/
def searchRestarts (b : Block) (below : Bytes → Bool) : ExceptT Error Option Nat :=
  search 32 (fun mid => do
    let rp ← b.restartPoint mid
    (fun entry => below entry.1) <$> b.reader.read rp []) 0 b.numRestarts

/-- `seek_by`. -/
def seekBy (b : Block) (target : Bytes) (compare : Bytes → Bytes → Ordering) :
    ExceptT Error Option (Option (Bytes × Bytes)) :=
  if b.restartOffset = 0 then pure none
  else do
    let left ← b.searchRestarts fun key => compare key target == .lt
    let start ← if left > 0 then (do b.restartPoint (← sub left 1) : Option Nat) else pure 0
    seekScan b.reader b.restartOffset target compare start []

/-- `seek_for_prev_by`. -/
def seekForPrevBy (b : Block) (target : Bytes) (compare : Bytes → Bytes → Ordering) :
    ExceptT Error Option (Option (Bytes × Bytes)) :=
  if b.restartOffset = 0 then pure none
  else do
    let left ← b.searchRestarts fun key => compare key target != .gt
    let startRestart ← if left > 0 then sub left 1 else pure 0
    let start ← b.restartPoint startRestart
    seekForPrevScan b.reader b.restartOffset target compare start [] none

/-- `iter_from_restart`. -/
def iterFromRestart (b : Block) (restartIndex : Nat) :
    ExceptT Error Option (List (Bytes × Bytes)) :=
  if restartIndex ≥ b.numRestarts then pure []
  else do
    let start ← b.restartPoint restartIndex
    scanEntries b.reader b.restartOffset start []

/-- `iter_restart_segment`; `restart_index + 1`, computed in the test and again in the branch,
is computed once. -/
def iterRestartSegment (b : Block) (restartIndex : Nat) :
    ExceptT Error Option (List (Bytes × Bytes)) :=
  if restartIndex ≥ b.numRestarts then pure []
  else do
    let start ← b.restartPoint restartIndex
    let next ← add 32 restartIndex 1
    let «end» ← if next < b.numRestarts then b.restartPoint next else pure b.restartOffset
    scanEntries (b.segmentReader «end») «end» start []

section Valid

variable {data : Slice UInt8} {b : Mmdb.Block}

theorem searchRestarts_refines (hv : Valid data b) (below : Bytes → Bool) :
    Refines ((ofBlock data b).searchRestarts below) (b.searchRestarts below) :=
  search_refines hv.numRestarts_lt fun _ _ hi =>
    Refines.lift (restartPoint_eq hv hi) ((Reader.read_refines (entryData_eq hv) _ _).map _)

/-- The search ends at a restart point or just past the last one. -/
theorem searchRestarts_le {below : Bytes → Bool} {left : Nat}
    (h : b.searchRestarts below = .ok left) : left ≤ b.numRestarts :=
  BinarySearch.search_le (Nat.zero_le _) h

theorem seekBy_refines (hv : Valid data b) (target : Bytes) (compare : Bytes → Bytes → Ordering) :
    Refines ((ofBlock data b).seekBy target compare) (b.seekBy target compare) := by
  unfold seekBy Mmdb.Block.seekBy
  refine Refines.ite (fun _ => rfl) fun _ => ?_
  refine (searchRestarts_refines hv _).bind fun left hleft => ?_
  have hle := searchRestarts_le hleft
  -- the scan starts at the restart point before `left`, or at the first entry
  refine Refines.ite_left (fun hpos => ?_) (fun hpos => ?_)
  · rw [if_pos hpos]
    have hstart : (do (ofBlock data b).restartPoint (← sub left 1) : Option Nat) =
        some (b.restartPoint (left - 1)) := by
      rw [sub_eq hpos]
      exact restartPoint_eq hv (by omega)
    refine Refines.lift hstart ?_
    exact seekScan_refines (entryData_eq hv) _ _
  · rw [if_neg hpos]
    exact seekScan_refines (entryData_eq hv) _ _

theorem seekForPrevBy_refines (hv : Valid data b) (target : Bytes)
    (compare : Bytes → Bytes → Ordering) :
    Refines ((ofBlock data b).seekForPrevBy target compare) (b.seekForPrevBy target compare) := by
  unfold seekForPrevBy Mmdb.Block.seekForPrevBy
  refine Refines.ite (fun _ => rfl) fun _ => ?_
  refine (searchRestarts_refines hv _).bind fun left hleft => ?_
  have hle := searchRestarts_le hleft
  -- the scan starts at the restart point before `left`, or at the first one
  refine Refines.ite_left (fun hpos => ?_) (fun hpos => ?_)
  · rw [if_pos hpos]
    refine Refines.lift (sub_eq hpos) ?_
    refine Refines.lift (restartPoint_eq hv (by omega)) ?_
    exact seekForPrevScan_refines (entryData_eq hv) _ _ _
  · rw [if_neg hpos]
    refine Refines.lift (restartPoint_eq hv b.numRestarts_pos) ?_
    exact seekForPrevScan_refines (entryData_eq hv) _ _ _

theorem iterFromRestart_refines (hv : Valid data b) (restartIndex : Nat) :
    Refines ((ofBlock data b).iterFromRestart restartIndex) (b.iterFromRestart restartIndex) := by
  unfold iterFromRestart Mmdb.Block.iterFromRestart
  refine Refines.ite (fun _ => rfl) fun hindex => ?_
  refine Refines.lift (restartPoint_eq hv (Nat.lt_of_not_le hindex)) ?_
  exact scanEntries_refines (entryData_eq hv) _ _ _

theorem iterRestartSegment_refines (hv : Valid data b) (restartIndex : Nat) :
    Refines ((ofBlock data b).iterRestartSegment restartIndex) (b.iterRestartSegment restartIndex) := by
  unfold iterRestartSegment Mmdb.Block.iterRestartSegment
  refine Refines.ite (fun _ => rfl) fun hindex => ?_
  have hi : restartIndex < b.numRestarts := Nat.lt_of_not_le hindex
  have hn := hv.numRestarts_lt
  refine Refines.lift (restartPoint_eq hv hi) (Refines.lift (add_eq (by omega)) ?_)
  -- the segment ends at the next restart point, or at the end of the entries
  refine Refines.ite_left (fun (hnext : restartIndex + 1 < b.numRestarts) => ?_)
    (fun (hnext : ¬ restartIndex + 1 < b.numRestarts) => ?_)
  · rw [if_pos hnext]
    refine Refines.lift (restartPoint_eq hv hnext) ?_
    exact scanEntries_refines (segmentReader_view hv (hv.restartPoint_le _ hnext)) _ _ _
  · rw [if_neg hnext]
    exact scanEntries_refines (segmentReader_view hv (Nat.le_refl _)) _ _ _

end Valid

end Block

/-! ## Iteration -/

/-- `BlockIterator`: the total model's fields, and where the value of the last entry starts and
its length. -/
structure BlockIterator where
  offset : Nat
  key : Bytes
  valueStart : Nat
  valueLen : Nat
  error : Option Error

namespace BlockIterator

/-- The fields the total model keeps. -/
def total (it : BlockIterator) : Mmdb.BlockIterator := ⟨it.offset, it.key, it.error⟩

/-- `Iterator::next` of `BlockIterator`; `none` is a panic. -/
def next (b : Block) (it : BlockIterator) : Option (Option (Bytes × Bytes) × BlockIterator) :=
  if it.error.isSome ∨ it.offset ≥ b.restartOffset then some (none, it)
  else
    match (b.reader.read it.offset it.key).run with
    | none => none
    | some (.ok (key, value, nextOff)) => do
      let valueStart ← sub nextOff value.length
      pure (some (key, value),
        { it with key := key, valueStart := valueStart, valueLen := value.length, offset := nextOff })
    | some (.error e) => some (none, { it with error := some e })

/-- An entry that `next` returns moves the iterator forward, inside the entries. -/
theorem next_eq_some {b : Block} {it it' : BlockIterator} {entry : Bytes × Bytes}
    (h : it.next b = some (some entry, it')) :
    it.offset < it'.offset ∧ it.offset < b.restartOffset := by
  unfold next at h
  split at h
  · cases h
  · rename_i hlive
    split at h
    · cases h
    · rename_i key value nextOff hread
      obtain ⟨valueStart, -, h⟩ := Option.bind_eq_some_iff.mp h
      cases h
      exact ⟨b.reader.read_advance hread, by omega⟩
    · cases h

/-- What `collect` gathers: the entries `next` returns until it returns `None`; `none` is a
panic. -/
def collect (b : Block) (it : BlockIterator) : Option (List (Bytes × Bytes)) :=
  match hnext : it.next b with
  | some (some entry, it') =>
    have := next_eq_some hnext
    (entry :: ·) <$> collect b it'
  | some (none, _) => some []
  | none => none
termination_by b.restartOffset - it.offset

section Valid

variable {data : Slice UInt8} {b : Mmdb.Block}

/-- `next` does not panic, and moves as the total one does. -/
theorem next_refines (hv : Block.Valid data b) (it : BlockIterator) :
    (it.next (Block.ofBlock data b)).map (fun step => (step.1, step.2.total)) =
      some (it.total.next b) := by
  unfold next Mmdb.BlockIterator.next
  dsimp only [Block.ofBlock, total]
  by_cases hstop : it.error.isSome ∨ it.offset ≥ b.restartOffset
  · simp only [hstop, ↓reduceIte]
    rfl
  · simp only [hstop, ↓reduceIte]
    rw [Reader.read_refines (Block.entryData_eq hv)]
    cases hentry : Mmdb.decodeEntryAt b.entryData it.offset it.key with
    | error e => rfl
    | ok entry =>
      obtain ⟨key, value, nextOff⟩ := entry
      -- the value ends the entry, so `next_off - value.len()` does not wrap
      obtain ⟨_, _, _, _, valueLen, _, -, -, -, -, -, hoff, -, hvalue⟩ :=
        Mmdb.decodeEntryAt_eq_ok hentry
      have hlen : value.length ≤ nextOff := by
        rw [hvalue, hoff]
        exact Nat.le_trans (List.length_take_le _ _) (by omega)
      simp only [sub_eq hlen, Option.bind_eq_bind, Option.bind_some]
      rfl

theorem collect_of_next_some {it it' : BlockIterator} {entry : Bytes × Bytes} {c : Block}
    (h : it.next c = some (some entry, it')) : it.collect c = (entry :: ·) <$> it'.collect c := by
  rw [collect]
  split
  · rename_i entry' it'' hnext
    rw [h] at hnext
    cases hnext
    rfl
  · rename_i hnext
    rw [h] at hnext
    cases hnext
  · rename_i hnext
    rw [h] at hnext
    cases hnext

theorem collect_of_next_none {it it' : BlockIterator} {c : Block}
    (h : it.next c = some (none, it')) : it.collect c = some [] := by
  rw [collect]
  split
  · rename_i hnext
    rw [h] at hnext
    cases hnext
  · rfl
  · rename_i hnext
    rw [h] at hnext
    cases hnext

/-- **Iteration does not panic**: it collects what the total iteration collects. -/
theorem collect_refines (hv : Block.Valid data b) (it : BlockIterator) :
    it.collect (Block.ofBlock data b) = some (it.total.collect b) := by
  induction it using collect.induct (Block.ofBlock data b) with
  | case1 it entry it' hnext _ ih =>
    have hstep := next_refines hv it
    rw [hnext] at hstep
    rw [collect_of_next_some hnext, ih, Mmdb.BlockIterator.collect_of_next_some
      (Option.some.inj hstep).symm]
    rfl
  | case2 it it' hnext =>
    have hstep := next_refines hv it
    rw [hnext] at hstep
    rw [collect_of_next_none hnext, Mmdb.BlockIterator.collect_of_next_none
      (congrArg Prod.fst (Option.some.inj hstep)).symm]
  | case3 it hnext =>
    have hstep := next_refines hv it
    rw [hnext] at hstep
    cases hstep

end Valid

end BlockIterator

end Mmdb.Checked
