import Mmdb.Types
import Mmdb.Lib.Except
import Mmdb.Lib.LittleEndian
import Mmdb.Lib.BinarySearch

/-!
# Data blocks: varints, entries, restart points, iteration and seeks

`src/sst/block.rs`. An entry is three varints (the length of the key prefix it shares with the
key before it, the length of the rest of the key, the length of the value), the rest of the key
and the value. The entries are followed by the restart array, `u32` little-endian offsets of
entries that share nothing with the key before them, and its length.

Every function is modelled with its errors. The varint value is kept as a `Nat`: the reader
refuses a fifth byte with more than four bits, so no bit is ever shifted out of the `u32`. The
overflow checks of `decode_entry_at` (`checked_add` on a `usize`) are left out: a position in the
block plus a `u32` length cannot reach `2^64`.

**What is proved here, for every block.**
- `decodeVarint_encodeVarint`: a `u32` varint reads back, with the number of bytes written.
- `Block.new_of_restarts`: what `Block::new` accepts.
- The block's entries are given by `Block.Reads`: reading entry after entry from an offset yields
  a list and ends where the restart array starts. Iteration then collects that list
  (`collect_of_reads`), and the two scans find what a linear search finds.
- `seekBy_eq` and `seekForPrevBy_eq`: when the restart points start, from an empty key, suffixes
  of the entries at increasing positions (`Block.Restarts`) and the keys increase under a lawful
  comparator, the two seeks return the first entry not below the target and the last entry not
  above it.
-/

namespace Mmdb

/-! ## Varints -/

/-- `encode_varint` of a `u32`: seven bits a byte, least significant first. -/
def encodeVarint (value : Nat) : Bytes :=
  if value ≥ 0x80 then (UInt8.ofNat value ||| 0x80) :: encodeVarint (value >>> 7)
  else [UInt8.ofNat value]
termination_by value
decreasing_by
  rw [Nat.shiftRight_eq_div_pow]
  omega

/-- The loop of `decode_varint` at byte `i`, with the value read so far and the shift of the
next seven bits. -/
def decodeVarintLoop : Bytes → Nat → Nat → Nat → Result (Nat × Nat)
  | [], _, _, _ => .error (.corruption "unterminated varint")
  | byte :: rest, i, result, shift =>
    if i ≥ 5 then .error (.corruption "varint too long")
    -- the fifth byte may only carry the top four bits of a `u32`
    else if i = 4 ∧ byte &&& 0xF0 ≠ 0 then .error (.corruption "varint overflows u32")
    else
      let result := result ||| (byte &&& 0x7F).toNat <<< shift
      if byte &&& 0x80 = 0 then .ok (result, i + 1)
      else decodeVarintLoop rest (i + 1) result (shift + 7)

/-- `decode_varint`: the value and the number of bytes it took. -/
def decodeVarint (data : Bytes) : Result (Nat × Nat) := decodeVarintLoop data 0 0 0

section Varint

variable {byte : UInt8} {rest : Bytes} {i acc shift : Nat}

/-- A byte without the high bit ends the varint. -/
theorem decodeVarintLoop_last (hi : i < 5) (hfifth : ¬ (i = 4 ∧ byte &&& 0xF0 ≠ 0))
    (hlast : byte &&& 0x80 = 0) :
    decodeVarintLoop (byte :: rest) i acc shift =
      .ok (acc ||| (byte &&& 0x7F).toNat <<< shift, i + 1) := by
  rw [decodeVarintLoop, if_neg (by omega), if_neg hfifth, if_pos hlast]

/-- A byte with the high bit set is followed by more of the varint. -/
theorem decodeVarintLoop_more (hi : i < 5) (hfifth : ¬ (i = 4 ∧ byte &&& 0xF0 ≠ 0))
    (hmore : byte &&& 0x80 ≠ 0) :
    decodeVarintLoop (byte :: rest) i acc shift =
      decodeVarintLoop rest (i + 1) (acc ||| (byte &&& 0x7F).toNat <<< shift) (shift + 7) := by
  rw [decodeVarintLoop, if_neg (by omega), if_neg hfifth, if_neg hmore]

/-- The loop reads a varint written from byte `i` on: its value lands above the bits read so
far, as long as the whole stays a `u32`. -/
theorem decodeVarintLoop_encodeVarint (x : Nat) (hi : i ≤ 4) (hacc : acc < 2 ^ (7 * i))
    (hx : acc + x * 2 ^ (7 * i) < 2 ^ 32) :
    decodeVarintLoop (encodeVarint x ++ rest) i acc (7 * i) =
      .ok (acc + x * 2 ^ (7 * i), i + (encodeVarint x).length) := by
  induction x using Nat.strong_induction_on generalizing i acc with
  | _ x ih =>
  have hpow : 2 ^ (7 * (i + 1)) = 2 ^ (7 * i) * 128 := by
    rw [Nat.mul_succ, Nat.pow_add]
  by_cases hbig : x ≥ 0x80
  · -- a byte of seven bits with the high bit set, then the rest of the number
    have hi4 : i < 4 := by
      by_contra hge
      obtain rfl : i = 4 := by omega
      norm_num at hx
      omega
    have hlow := UInt8.toNat_ofNat_or_and_low x
    have hdigit : x % 128 * 2 ^ (7 * i) ≤ 127 * 2 ^ (7 * i) :=
      Nat.mul_le_mul_right _ (by omega)
    have hsplit : acc + x % 128 * 2 ^ (7 * i) + x / 128 * 2 ^ (7 * (i + 1)) =
        acc + x * 2 ^ (7 * i) := by
      rw [hpow]
      conv_rhs => rw [← Nat.mod_add_div x 128]
      ring
    have hshift : x >>> 7 = x / 128 := by simp [Nat.shiftRight_eq_div_pow]
    rw [encodeVarint, if_pos hbig, List.cons_append,
      decodeVarintLoop_more (by omega) (by omega) (UInt8.ofNat_or_and_high_ne x), hlow,
      Nat.or_shiftLeft_eq_add hacc, show 7 * i + 7 = 7 * (i + 1) by ring, hshift,
      ih (x / 128) (by omega) (by omega) (by rw [hpow]; omega) (by rw [hsplit]; omega), hsplit]
    simp only [List.length_cons]
    congr 2
    omega
  · -- the last byte
    have hlast : UInt8.ofNat x &&& 0x80 = 0 :=
      UInt8.and_eq_zero_of_lt (k := 7) (by rw [UInt8.toNat_ofNat']; omega) (by decide)
    have hfifth : ¬ (i = 4 ∧ UInt8.ofNat x &&& 0xF0 ≠ 0) := by
      rintro ⟨rfl, hne⟩
      norm_num at hx
      exact hne (UInt8.and_eq_zero_of_lt (k := 4) (by rw [UInt8.toNat_ofNat']; omega) (by decide))
    rw [encodeVarint, if_neg hbig, List.cons_append, List.nil_append,
      decodeVarintLoop_last (by omega) hfifth hlast, UInt8.toNat_ofNat_and_low (by omega),
      Nat.or_shiftLeft_eq_add hacc]
    rfl

/-- **The varint round trip**: a `u32` reads back, with the number of bytes written. -/
theorem decodeVarint_encodeVarint {x : Nat} (hx : x < 2 ^ 32) (rest : Bytes) :
    decodeVarint (encodeVarint x ++ rest) = .ok (x, (encodeVarint x).length) := by
  have h : decodeVarintLoop (encodeVarint x ++ rest) 0 0 (7 * 0) =
      .ok (0 + x * 2 ^ (7 * 0), 0 + (encodeVarint x).length) :=
    decodeVarintLoop_encodeVarint x (Nat.zero_le 4) (by decide) (by simpa using hx)
  simpa [decodeVarint] using h

end Varint

/-! ## Entries -/

/-- `decode_entry_at`: the entry at `offset` of the entry data, after the key `prevKey`; its key,
its value and the offset after it. -/
def decodeEntryAt (data : Bytes) (offset : Nat) (prevKey : Bytes) :
    Result (Bytes × Bytes × Nat) := do
  if offset > data.length then throw (.corruption "block entry offset past end of data")
  let (sharedLen, n) ← decodeVarint (data.drop offset)
  let pos := offset + n
  if pos > data.length then throw (.corruption "block entry header truncated")
  let (unsharedLen, n) ← decodeVarint (data.drop pos)
  let pos := pos + n
  if pos > data.length then throw (.corruption "block entry header truncated")
  let (valueLen, n) ← decodeVarint (data.drop pos)
  let pos := pos + n
  let keyEnd := pos + unsharedLen
  let valueEnd := keyEnd + valueLen
  if valueEnd > data.length then throw (.corruption "block entry extends past end of data")
  if sharedLen > prevKey.length then
    throw (.corruption "block entry shared prefix exceeds previous key length")
  pure (prevKey.take sharedLen ++ data.slice pos unsharedLen, data.slice keyEnd valueLen, valueEnd)

/-- A varint takes at least one byte. -/
theorem decodeVarintLoop_consumed {data : Bytes} {i acc shift v n : Nat}
    (h : decodeVarintLoop data i acc shift = .ok (v, n)) : i < n := by
  induction data generalizing i acc shift with
  | nil => cases h
  | cons byte rest ih =>
    rw [decodeVarintLoop] at h
    -- the refused bytes were closed by the split; the last byte, or more to come
    split_ifs at h
    · cases h
      omega
    · have := ih h
      omega

/-- What a successful `decode_entry_at` read: three varints, a shared prefix that the key
before has, then the rest of the key and the value inside the data. -/
theorem decodeEntryAt_eq_ok {data prevKey key value : Bytes} {offset nextOff : Nat}
    (h : decodeEntryAt data offset prevKey = .ok (key, value, nextOff)) :
    ∃ sharedLen n₁ unsharedLen n₂ valueLen n₃,
      decodeVarint (data.drop offset) = .ok (sharedLen, n₁) ∧
      decodeVarint (data.drop (offset + n₁)) = .ok (unsharedLen, n₂) ∧
      decodeVarint (data.drop (offset + n₁ + n₂)) = .ok (valueLen, n₃) ∧
      sharedLen ≤ prevKey.length ∧ nextOff ≤ data.length ∧
      nextOff = offset + n₁ + n₂ + n₃ + unsharedLen + valueLen ∧
      key = prevKey.take sharedLen ++ data.slice (offset + n₁ + n₂ + n₃) unsharedLen ∧
      value = data.slice (offset + n₁ + n₂ + n₃ + unsharedLen) valueLen := by
  unfold decodeEntryAt at h
  dsimp only at h
  -- each check that fails ends in an error; peel the reads one at a time
  obtain ⟨-, h⟩ := Except.ite_throw_bind_eq_ok h
  obtain ⟨⟨sharedLen, n₁⟩, h₁, h⟩ := Except.bind_eq_ok.mp h
  obtain ⟨-, h⟩ := Except.ite_throw_bind_eq_ok h
  obtain ⟨⟨unsharedLen, n₂⟩, h₂, h⟩ := Except.bind_eq_ok.mp h
  obtain ⟨-, h⟩ := Except.ite_throw_bind_eq_ok h
  obtain ⟨⟨valueLen, n₃⟩, h₃, h⟩ := Except.bind_eq_ok.mp h
  obtain ⟨hend, h⟩ := Except.ite_throw_bind_eq_ok h
  obtain ⟨hshared, h⟩ := Except.ite_throw_bind_eq_ok h
  simp only [Except.pure_eq_ok, Except.ok.injEq, Prod.mk.injEq] at h
  obtain ⟨rfl, rfl, rfl⟩ := h
  exact ⟨sharedLen, n₁, unsharedLen, n₂, valueLen, n₃, h₁, h₂, h₃, by omega, by omega, rfl, rfl,
    rfl⟩

/-- An entry read moves past its offset, and stays inside the data. -/
theorem decodeEntryAt_advance {data prevKey key value : Bytes} {offset nextOff : Nat}
    (h : decodeEntryAt data offset prevKey = .ok (key, value, nextOff)) :
    offset < nextOff ∧ nextOff ≤ data.length := by
  obtain ⟨_, n₁, _, _, _, _, h₁, -, -, -, hend, rfl, -, -⟩ := decodeEntryAt_eq_ok h
  have := decodeVarintLoop_consumed h₁
  omega

/-! ## Blocks -/

/-- `Block`: the bytes, where the restart array starts and how many restart points it holds. -/
structure Block where
  data : Bytes
  restartOffset : Nat
  numRestarts : Nat
  /-- `Block::new` refused a block without restart points. -/
  numRestarts_pos : 0 < numRestarts
  /-- The restart array and its count end the block, as `Block::new` checked. -/
  size_eq : restartOffset + numRestarts * 4 + 4 = data.length

/-- One pass of the restart check of `Block::new`: restart `i` is `0` for the first, not past the
entries, and not below the one before it. -/
def checkRestart (data : Bytes) (restartOffset prevRestart i : Nat) : Result Nat :=
  let restart := leValue (data.slice (restartOffset + i * 4) 4)
  if (i = 0 ∧ restart ≠ 0) ∨ restart > restartOffset ∨ (i > 0 ∧ restart < prevRestart) then
    .error (.corruption "bad restart offset")
  else .ok restart

/-- `Block::new`. -/
def Block.new (data : Bytes) : Result Block :=
  if data.length < 4 then .error (.corruption "block too short")
  else
    let numRestarts := leValue (data.slice (data.length - 4) 4)
    if hzero : numRestarts = 0 then .error (.corruption "bad restart count")
    else if hsize : numRestarts * 4 + 4 > data.length then .error (.corruption "bad restart count")
    else
      match (List.range numRestarts).foldlM (checkRestart data (data.length - (numRestarts * 4 + 4))) 0
      with
      | .error e => .error e
      | .ok _ => .ok ⟨data, data.length - (numRestarts * 4 + 4), numRestarts, by omega, by omega⟩

section New

variable {data : Bytes} {restartOffset n : Nat} {r : Nat → Nat}

/-- A restart point that is `0` when first, not past the entries, and not below the one before
passes its check. -/
theorem checkRestart_eq_ok {prevRestart i : Nat}
    (hread : leValue (data.slice (restartOffset + i * 4) 4) = r i) (hfirst : i = 0 → r i = 0)
    (hle : r i ≤ restartOffset) (hmono : 0 < i → prevRestart ≤ r i) :
    checkRestart data restartOffset prevRestart i = .ok (r i) := by
  rw [checkRestart, hread, if_neg]
  rintro (⟨hzero, hne⟩ | hgt | ⟨hpos, hlt⟩)
  · exact hne (hfirst hzero)
  · omega
  · have := hmono hpos
    omega

/-- The restart check passes over the first `k` restart points, and ends on the last of them. -/
theorem foldlM_checkRestart (hread : ∀ i, i < n → leValue (data.slice (restartOffset + i * 4) 4) = r i)
    (hfirst : r 0 = 0) (hle : ∀ i, i < n → r i ≤ restartOffset)
    (hmono : ∀ i, i + 1 < n → r i ≤ r (i + 1)) :
    ∀ k, k ≤ n → (List.range k).foldlM (checkRestart data restartOffset) 0 =
      .ok (if k = 0 then 0 else r (k - 1)) := by
  intro k
  induction k with
  | zero => intro _; rfl
  | succ k ih =>
    intro hk
    have hcheck : checkRestart data restartOffset (if k = 0 then 0 else r (k - 1)) k = .ok (r k) :=
      checkRestart_eq_ok (hread k (by omega)) (fun h => h ▸ hfirst) (hle k (by omega))
        fun hpos => by
          rw [if_neg (by omega)]
          have := hmono (k - 1) (by omega)
          rwa [Nat.sub_add_cancel hpos] at this
    rw [List.range_succ, List.foldlM_append, ih (by omega), Except.ok_bind, List.foldlM_cons,
      hcheck, Except.ok_bind, List.foldlM_nil, if_neg (Nat.succ_ne_zero k), Nat.add_sub_cancel]
    rfl

/-- **What `Block::new` accepts**: bytes that end in a count `n > 0` of restart points, read as
`u32`s from `restartOffset` on, the first `0`, none past the entries and none below the one
before. -/
theorem Block.new_of_restarts (hlen : restartOffset + n * 4 + 4 = data.length)
    (hcount : leValue (data.slice (data.length - 4) 4) = n) (hpos : 0 < n)
    (hread : ∀ i, i < n → leValue (data.slice (restartOffset + i * 4) 4) = r i)
    (hfirst : r 0 = 0) (hle : ∀ i, i < n → r i ≤ restartOffset)
    (hmono : ∀ i, i + 1 < n → r i ≤ r (i + 1)) :
    Block.new data = .ok ⟨data, restartOffset, n, hpos, hlen⟩ := by
  rw [Block.new, if_neg (by omega)]
  simp only [hcount]
  obtain rfl : restartOffset = data.length - (n * 4 + 4) := by omega
  rw [dif_neg (by omega), dif_neg (by omega),
    foldlM_checkRestart hread hfirst hle hmono n (Nat.le_refl n)]

end New

namespace Block

/-- `restart_point`. -/
def restartPoint (b : Block) (i : Nat) : Nat := leValue (b.data.slice (b.restartOffset + i * 4) 4)

/-- `entry_data`: the bytes before the restart array. -/
def entryData (b : Block) : Bytes := b.data.take b.restartOffset

/-- A restart point that passed its check lies inside the entries. -/
theorem checkRestart_le {data : Bytes} {restartOffset prevRestart i r : Nat}
    (h : checkRestart data restartOffset prevRestart i = .ok r) :
    leValue (data.slice (restartOffset + i * 4) 4) ≤ restartOffset := by
  unfold checkRestart at h
  dsimp only at h
  split at h
  · cases h
  · rename_i hok
    exact Nat.le_of_not_gt fun hgt => hok (Or.inr (Or.inl hgt))

/-- **What `Block::new` returns**: a block of the bytes it was given, with fewer than `2^32`
restart points (the count is a `u32`), each inside the entries. -/
theorem new_eq_ok {data : Bytes} {b : Block} (h : Block.new data = .ok b) :
    b.data = data ∧ b.numRestarts < 2 ^ 32 ∧
      ∀ i, i < b.numRestarts → b.restartPoint i ≤ b.restartOffset := by
  unfold Block.new at h
  dsimp only at h
  split_ifs at h
  split at h
  · cases h
  rename_i hrestarts
  cases h
  refine ⟨rfl, ?_, fun i hi => ?_⟩
  · -- the count is read from four bytes
    exact Nat.lt_of_lt_of_eq (leValue_slice_lt data (data.length - 4) 4) (by norm_num)
  · obtain ⟨_, _, hcheck⟩ := Except.foldlM_eq_ok_mem hrestarts i (List.mem_range.mpr hi)
    exact checkRestart_le hcheck

/-- The binary search over the restart points that `seek_by` and `seek_for_prev_by` share: the
first restart point whose key fails `below`. The two seeks differ in `below` only. -/
def searchRestarts (b : Block) (below : Bytes → Bool) : Result Nat :=
  BinarySearch.search
    (fun mid => (decodeEntryAt b.entryData (b.restartPoint mid) []).map fun entry => below entry.1)
    0 b.numRestarts

/-- The scan of `seek_by` from `offset`: the first entry whose key is not below the target. -/
def seekScan (b : Block) (target : Bytes) (compare : Bytes → Bytes → Ordering) (offset : Nat)
    (currentKey : Bytes) : Result (Option (Bytes × Bytes)) :=
  if offset < b.restartOffset then
    match hentry : decodeEntryAt b.entryData offset currentKey with
    | .error e => .error e
    | .ok (key, value, nextOff) =>
      if compare key target ≠ .lt then .ok (some (key, value))
      else
        have := (decodeEntryAt_advance hentry).1
        b.seekScan target compare nextOff key
  else .ok none
termination_by b.restartOffset - offset

/-- `seek_by`: the first entry whose key is not below `target` under `compare`. -/
def seekBy (b : Block) (target : Bytes) (compare : Bytes → Bytes → Ordering) :
    Result (Option (Bytes × Bytes)) :=
  if b.restartOffset = 0 then .ok none
  else do
    let left ← b.searchRestarts fun key => compare key target == .lt
    let start := if left > 0 then b.restartPoint (left - 1) else 0
    b.seekScan target compare start []

/-- The scan of `seek_for_prev_by` from `offset`: the last entry whose key is not above the
target, stopping at the first one above it. -/
def seekForPrevScan (b : Block) (target : Bytes) (compare : Bytes → Bytes → Ordering)
    (offset : Nat) (currentKey : Bytes) (best : Option (Bytes × Bytes)) :
    Result (Option (Bytes × Bytes)) :=
  if offset < b.restartOffset then
    match hentry : decodeEntryAt b.entryData offset currentKey with
    | .error e => .error e
    | .ok (key, value, nextOff) =>
      if compare key target ≠ .gt then
        have := (decodeEntryAt_advance hentry).1
        b.seekForPrevScan target compare nextOff key (some (key, value))
      else .ok best
  else .ok best
termination_by b.restartOffset - offset

/-- `seek_for_prev_by`: the last entry whose key is not above `target` under `compare`. -/
def seekForPrevBy (b : Block) (target : Bytes) (compare : Bytes → Bytes → Ordering) :
    Result (Option (Bytes × Bytes)) :=
  if b.restartOffset = 0 then .ok none
  else do
    let left ← b.searchRestarts fun key => compare key target != .gt
    let startRestart := if left > 0 then left - 1 else 0
    b.seekForPrevScan target compare (b.restartPoint startRestart) [] none

/-- The loop of `iter_from_restart` and `iter_restart_segment`: the entries of `data` read from
`offset` on, while the offset is below `bound`. -/
def scanEntries (data : Bytes) (bound offset : Nat) (currentKey : Bytes) :
    Result (List (Bytes × Bytes)) :=
  if offset < bound then
    match hentry : decodeEntryAt data offset currentKey with
    | .error e => .error e
    | .ok (key, value, nextOff) =>
      have := (decodeEntryAt_advance hentry).1
      ((key, value) :: ·) <$> scanEntries data bound nextOff key
  else .ok []
termination_by bound - offset

/-- One pass of the scan of `seek_by`: the entry at the offset, then the rest. -/
theorem seekScan_step {b : Block} {target : Bytes} {compare : Bytes → Bytes → Ordering}
    {offset : Nat} {currentKey : Bytes} (hlt : offset < b.restartOffset) :
    b.seekScan target compare offset currentKey =
      match decodeEntryAt b.entryData offset currentKey with
      | .error e => .error e
      | .ok (key, value, nextOff) =>
        if compare key target ≠ .lt then .ok (some (key, value))
        else b.seekScan target compare nextOff key := by
  rw [seekScan, if_pos hlt]
  split <;> rename_i heq <;> simp only [heq]

/-- One pass of the scan of `seek_for_prev_by`. -/
theorem seekForPrevScan_step {b : Block} {target : Bytes} {compare : Bytes → Bytes → Ordering}
    {offset : Nat} {currentKey : Bytes} {best : Option (Bytes × Bytes)}
    (hlt : offset < b.restartOffset) :
    b.seekForPrevScan target compare offset currentKey best =
      match decodeEntryAt b.entryData offset currentKey with
      | .error e => .error e
      | .ok (key, value, nextOff) =>
        if compare key target ≠ .gt then b.seekForPrevScan target compare nextOff key (some (key, value))
        else .ok best := by
  rw [seekForPrevScan, if_pos hlt]
  split <;> rename_i heq <;> simp only [heq]

/-- One pass of the loop of `iter_from_restart`. -/
theorem scanEntries_step {data : Bytes} {bound offset : Nat} {currentKey : Bytes}
    (hlt : offset < bound) :
    scanEntries data bound offset currentKey =
      match decodeEntryAt data offset currentKey with
      | .error e => .error e
      | .ok (key, value, nextOff) => ((key, value) :: ·) <$> scanEntries data bound nextOff key := by
  rw [scanEntries, if_pos hlt]
  split <;> rename_i heq <;> simp only [heq]

/-- `iter_from_restart`: the entries from restart point `restartIndex` to the end of the entries. -/
def iterFromRestart (b : Block) (restartIndex : Nat) : Result (List (Bytes × Bytes)) :=
  if restartIndex ≥ b.numRestarts then .ok []
  else scanEntries b.entryData b.restartOffset (b.restartPoint restartIndex) []

/-- `iter_restart_segment`: the entries from restart point `restartIndex` up to the next one, read
from the entries cut there. -/
def iterRestartSegment (b : Block) (restartIndex : Nat) : Result (List (Bytes × Bytes)) :=
  if restartIndex ≥ b.numRestarts then .ok []
  else
    let «end» := if restartIndex + 1 < b.numRestarts then b.restartPoint (restartIndex + 1)
      else b.restartOffset
    scanEntries (b.entryData.take «end») «end» (b.restartPoint restartIndex) []

end Block

/-! ## Iteration -/

/-- `BlockIterator`: the offset of the next entry, the key before it, and the error that ended
the iteration. -/
structure BlockIterator where
  offset : Nat
  key : Bytes
  error : Option Error

/-- `Block::iter`. -/
def Block.iter : BlockIterator := ⟨0, [], none⟩

namespace BlockIterator

/-- `Iterator::next` of `BlockIterator`: corruption ends the iteration and is kept. -/
def next (b : Block) (it : BlockIterator) : Option (Bytes × Bytes) × BlockIterator :=
  if it.error.isSome ∨ it.offset ≥ b.restartOffset then (none, it)
  else
    match decodeEntryAt b.entryData it.offset it.key with
    | .ok (key, value, nextOff) => (some (key, value), { it with key := key, offset := nextOff })
    | .error e => (none, { it with error := some e })

/-- An entry that `next` returns moves the iterator forward, inside the entries. -/
theorem next_eq_some {b : Block} {it it' : BlockIterator} {entry : Bytes × Bytes}
    (h : it.next b = (some entry, it')) : it.offset < it'.offset ∧ it.offset < b.restartOffset := by
  unfold next at h
  split at h
  · cases h
  · split at h
    · rename_i hentry
      simp only [Prod.mk.injEq, Option.some.injEq] at h
      obtain ⟨-, rfl⟩ := h
      exact ⟨(decodeEntryAt_advance hentry).1, by omega⟩
    · cases h

/-- What `collect` gathers: the entries `next` returns until it returns `None`. -/
def collect (b : Block) (it : BlockIterator) : List (Bytes × Bytes) :=
  match hnext : it.next b with
  | (some entry, it') =>
    have := next_eq_some hnext
    entry :: collect b it'
  | (none, _) => []
termination_by b.restartOffset - it.offset

end BlockIterator

/-! ## The entries of a block -/

/-- Reading entry after entry from `offset`, after the key `prevKey`, yields `entries` and ends
where the restart array starts. -/
inductive Block.Reads (b : Block) : Bytes → Nat → List (Bytes × Bytes) → Prop
  | nil {prevKey : Bytes} : Block.Reads b prevKey b.restartOffset []
  | cons {prevKey key value : Bytes} {offset nextOff : Nat} {entries : List (Bytes × Bytes)} :
      offset < b.restartOffset →
      decodeEntryAt b.entryData offset prevKey = .ok (key, value, nextOff) →
      Block.Reads b key nextOff entries → Block.Reads b prevKey offset ((key, value) :: entries)

namespace BlockIterator

variable {b : Block} {it it' : BlockIterator}

theorem collect_of_next_some {entry : Bytes × Bytes} (h : it.next b = (some entry, it')) :
    it.collect b = entry :: it'.collect b := by
  rw [collect]
  split
  · rename_i entry' it'' hnext
    rw [h] at hnext
    cases hnext
    rfl
  · rename_i hnext
    rw [h] at hnext
    cases hnext

theorem collect_of_next_none (h : (it.next b).1 = none) : it.collect b = [] := by
  rw [collect]
  split
  · rename_i hnext
    rw [hnext] at h
    cases h
  · rfl

/-- An entry read at the iterator's offset, after its key, is the next one collected. -/
theorem collect_of_decode {key value : Bytes} {nextOff : Nat} (herror : it.error = none)
    (hlt : it.offset < b.restartOffset)
    (hentry : decodeEntryAt b.entryData it.offset it.key = .ok (key, value, nextOff)) :
    it.collect b = (key, value) :: { it with key := key, offset := nextOff }.collect b := by
  apply collect_of_next_some
  simp only [next, herror, Option.isSome_none, Bool.false_eq_true, false_or, ge_iff_le,
    Nat.not_le.mpr hlt, if_false, hentry]

/-- **Iteration collects the entries** that reading from the iterator's position gives. -/
theorem collect_of_reads {prevKey : Bytes} {offset : Nat} {entries : List (Bytes × Bytes)}
    (h : b.Reads prevKey offset entries) :
    ∀ it : BlockIterator, it.key = prevKey → it.offset = offset → it.error = none →
      it.collect b = entries := by
  induction h with
  | nil =>
    intro it _ hoffset herror
    apply collect_of_next_none
    simp [next, hoffset, herror]
  | @cons prevKey key value offset nextOff entries hlt hentry _ ih =>
    intro it hkey hoffset herror
    subst hkey hoffset
    rw [collect_of_decode herror hlt hentry, ih { it with key := key, offset := nextOff } rfl rfl herror]

end BlockIterator

namespace Block

variable {b : Block} {target : Bytes} {compare : Bytes → Bytes → Ordering}

/-- The scan of `seek_by` finds what a linear search of the entries it reads finds. -/
theorem seekScan_of_reads {prevKey : Bytes} {offset : Nat} {entries : List (Bytes × Bytes)}
    (h : b.Reads prevKey offset entries) :
    b.seekScan target compare offset prevKey =
      .ok (entries.find? fun entry => compare entry.1 target != .lt) := by
  induction h with
  | nil => simp [seekScan]
  | @cons prevKey key value offset nextOff entries hlt hentry _ ih =>
    rw [seekScan_step hlt, hentry]
    dsimp only
    by_cases hbelow : compare key target = .lt
    · rw [if_neg (by simpa using hbelow), ih]
      simp [hbelow]
    · rw [if_pos hbelow]
      simp [hbelow]

/-- The scan of `seek_for_prev_by` finds the last of the entries it reads before the first one
above the target, or keeps the entry it had. -/
theorem seekForPrevScan_of_reads {prevKey : Bytes} {offset : Nat} {entries : List (Bytes × Bytes)}
    (h : b.Reads prevKey offset entries) (best : Option (Bytes × Bytes)) :
    b.seekForPrevScan target compare offset prevKey best =
      .ok (((entries.takeWhile fun entry => compare entry.1 target != .gt).getLast?).or best) := by
  induction h generalizing best with
  | nil => simp [seekForPrevScan]
  | @cons prevKey key value offset nextOff entries hlt hentry _ ih =>
    rw [seekForPrevScan_step hlt, hentry]
    dsimp only
    by_cases habove : compare key target = .gt
    · rw [if_neg (by simpa using habove)]
      simp [habove]
    · rw [if_pos habove, ih]
      simp only [List.takeWhile_cons, bne_iff_ne, ne_eq, habove, not_false_eq_true,
        ↓reduceIte, List.getLast?_cons, Option.some_or]
      cases (entries.takeWhile fun entry => compare entry.1 target != .gt).getLast? <;> rfl

theorem Reads.nil_iff {prevKey : Bytes} {offset : Nat} {entries : List (Bytes × Bytes)}
    (h : b.Reads prevKey offset entries) : entries = [] ↔ offset = b.restartOffset := by
  cases h with
  | nil => simp
  | cons hlt _ _ => simp only [reduceCtorEq, false_iff]; omega

theorem Reads.head {prevKey : Bytes} {offset : Nat} {entry : Bytes × Bytes}
    {entries : List (Bytes × Bytes)} (h : b.Reads prevKey offset (entry :: entries)) :
    ∃ nextOff, decodeEntryAt b.entryData offset prevKey = .ok (entry.1, entry.2, nextOff) := by
  cases h with
  | cons _ hentry _ => exact ⟨_, hentry⟩

/-- The restart points of a block over `entries`: reading from restart point `j`, after an empty
key, gives the entries from position `start j` on. The positions start at `0`, do not decrease,
and each is an entry when there are entries. -/
structure Restarts (b : Block) (entries : List (Bytes × Bytes)) (start : Nat → Nat) : Prop where
  start_zero : start 0 = 0
  start_mono : ∀ i j, i ≤ j → j < b.numRestarts → start i ≤ start j
  start_lt : entries ≠ [] → ∀ j, j < b.numRestarts → start j < entries.length
  reads : ∀ j, j < b.numRestarts → b.Reads [] (b.restartPoint j) (entries.drop (start j))

/-- The key of the entry at position `i`. -/
def keyAt (entries : List (Bytes × Bytes)) (i : Nat) : Bytes := (entries.getD i ([], [])).1

variable {entries : List (Bytes × Bytes)} {start : Nat → Nat}

/-- The restart search sees the key of the entry each restart point starts. -/
theorem searchRestarts_spec (hr : b.Restarts entries start) (hne : entries ≠ [])
    (below : Bytes → Bool)
    (hmono : ∀ i j, i ≤ j → j < b.numRestarts →
      below (keyAt entries (start j)) = true → below (keyAt entries (start i)) = true) :
    ∃ left, b.searchRestarts below = .ok left ∧ left ≤ b.numRestarts ∧
      (∀ j, j < left → below (keyAt entries (start j)) = true) ∧
      ∀ j, left ≤ j → j < b.numRestarts → below (keyAt entries (start j)) = false := by
  have htest : ∀ j, 0 ≤ j → j < b.numRestarts →
      (decodeEntryAt b.entryData (b.restartPoint j) []).map (fun entry => below entry.1) =
        .ok (below (keyAt entries (start j))) := by
    intro j _ hj
    have hlt := hr.start_lt hne j hj
    have hreads := hr.reads j hj
    rw [List.drop_eq_getElem_cons hlt] at hreads
    obtain ⟨nextOff, hentry⟩ := hreads.head
    rw [hentry, keyAt, List.getD_eq_getElem _ _ hlt]
    rfl
  obtain ⟨left, hleft, -, hle, hbelow, habove⟩ :=
    BinarySearch.search_spec (Nat.zero_le _) htest fun i j _ hij hj => hmono i j hij hj
  exact ⟨left, hleft, hle, fun j hj => hbelow j (Nat.zero_le j) hj, habove⟩

/-- The keys of sorted entries, at two positions in order. -/
theorem compare_keyAt [Std.TransCmp compare]
    (hsorted : entries.Pairwise fun a b => compare a.1 b.1 = .lt) {i j : Nat} (hij : i < j)
    (hj : j < entries.length) : compare (keyAt entries i) (keyAt entries j) = .lt := by
  rw [keyAt, keyAt, List.getD_eq_getElem _ _ (by omega), List.getD_eq_getElem _ _ hj]
  exact List.pairwise_iff_getElem.mp hsorted i j (by omega) hj hij

/-- At positions in order, a sorted key is below the target whenever the later one is. -/
theorem keyAt_lt_of_le [Std.TransCmp compare]
    (hsorted : entries.Pairwise fun a b => compare a.1 b.1 = .lt) {i j : Nat} (hij : i ≤ j)
    (hj : j < entries.length) (h : compare (keyAt entries j) target = .lt) :
    compare (keyAt entries i) target = .lt := by
  rcases Nat.lt_or_eq_of_le hij with hlt | rfl
  · exact Std.TransCmp.lt_trans (compare_keyAt hsorted hlt hj) h
  · exact h

/-- At positions in order, a sorted key is not above the target whenever the later one is not. -/
theorem keyAt_isLE_of_le [Std.TransCmp compare]
    (hsorted : entries.Pairwise fun a b => compare a.1 b.1 = .lt) {i j : Nat} (hij : i ≤ j)
    (hj : j < entries.length) (h : (compare (keyAt entries j) target).isLE) :
    (compare (keyAt entries i) target).isLE := by
  rcases Nat.lt_or_eq_of_le hij with hlt | rfl
  · exact Ordering.isLE_of_eq_lt (Std.TransCmp.lt_of_lt_of_isLE (compare_keyAt hsorted hlt hj) h)
  · exact h

/-- An entry before position `i` is at some position below `i`. -/
theorem exists_keyAt_of_mem_take {x : Bytes × Bytes} {i : Nat} (hx : x ∈ entries.take i) :
    ∃ k, k < i ∧ k < entries.length ∧ x.1 = keyAt entries k := by
  obtain ⟨k, hk, rfl⟩ := List.mem_iff_getElem.mp hx
  simp only [List.length_take] at hk
  refine ⟨k, by omega, by omega, ?_⟩
  rw [keyAt, List.getD_eq_getElem _ _ (by omega), List.getElem_take]

/-- **`seek_by` is a linear search**: on a block whose restart points start its entries and whose
keys increase under a lawful `compare`, it returns the first entry not below the target. -/
theorem seekBy_eq [Std.TransCmp compare]
    (hsorted : entries.Pairwise fun a b => compare a.1 b.1 = .lt) (hreads : b.Reads [] 0 entries)
    (hr : b.Restarts entries start) :
    b.seekBy target compare = .ok (entries.find? fun entry => compare entry.1 target != .lt) := by
  by_cases hempty : b.restartOffset = 0
  · have hnil : entries = [] := hreads.nil_iff.mpr hempty.symm
    simp [seekBy, hempty, hnil]
  have hne : entries ≠ [] := fun hnil => hempty (hreads.nil_iff.mp hnil).symm
  -- the search stops at the first restart point whose key is not below the target
  obtain ⟨left, hleft, hle, hbelow, -⟩ :=
    searchRestarts_spec hr hne (fun key => compare key target == .lt) fun i j hij hj h => by
      simpa using keyAt_lt_of_le hsorted (hr.start_mono i j hij hj) (hr.start_lt hne j hj)
        (by simpa using h)
  rw [seekBy, if_neg hempty, hleft, Except.ok_bind]
  by_cases hpos : left > 0
  · -- the scan starts at the restart point before it, and every entry before that is below
    rw [if_pos hpos, seekScan_of_reads (hr.reads (left - 1) (by omega))]
    congr 1
    have hlast : compare (keyAt entries (start (left - 1))) target = .lt := by
      simpa using hbelow (left - 1) (by omega)
    have htake : ((entries.take (start (left - 1))).find? fun entry =>
        compare entry.1 target != .lt) = none := by
      refine List.find?_eq_none.mpr fun x hx => ?_
      obtain ⟨k, hk, -, hkey⟩ := exists_keyAt_of_mem_take hx
      rw [hkey, keyAt_lt_of_le hsorted (Nat.le_of_lt hk) (hr.start_lt hne _ (by omega)) hlast]
      decide
    conv_rhs => rw [← List.take_append_drop (start (left - 1)) entries]
    rw [List.find?_append, htake, Option.none_or]
  · rw [if_neg hpos, seekScan_of_reads hreads]

/-- On sorted entries, the entries not above the target are a prefix of them. -/
theorem filter_not_above_eq_takeWhile [Std.TransCmp compare]
    (hsorted : entries.Pairwise fun a b => compare a.1 b.1 = .lt) :
    (entries.filter fun entry => compare entry.1 target != .gt) =
      entries.takeWhile fun entry => compare entry.1 target != .gt := by
  induction entries with
  | nil => rfl
  | cons e rest ih =>
    obtain ⟨hhead, htail⟩ := List.pairwise_cons.mp hsorted
    by_cases habove : compare e.1 target = .gt
    · -- every later key is above the target too
      rw [List.filter_cons_of_neg (by simpa using habove),
        List.takeWhile_cons_of_neg (by simpa using habove), List.filter_eq_nil_iff.mpr]
      intro x hx
      have hxabove : compare x.1 target = .gt :=
        Std.TransCmp.gt_trans (Std.OrientedCmp.gt_of_lt (hhead x hx)) habove
      simp [hxabove]
    · rw [List.filter_cons_of_pos (by simpa using habove),
        List.takeWhile_cons_of_pos (by simpa using habove), ih htail]

/-- **`seek_for_prev_by` is a linear search**: on a block whose restart points start its entries
and whose keys increase under a lawful `compare`, it returns the last entry not above the
target. -/
theorem seekForPrevBy_eq [Std.TransCmp compare]
    (hsorted : entries.Pairwise fun a b => compare a.1 b.1 = .lt) (hreads : b.Reads [] 0 entries)
    (hr : b.Restarts entries start) :
    b.seekForPrevBy target compare =
      .ok ((entries.filter fun entry => compare entry.1 target != .gt).getLast?) := by
  by_cases hempty : b.restartOffset = 0
  · have hnil : entries = [] := hreads.nil_iff.mpr hempty.symm
    simp [seekForPrevBy, hempty, hnil]
  have hne : entries ≠ [] := fun hnil => hempty (hreads.nil_iff.mp hnil).symm
  -- the search stops at the first restart point whose key is above the target
  obtain ⟨left, hleft, hle, hbelow, -⟩ :=
    searchRestarts_spec hr hne (fun key => compare key target != .gt) fun i j hij hj h => by
      have hj' : (compare (keyAt entries (start j)) target).isLE :=
        Ordering.isLE_iff_ne_gt.mpr (by simpa using h)
      simpa [Ordering.isLE_iff_ne_gt] using
        keyAt_isLE_of_le hsorted (hr.start_mono i j hij hj) (hr.start_lt hne j hj) hj'
  rw [seekForPrevBy, if_neg hempty, hleft, Except.ok_bind, filter_not_above_eq_takeWhile hsorted]
  by_cases hpos : left > 0
  · -- the scan starts at the last restart point not above the target, and every entry before
    -- that is not above it either
    rw [if_pos hpos, seekForPrevScan_of_reads (hr.reads (left - 1) (by omega)), Option.or_none]
    congr 1
    have hs := hr.start_lt hne (left - 1) (by omega)
    have hlast : (compare (keyAt entries (start (left - 1))) target).isLE :=
      Ordering.isLE_iff_ne_gt.mpr (by simpa using hbelow (left - 1) (by omega))
    have htake : ∀ x ∈ entries.take (start (left - 1)), (compare x.1 target != .gt) = true := by
      intro x hx
      obtain ⟨k, hk, -, hkey⟩ := exists_keyAt_of_mem_take hx
      rw [hkey]
      simpa [Ordering.isLE_iff_ne_gt] using keyAt_isLE_of_le hsorted (Nat.le_of_lt hk) hs hlast
    -- the entry at the restart point is not above the target, so the scan ends on an entry
    have hfirst : ((entries.drop (start (left - 1))).takeWhile fun entry =>
        compare entry.1 target != .gt) ≠ [] := by
      rw [List.drop_eq_getElem_cons hs, List.takeWhile_cons_of_pos]
      · exact List.cons_ne_nil _ _
      · rw [keyAt, List.getD_eq_getElem _ _ hs] at hlast
        simpa [Ordering.isLE_iff_ne_gt] using hlast
    obtain ⟨x, hx⟩ := Option.ne_none_iff_exists'.mp (mt List.getLast?_eq_none_iff.mp hfirst)
    conv_rhs => rw [← List.take_append_drop (start (left - 1)) entries]
    rw [List.takeWhile_append_of_pos htake, List.getLast?_append, hx, Option.some_or]
  · -- the scan starts at the first entry
    have hfrom := hr.reads 0 b.numRestarts_pos
    rw [hr.start_zero, List.drop_zero] at hfrom
    rw [if_neg hpos, seekForPrevScan_of_reads hfrom, Option.or_none]

end Block

end Mmdb
