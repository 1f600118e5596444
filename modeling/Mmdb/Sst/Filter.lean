import Mmdb.Sst.Format

/-!
# Bloom filters, and the filters of a table

`src/sst/filter.rs`. A filter is `bytes` zero bytes, each key setting `k` bits of them, then the
byte `k`. The bits of a key are found by double hashing: from `h = bloom_hash(key)` and
`δ = h.rotate_left(15)`, the positions `h, h + δ, h + 2δ, …` (wrapping `u32`s), each modulo
`bits = 8 · bytes`; position `p` is bit `p % 8` of byte `p / 8`.

With it, the filter part of `TableBuilder::add` (the hash of every user key, and the set of their
prefixes of `prefix_len` bytes), `write_filter_block` and `write_prefix_filter_block`, and the two
reader tests, the bloom test of `TableReader::get_internal_with_seq` and
`TableReader::prefix_may_match`.

**The law** (`keyMayMatch_of_mem_hashes`): a filter built from a list of hashes answers `true`
for every key whose hash is in the list. Setting bits only adds bits (`bitsLe_setProbes`), every
probe of a hash is set once its loop has run (`probesSet_setProbes`), and the probes never reach
the last byte, which keeps `k` (`getD_setProbes_of_le`).

**What it does not establish.** How the two filter blocks and the prefix length travel through
the file (`write_raw_block`, the meta-index, `read_block_data_with_size`) is not modelled: the
reader is given the bytes the builder wrote, with the prefix length the meta-index records beside
them. `BloomFilter::new` computes `k` with `f64` arithmetic, modelled with `Float`; only the
clamp of `k` to `1..=30` is used.
-/

namespace Mmdb

/-! ## Bits of a byte -/

namespace UInt8

/-- Or-ing bits into a byte keeps the bits it had. -/
theorem and_or_ne_zero {x y m : UInt8} (h : x &&& m ≠ 0) : (x ||| y) &&& m ≠ 0 := by
  intro h0
  apply h
  apply UInt8.toNat_inj.mp
  have hnat := congrArg UInt8.toNat h0
  rw [UInt8.toNat_and, UInt8.toNat_or, Nat.and_or_distrib_right, UInt8.toNat_zero] at hnat
  rw [UInt8.toNat_and, UInt8.toNat_zero]
  exact (Nat.or_eq_zero_iff.mp hnat).1

theorem one_shiftLeft_ne_zero (s : UInt8) : (1 : UInt8) <<< s ≠ 0 := by
  intro h
  have hnat := congrArg UInt8.toNat h
  have hlt : 2 ^ (s.toNat % 8) < 2 ^ 8 :=
    Nat.pow_lt_pow_right (by norm_num) (Nat.mod_lt _ (by norm_num))
  rw [UInt8.toNat_shiftLeft, UInt8.toNat_one, Nat.shiftLeft_eq, Nat.one_mul, Nat.mod_eq_of_lt hlt,
    UInt8.toNat_zero] at hnat
  exact absurd hnat (Nat.two_pow_pos _).ne'

end UInt8

/-! ## The filter -/

/-- `META_BLOCK_HARD_LIMIT`: the largest meta block the reader takes, 64 MiB less 4 KiB. -/
def metaBlockHardLimit : Nat := 64 * 1024 * 1024 - 4096

/-- `bloom_hash`'s multiplier. -/
def bloomHashM : UInt32 := 0x5bd1e995

/-- The 4-byte loop of `bloom_hash`: the hash after every whole chunk, and the bytes left. -/
def bloomHashChunks (h : UInt32) : Bytes → UInt32 × Bytes
  | b₀ :: b₁ :: b₂ :: b₃ :: rest =>
    let k := UInt32.ofNat (leValue [b₀, b₁, b₂, b₃]) * bloomHashM
    let k := (k ^^^ (k >>> 24)) * bloomHashM
    bloomHashChunks (h * bloomHashM ^^^ k) rest
  | rest => (h, rest)

/-- `bloom_hash`, MurmurHash2 as LevelDB's `BloomHash`. -/
def bloomHash (key : Bytes) : UInt32 :=
  let (h, rest) := bloomHashChunks (0xbc9f1d34 ^^^ UInt32.ofNat key.length) key
  let h := if rest.length ≥ 3 then h ^^^ ((rest.getD 2 0).toUInt32 <<< 16) else h
  let h := if rest.length ≥ 2 then h ^^^ ((rest.getD 1 0).toUInt32 <<< 8) else h
  let h := if rest.length ≥ 1 then (h ^^^ (rest.getD 0 0).toUInt32) * bloomHashM else h
  let h := h ^^^ (h >>> 13)
  let h := h * bloomHashM
  h ^^^ (h >>> 15)

/-- `BloomFilter`: bits per key and the number of probes, which `new` clamps to `1..=30`. -/
structure BloomFilter where
  bitsPerKey : UInt32
  k : Nat
  k_le : k ≤ 30

namespace BloomFilter

/-- `MAX_FILTER_BYTES`: the largest payload whose bit count is a `u32`. -/
def maxFilterBytes : Nat := (2 ^ 32 - 1) / 8

/-- `BloomFilter::new`: `k = round(bits_per_key · ln 2)` in `f64`, clamped to `1..=30`. -/
def new (bitsPerKey : UInt32) : BloomFilter :=
  let k := (Float.ofNat bitsPerKey.toNat * 0.6931471805599453).round.toUInt32.toNat
  ⟨bitsPerKey, max 1 (min k 30), by omega⟩

/-- `projected_size`: at least 64 bits, at most `MAX_FILTER_BYTES`, and the byte of `k`. -/
def projectedSize (keyCount : Nat) (bitsPerKey : UInt32) : Nat :=
  let bits := max (min (keyCount * bitsPerKey.toNat) u64Max) 64
  min ((bits + 7) / 8) maxFilterBytes + 1

/-- `checked_size`. -/
def checkedSize (label : String) (keyCount : Nat) (bitsPerKey : UInt32) : Result Nat :=
  let projected := projectedSize keyCount bitsPerKey
  if projected > metaBlockHardLimit then
    .error (.invalidArgument
      s!"{label} block size {projected} would exceed maximum readable block size {metaBlockHardLimit}")
  else .ok projected

/-- `u32::rotate_left(15)`. -/
def rotateLeft15 (x : UInt32) : UInt32 := (x <<< 15) ||| (x >>> 17)

/-- The mask of bit position `bitPos` in its byte, `1 << (bitPos % 8)`. -/
def bitMask (bitPos : UInt32) : UInt8 := 1 <<< (bitPos % 8).toUInt8

/-- The probe loop of `create_filter_from_hashes` for one hash: `n` positions from `h` on,
`delta` apart, each modulo `bits`, set. -/
def setProbes (bits delta : UInt32) : Nat → UInt32 → Bytes → Bytes
  | 0, _, filter => filter
  | n + 1, h, filter =>
    let bitPos := h % bits
    setProbes bits delta n (h + delta) (filter.modify (bitPos / 8).toNat (· ||| bitMask bitPos))

/-- `create_filter_from_hashes`. -/
def createFilterFromHashes (bf : BloomFilter) (hashes : List UInt32) : Result Bytes := do
  let filterSize ← checkedSize "bloom filter" hashes.length bf.bitsPerKey
  let bytes := filterSize - 1
  let bits := UInt32.ofNat bytes * 8
  let filter := List.replicate bytes 0 ++ [UInt8.ofNat bf.k]
  pure (hashes.foldl (fun filter hash => setProbes bits (rotateLeft15 hash) bf.k hash filter) filter)

/-- `create_filter`. -/
def createFilter (bf : BloomFilter) (keys : List Bytes) : Result Bytes :=
  bf.createFilterFromHashes (keys.map bloomHash)

/-- The probe loop of `key_may_match`: `false` at the first position whose bit is clear. -/
def probesSet (filter : Bytes) (bits delta : UInt32) : Nat → UInt32 → Bool
  | 0, _ => true
  | n + 1, h =>
    let bitPos := h % bits
    if filter.getD (bitPos / 8).toNat 0 &&& bitMask bitPos = 0 then false
    else probesSet filter bits delta n (h + delta)

/-- `key_may_match`. A filter too short to hold a bit, or with more than 30 probes, lets every
key through. -/
def keyMayMatch (key filter : Bytes) : Bool :=
  if filter.length < 2 then true
  else
    let k := (filter.getLast?.getD 0).toNat
    if k > 30 then true
    else
      let bits := UInt32.ofNat ((filter.length - 1) * 8)
      let h := bloomHash key
      probesSet filter bits (rotateLeft15 h) k h

/-! ## Setting bits -/

/-- Every bit set in `f` is set in `f'`. -/
def BitsLe (f f' : Bytes) : Prop := ∀ i (m : UInt8), f.getD i 0 &&& m ≠ 0 → f'.getD i 0 &&& m ≠ 0

theorem bitsLe_refl (f : Bytes) : BitsLe f f := fun _ _ h => h

theorem BitsLe.trans {f f' f'' : Bytes} (h : BitsLe f f') (h' : BitsLe f' f'') : BitsLe f f'' :=
  fun i m hset => h' i m (h i m hset)

theorem getD_modify_or (f : Bytes) (i j : Nat) (m : UInt8) :
    (f.modify i (· ||| m)).getD j 0 = if i = j ∧ j < f.length then f.getD j 0 ||| m else f.getD j 0 := by
  rw [List.getD_eq_getElem?_getD, List.getElem?_modify, List.getD_eq_getElem?_getD]
  by_cases hj : j < f.length
  · rw [List.getElem?_eq_getElem hj]
    by_cases hij : i = j <;> simp [hij, hj]
  · rw [List.getElem?_eq_none (by omega)]
    simp [hj]

/-- Or-ing a mask into a byte keeps every bit. -/
theorem bitsLe_modify (f : Bytes) (i : Nat) (m : UInt8) : BitsLe f (f.modify i (· ||| m)) := by
  intro j m' hset
  rw [getD_modify_or]
  split
  · exact UInt8.and_or_ne_zero hset
  · exact hset

variable {bits delta : UInt32}

/-- A probe position lies inside the `bits` the loop works on: its byte is one of the first
`bits / 8`. -/
theorem byte_lt_of_mod {h : UInt32} {n : Nat} (hbits : 0 < bits.toNat)
    (hlen : bits.toNat ≤ n * 8) : ((h % bits) / 8).toNat < n := by
  have hmod : (h % bits).toNat < bits.toNat := by
    rw [UInt32.toNat_mod]
    exact Nat.mod_lt _ hbits
  rw [UInt32.toNat_div]
  change (h % bits).toNat / 8 < n
  omega

theorem length_setProbes (n : Nat) (h : UInt32) (f : Bytes) :
    (setProbes bits delta n h f).length = f.length := by
  induction n generalizing h f with
  | zero => rfl
  | succ n ih => rw [setProbes, ih, List.length_modify]

/-- The loop only adds bits. -/
theorem bitsLe_setProbes (n : Nat) (h : UInt32) (f : Bytes) :
    BitsLe f (setProbes bits delta n h f) := by
  induction n generalizing h f with
  | zero => exact bitsLe_refl f
  | succ n ih => exact (bitsLe_modify _ _ _).trans (ih _ _)

/-- The loop leaves the bytes from `bits / 8` on as they were: the byte of `k` among them. -/
theorem getD_setProbes_of_le (hbits : 0 < bits.toNat) {i : Nat} (hi : bits.toNat ≤ i * 8)
    (n : Nat) (h : UInt32) (f : Bytes) : (setProbes bits delta n h f).getD i 0 = f.getD i 0 := by
  induction n generalizing h f with
  | zero => rfl
  | succ n ih =>
    rw [setProbes, ih, getD_modify_or, if_neg]
    rintro ⟨heq, -⟩
    have := byte_lt_of_mod (h := h) hbits hi
    omega

/-- A test over more bits passes where it passed. -/
theorem probesSet_of_bitsLe {f f' : Bytes} (hle : BitsLe f f') (n : Nat) (h : UInt32)
    (hset : probesSet f bits delta n h = true) : probesSet f' bits delta n h = true := by
  induction n generalizing h with
  | zero => rfl
  | succ n ih =>
    rw [probesSet] at hset ⊢
    split at hset
    · cases hset
    · rename_i hbit
      rw [if_neg (hle _ _ hbit)]
      exact ih _ hset

/-- **Every probe is set** after the loop has run over it. -/
theorem probesSet_setProbes (hbits : 0 < bits.toNat) (n : Nat) (h : UInt32) (f : Bytes)
    (hlen : bits.toNat ≤ f.length * 8) :
    probesSet (setProbes bits delta n h f) bits delta n h = true := by
  induction n generalizing h f with
  | zero => rfl
  | succ n ih =>
    have hbyte := byte_lt_of_mod (h := h) hbits hlen
    -- the first probe is set now, and stays set through the rest of the loop
    have hfirst : (f.modify ((h % bits) / 8).toNat (· ||| bitMask (h % bits))).getD
        ((h % bits) / 8).toNat 0 &&& bitMask (h % bits) ≠ 0 := by
      rw [getD_modify_or, if_pos ⟨rfl, hbyte⟩, UInt8.or_comm]
      apply UInt8.and_or_ne_zero
      rw [UInt8.and_self]
      exact UInt8.one_shiftLeft_ne_zero _
    rw [setProbes, probesSet, if_neg (bitsLe_setProbes _ _ _ _ _ hfirst)]
    exact ih _ _ (by rw [List.length_modify]; exact hlen)

/-! ## Filters built from hashes -/

/-- One hash's loop, as `create_filter_from_hashes` runs it. -/
def addHash (bits : UInt32) (k : Nat) (filter : Bytes) (hash : UInt32) : Bytes :=
  setProbes bits (rotateLeft15 hash) k hash filter

/-- The loop over the hashes only adds bits. -/
theorem bitsLe_foldl_addHash {k : Nat} (hashes : List UInt32) (f : Bytes) :
    BitsLe f (hashes.foldl (addHash bits k) f) := by
  induction hashes generalizing f with
  | nil => exact bitsLe_refl f
  | cons hash hashes ih => exact (bitsLe_setProbes _ _ _).trans (ih _)

section Hashes

variable {k : Nat} (hbits : 0 < bits.toNat)
include hbits

/-- The loop over the hashes keeps the length, and the bytes from `bits / 8` on. -/
theorem foldl_addHash_frame (hashes : List UInt32) (f : Bytes) :
    (hashes.foldl (addHash bits k) f).length = f.length ∧
      ∀ i, bits.toNat ≤ i * 8 → (hashes.foldl (addHash bits k) f).getD i 0 = f.getD i 0 := by
  induction hashes generalizing f with
  | nil => exact ⟨rfl, fun _ _ => rfl⟩
  | cons hash hashes ih =>
    obtain ⟨hlen, hbytes⟩ := ih (addHash bits k f hash)
    refine ⟨by rw [List.foldl_cons, hlen, addHash, length_setProbes], fun i hi => ?_⟩
    rw [List.foldl_cons, hbytes i hi, addHash, getD_setProbes_of_le hbits hi]

/-- **Every hash's probes are set** when the loop over the hashes ends. -/
theorem probesSet_foldl_addHash (hashes : List UInt32) (f : Bytes) (hlen : bits.toNat ≤ f.length * 8)
    {hash : UInt32} (hmem : hash ∈ hashes) :
    probesSet (hashes.foldl (addHash bits k) f) bits (rotateLeft15 hash) k hash = true := by
  induction hashes generalizing f with
  | nil => cases hmem
  | cons hash' hashes ih =>
    have hlen' : bits.toNat ≤ (addHash bits k f hash').length * 8 := by
      rw [addHash, length_setProbes]
      exact hlen
    rw [List.foldl_cons]
    rcases List.mem_cons.mp hmem with rfl | hmem
    · -- the hash's own loop sets its probes, and the later loops keep them
      exact probesSet_of_bitsLe (bitsLe_foldl_addHash _ _) _ _
        (probesSet_setProbes hbits _ _ _ hlen)
    · exact ih _ hlen' hmem

end Hashes

/-- A size that `checked_size` accepts holds the 64 bits and the byte of `k` at least, and
`MAX_FILTER_BYTES` and that byte at most. -/
theorem checkedSize_eq_ok {label : String} {keyCount size : Nat} {bitsPerKey : UInt32}
    (h : checkedSize label keyCount bitsPerKey = .ok size) :
    size = projectedSize keyCount bitsPerKey ∧ 9 ≤ size ∧ size ≤ maxFilterBytes + 1 := by
  rw [checkedSize] at h
  split at h
  · cases h
  · cases h
    refine ⟨rfl, ?_, ?_⟩ <;> simp only [projectedSize, maxFilterBytes, u64Max] <;> omega

/-- What `create_filter_from_hashes` returns: `bytes` zero bytes and the byte of `k`, with the
probes of every hash set. -/
theorem createFilterFromHashes_eq_ok {bf : BloomFilter} {hashes : List UInt32} {filter : Bytes}
    (h : bf.createFilterFromHashes hashes = .ok filter) :
    ∃ bytes, 8 ≤ bytes ∧ bytes ≤ maxFilterBytes ∧
      filter = hashes.foldl (addHash (UInt32.ofNat bytes * 8) bf.k)
        (List.replicate bytes 0 ++ [UInt8.ofNat bf.k]) := by
  rw [createFilterFromHashes] at h
  obtain ⟨size, hsize, h⟩ := Except.bind_eq_ok.mp h
  obtain ⟨-, hlo, hhi⟩ := checkedSize_eq_ok hsize
  simp only [Except.pure_eq_ok, Except.ok.injEq] at h
  exact ⟨size - 1, by omega, by omega, h.symm⟩

/-- **No false negatives**: a filter built from a list of hashes lets through every key whose
hash is in the list. -/
theorem keyMayMatch_of_mem_hashes {bf : BloomFilter} {hashes : List UInt32} {filter key : Bytes}
    (h : bf.createFilterFromHashes hashes = .ok filter) (hmem : bloomHash key ∈ hashes) :
    keyMayMatch key filter = true := by
  obtain ⟨bytes, hlo, hhi, rfl⟩ := createFilterFromHashes_eq_ok h
  -- the writer's bit count is a `u32` without wrapping
  have hbits : (UInt32.ofNat bytes * 8).toNat = bytes * 8 := by
    simp only [maxFilterBytes] at hhi
    rw [UInt32.toNat_mul, UInt32.toNat_ofNat']
    change bytes % 2 ^ 32 * 8 % 2 ^ 32 = bytes * 8
    rw [Nat.mod_eq_of_lt (by omega), Nat.mod_eq_of_lt (by omega)]
  have hpos : 0 < (UInt32.ofNat bytes * 8).toNat := by omega
  obtain ⟨hlen, hbytes⟩ := foldl_addHash_frame (k := bf.k) hpos hashes
    (List.replicate bytes 0 ++ [UInt8.ofNat bf.k])
  simp only [List.length_append, List.length_replicate, List.length_singleton] at hlen
  -- the last byte is `k`, which the probes never reach
  have hlast : (hashes.foldl (addHash (UInt32.ofNat bytes * 8) bf.k)
      (List.replicate bytes 0 ++ [UInt8.ofNat bf.k])).getLast?.getD 0 = UInt8.ofNat bf.k := by
    rw [List.getLast?_eq_getElem?, hlen, Nat.add_sub_cancel, ← List.getD_eq_getElem?_getD,
      hbytes bytes (by omega), List.getD_append_right _ _ _ _ (by simp)]
    simp
  have hk : (UInt8.ofNat bf.k).toNat = bf.k := by
    rw [UInt8.toNat_ofNat', Nat.mod_eq_of_lt (by have := bf.k_le; omega)]
  rw [keyMayMatch, if_neg (by omega)]
  dsimp only
  rw [hlast, hk, if_neg (by have := bf.k_le; omega), hlen, Nat.add_sub_cancel, UInt32.ofNat_mul]
  exact probesSet_foldl_addHash hpos hashes _ (by simp [hbits]) hmem

end BloomFilter

/-! ## The filters of a table -/

/-- The fields of `TableBuildOptions` the filters read. -/
structure TableBuildOptions where
  bloomBitsPerKey : UInt32
  prefixLen : Nat
  internalKeys : Bool

/-- What `TableBuilder` keeps for its filters: `filter_key_hashes`, and `prefix_set` (a
`HashSet`, here a list without repeats). -/
structure FilterKeys where
  filterKeyHashes : List UInt32
  prefixSet : List Bytes

/-- The key the filters see, `user_key_for_bloom`: the user key of an internal key. -/
def userKeyForBloom (opts : TableBuildOptions) (key : Bytes) : Bytes :=
  if opts.internalKeys then userKey key else key

/-- The filter part of `TableBuilder::add` for a key that goes to a data block: the two size
checks, the hash of the user key and its prefix. -/
def FilterKeys.add (opts : TableBuildOptions) (fk : FilterKeys) (key : Bytes) :
    Result FilterKeys := do
  let userKey := userKeyForBloom opts key
  if opts.bloomBitsPerKey = 0 then return fk
  let _ ← BloomFilter.checkedSize "bloom filter" (fk.filterKeyHashes.length + 1) opts.bloomBitsPerKey
  let withPrefix := decide (opts.prefixLen > 0 ∧ userKey.length ≥ opts.prefixLen)
  if withPrefix then
    let prefixCount :=
      fk.prefixSet.length + if userKey.take opts.prefixLen ∈ fk.prefixSet then 0 else 1
    let _ ← BloomFilter.checkedSize "prefix bloom filter" prefixCount opts.bloomBitsPerKey
  pure ⟨fk.filterKeyHashes ++ [bloomHash userKey],
    if withPrefix then fk.prefixSet.insert (userKey.take opts.prefixLen) else fk.prefixSet⟩

/-- `write_filter_block`, up to the write: the filter it writes, if any. -/
def writeFilterBlock (opts : TableBuildOptions) (fk : FilterKeys) : Result (Option Bytes) :=
  if opts.bloomBitsPerKey = 0 ∨ fk.filterKeyHashes = [] then .ok none
  else some <$> (BloomFilter.new opts.bloomBitsPerKey).createFilterFromHashes fk.filterKeyHashes

/-- `write_prefix_filter_block`, up to the write: the filter of the sorted prefixes, if any. -/
def writePrefixFilterBlock (opts : TableBuildOptions) (fk : FilterKeys) :
    Result (Option Bytes) := do
  if opts.prefixLen = 0 ∨ opts.bloomBitsPerKey = 0 ∨ fk.prefixSet = [] then return none
  let _ ← BloomFilter.checkedSize "prefix bloom filter" fk.prefixSet.length opts.bloomBitsPerKey
  let prefixes := fk.prefixSet.mergeSort fun a b => decide (a ≤ b)
  let filter ← (BloomFilter.new opts.bloomBitsPerKey).createFilter prefixes
  pure (some filter)

/-- The bloom test of `TableReader::get_internal_with_seq`: a table without a filter is read. -/
def filterMayMatch (filterData : Option Bytes) (userKey : Bytes) : Bool :=
  match filterData with
  | some filter => BloomFilter.keyMayMatch userKey filter
  | none => true

/-- `TableReader::prefix_may_match`. -/
def prefixMayMatch (prefixFilterData : Option Bytes) (prefixFilterLen : Option Nat)
    (keyPrefix : Bytes) : Bool :=
  match prefixFilterData, prefixFilterLen with
  | some filter, some prefixLen =>
    if prefixLen > 0 ∧ keyPrefix.length ≥ prefixLen then
      BloomFilter.keyMayMatch (keyPrefix.take prefixLen) filter
    else true
  | _, _ => true

section Collect

variable {opts : TableBuildOptions} {fk fk' : FilterKeys} {key : Bytes}

theorem add_of_bloom_zero (hzero : opts.bloomBitsPerKey = 0) (h : fk.add opts key = .ok fk') :
    fk' = fk := by
  rw [FilterKeys.add, if_pos hzero] at h
  exact (Except.ok.inj h).symm

/-- What the filter part of `add` keeps when the filters are on: the hash of the key after the
others, the prefixes it had, and the key's prefix. -/
theorem add_of_bloom_pos (hpos : opts.bloomBitsPerKey ≠ 0) (h : fk.add opts key = .ok fk') :
    fk'.filterKeyHashes = fk.filterKeyHashes ++ [bloomHash (userKeyForBloom opts key)] ∧
      (∀ p ∈ fk.prefixSet, p ∈ fk'.prefixSet) ∧
      (0 < opts.prefixLen → opts.prefixLen ≤ (userKeyForBloom opts key).length →
        (userKeyForBloom opts key).take opts.prefixLen ∈ fk'.prefixSet) := by
  rw [FilterKeys.add, if_neg hpos] at h
  obtain ⟨_, -, h⟩ := Except.bind_eq_ok.mp h
  dsimp only at h
  by_cases hwith : opts.prefixLen > 0 ∧ (userKeyForBloom opts key).length ≥ opts.prefixLen
  · -- the prefix check passed, and the prefix joined the set
    simp only [decide_eq_true hwith, ↓reduceIte] at h
    obtain ⟨_, -, h⟩ := Except.bind_eq_ok.mp h
    cases h
    exact ⟨rfl, fun p hp => List.mem_insert_iff.mpr (.inr hp),
      fun _ _ => List.mem_insert_iff.mpr (.inl rfl)⟩
  · simp only [decide_eq_false hwith, Bool.false_eq_true, ↓reduceIte] at h
    cases h
    exact ⟨rfl, fun p hp => hp, fun hlen hle => absurd ⟨hlen, hle⟩ hwith⟩

/-- **What a run of `add` collects**: with the filters on, the hash of every key in order, and
the prefix of every key long enough to have one. -/
theorem foldlM_add_of_bloom_pos (hpos : opts.bloomBitsPerKey ≠ 0) (keys : List Bytes) :
    ∀ fk₀ fk : FilterKeys, keys.foldlM (FilterKeys.add opts) fk₀ = .ok fk →
      fk.filterKeyHashes =
          fk₀.filterKeyHashes ++ keys.map (fun key => bloomHash (userKeyForBloom opts key)) ∧
        (∀ p ∈ fk₀.prefixSet, p ∈ fk.prefixSet) ∧
        ∀ key ∈ keys, 0 < opts.prefixLen → opts.prefixLen ≤ (userKeyForBloom opts key).length →
          (userKeyForBloom opts key).take opts.prefixLen ∈ fk.prefixSet := by
  induction keys with
  | nil =>
    intro fk₀ fk h
    cases h
    exact ⟨by simp, fun _ hp => hp, fun _ hkey => by cases hkey⟩
  | cons key keys ih =>
    intro fk₀ fk h
    obtain ⟨fk₁, h₁, h⟩ := Except.foldlM_cons_eq_ok.mp h
    obtain ⟨hhash₁, hkeep₁, hpfx₁⟩ := add_of_bloom_pos hpos h₁
    obtain ⟨hhash, hkeep, hpfxBlock⟩ := ih fk₁ fk h
    refine ⟨by rw [hhash, hhash₁, List.map_cons, List.append_assoc, List.singleton_append],
      fun p hp => hkeep p (hkeep₁ p hp), fun key' hkey' hlen hle => ?_⟩
    rcases List.mem_cons.mp hkey' with rfl | hkey'
    · exact hkeep _ (hpfx₁ hlen hle)
    · exact hpfxBlock key' hkey' hlen hle

theorem foldlM_add_of_bloom_zero (hzero : opts.bloomBitsPerKey = 0) (keys : List Bytes) :
    ∀ fk₀ fk : FilterKeys, keys.foldlM (FilterKeys.add opts) fk₀ = .ok fk → fk = fk₀ := by
  induction keys with
  | nil =>
    intro fk₀ fk h
    cases h
    rfl
  | cons key keys ih =>
    intro fk₀ fk h
    obtain ⟨fk₁, h₁, h⟩ := Except.foldlM_cons_eq_ok.mp h
    rw [ih fk₁ fk h, add_of_bloom_zero hzero h₁]

/-- A prefix at least `n` long of a key starts the same `n` bytes as the key. -/
theorem take_eq_of_prefix_of_le {p key : Bytes} {n : Nat} (hp : p <+: key) (hn : n ≤ p.length) :
    p.take n = key.take n := by
  obtain ⟨rest, rfl⟩ := hp
  rw [List.take_append_of_le_length hn]

end Collect

/-- **Bloom filters have no false negatives**: a filter built from keys lets each of them
through, and building it from the keys' hashes builds the same bytes. In a table, the bloom test
of a read lets through the user key of every key added to a data block, and the prefix test of a
scan every prefix of one. -/
theorem bloom_no_false_negatives :
    (∀ (bitsPerKey : UInt32) (keys : List Bytes) (filter : Bytes),
      (BloomFilter.new bitsPerKey).createFilter keys = .ok filter →
        ∀ key ∈ keys, BloomFilter.keyMayMatch key filter = true) ∧
    (∀ (bitsPerKey : UInt32) (keys : List Bytes),
      (BloomFilter.new bitsPerKey).createFilterFromHashes (keys.map bloomHash) =
        (BloomFilter.new bitsPerKey).createFilter keys) ∧
    ∀ (opts : TableBuildOptions) (keys : List Bytes) (fk : FilterKeys),
      keys.foldlM (FilterKeys.add opts) ⟨[], []⟩ = .ok fk →
      ∀ bloom prefixFilter : Option Bytes, writeFilterBlock opts fk = .ok bloom →
        writePrefixFilterBlock opts fk = .ok prefixFilter →
        ∀ key ∈ keys, filterMayMatch bloom (userKeyForBloom opts key) = true ∧
          ∀ p : Bytes, p <+: userKeyForBloom opts key →
            prefixMayMatch prefixFilter (prefixFilter.map fun _ => opts.prefixLen) p = true := by
  refine ⟨fun bitsPerKey keys filter h key hkey =>
    BloomFilter.keyMayMatch_of_mem_hashes h (List.mem_map_of_mem hkey), fun _ _ => rfl, ?_⟩
  intro opts keys fk hrun bloom prefixFilter hbloom hpfxBlock key hkey
  by_cases hzero : opts.bloomBitsPerKey = 0
  · -- no filter is written, and the reader lets everything through
    obtain rfl := foldlM_add_of_bloom_zero hzero keys _ _ hrun
    rw [writeFilterBlock, if_pos (.inl hzero)] at hbloom
    rw [writePrefixFilterBlock, if_pos (.inr (.inl hzero))] at hpfxBlock
    cases hbloom
    cases hpfxBlock
    exact ⟨rfl, fun _ _ => rfl⟩
  obtain ⟨hhashes, -, hprefixes⟩ := foldlM_add_of_bloom_pos hzero keys _ _ hrun
  refine ⟨?_, fun p hp => ?_⟩
  · -- the bloom filter holds the hash of the key
    rw [writeFilterBlock] at hbloom
    split at hbloom
    · cases hbloom
      rfl
    cases hfilter : (BloomFilter.new opts.bloomBitsPerKey).createFilterFromHashes
      fk.filterKeyHashes with
    | error e =>
      rw [hfilter] at hbloom
      cases hbloom
    | ok filter =>
      rw [hfilter] at hbloom
      cases hbloom
      refine BloomFilter.keyMayMatch_of_mem_hashes hfilter ?_
      rw [hhashes]
      exact List.mem_append_right _ (List.mem_map_of_mem hkey)
  · -- the prefix filter holds the prefix of the key, which a long enough prefix starts with
    rw [writePrefixFilterBlock] at hpfxBlock
    split at hpfxBlock
    · cases hpfxBlock
      rfl
    obtain ⟨_, -, hpfxBlock⟩ := Except.bind_eq_ok.mp hpfxBlock
    obtain ⟨filter, hfilter, hpfxBlock⟩ := Except.bind_eq_ok.mp hpfxBlock
    cases hpfxBlock
    rw [Option.map_some, prefixMayMatch]
    split
    · rename_i hlong
      have hkeyLong : opts.prefixLen ≤ (userKeyForBloom opts key).length :=
        le_trans hlong.2 hp.length_le
      rw [take_eq_of_prefix_of_le hp hlong.2]
      exact BloomFilter.keyMayMatch_of_mem_hashes hfilter (List.mem_map_of_mem
        (List.mem_mergeSort.mpr (hprefixes key hkey hlong.1 hkeyLong)))
    · rfl

theorem bloom_no_false_negatives_sample :
    BloomFilter.keyMayMatch [0x61] (BloomFilter.addHash (UInt32.ofNat 8 * 8)
      (BloomFilter.new 10).k (List.replicate 8 0 ++ [UInt8.ofNat (BloomFilter.new 10).k])
      (bloomHash [0x61])) = true ∧
    prefixMayMatch (some (BloomFilter.addHash (UInt32.ofNat 8 * 8) (BloomFilter.new 10).k
        (List.replicate 8 0 ++ [UInt8.ofNat (BloomFilter.new 10).k]) (bloomHash [0x61])))
      (some 1) [0x61] = true :=
  ⟨bloom_no_false_negatives.1 10 [[0x61]] _ rfl [0x61] (List.mem_singleton_self _),
    (bloom_no_false_negatives.2.2 ⟨10, 1, false⟩ [[0x61, 0x62]]
      ⟨[bloomHash [0x61, 0x62]], [[0x61]]⟩ rfl
      (some (BloomFilter.addHash (UInt32.ofNat 8 * 8) (BloomFilter.new 10).k
        (List.replicate 8 0 ++ [UInt8.ofNat (BloomFilter.new 10).k]) (bloomHash [0x61, 0x62])))
      (some (BloomFilter.addHash (UInt32.ofNat 8 * 8) (BloomFilter.new 10).k
        (List.replicate 8 0 ++ [UInt8.ofNat (BloomFilter.new 10).k]) (bloomHash [0x61])))
      rfl (by rw [writePrefixFilterBlock, if_neg (by decide), List.mergeSort_singleton]; rfl)
      [0x61, 0x62] (List.mem_singleton_self _)).2 [0x61] ⟨[0x62], rfl⟩⟩

end Mmdb
