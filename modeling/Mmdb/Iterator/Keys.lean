import Mmdb.Iterator.Merge
import Mmdb.Lib.ByteOrder

/-!
# What the order of internal keys says

`compare_internal_key` compares user keys, then the 8-byte trailers bytewise. The trailer is
`u64::MAX - ((seq << 8) | type)` in big-endian, so bytewise it compares as that number, and the
comparison of trailers is the reverse comparison of `(seq << 8) | type`: the number
`trailerNum` reads back, and `decode_internal_key` splits.

**The order law** (`compareInternalKey_of_length`): two keys with trailers compare by user key,
then by `trailerNum` descending. From it, for the merged stream of the iterators:

a stream in internal-key order is in user-key order (`Entry.userKey_le_of_le`), and within one
user key in descending sequence order (`Entry.seq_le_of_le`): the newest version comes first.

The stream of a `MergingIterator` is in internal-key order (`MergingIterator.pairwise_new`):
the model merges by a stable sort under the comparator.
-/

namespace Mmdb

/-! ## The trailer as a number -/

/-- The number the last eight bytes of a key spell back: the `(seq << 8) | type` that
`decode_internal_key` splits. -/
def trailerNum (k : Bytes) : Nat := u64Max - fromBeBytes8 (k.drop (k.length - 8))

theorem beValue_toBeBytes8 (x : Nat) : (toBeBytes8 x).beValue = x % 2 ^ 64 := by
  have hbytes : toBeBytes8 x = (List.range 8).reverse.map fun i => UInt8.ofNat (x >>> (8 * i)) :=
    rfl
  rw [hbytes, List.beValue_map_shiftRight]

theorem length_toBeBytes8 (x : Nat) : (toBeBytes8 x).length = 8 := rfl

/-- The last eight bytes of a key as the big-endian number they spell. -/
theorem fromBeBytes8_drop {k : Bytes} (h : 8 ≤ k.length) :
    fromBeBytes8 (k.drop (k.length - 8)) = (k.drop (k.length - 8)).beValue := by
  rw [fromBeBytes8, List.take_of_length_le (by simp; omega)]
  rfl

theorem beValue_drop_le {k : Bytes} (h : 8 ≤ k.length) :
    (k.drop (k.length - 8)).beValue ≤ u64Max := by
  have hlt := List.beValue_lt (k.drop (k.length - 8))
  have hlen : (k.drop (k.length - 8)).length = 8 := by simp; omega
  rw [hlen] at hlt
  unfold u64Max
  omega

theorem trailerNum_le (k : Bytes) : trailerNum k ≤ u64Max := Nat.sub_le _ _

/-- **The order law**: keys with trailers compare by user key, then by `trailerNum`
descending. -/
theorem compareInternalKey_of_length {a b : Bytes} (ha : 8 ≤ a.length) (hb : 8 ≤ b.length) :
    compareInternalKey a b =
      (compare (userKey a) (userKey b)).then (compare (trailerNum b) (trailerNum a)) := by
  have hlen : (a.drop (a.length - 8)).length = (b.drop (b.length - 8)).length := by simp; omega
  have htrailer : compare (a.drop (a.length - 8)) (b.drop (b.length - 8)) =
      compare (trailerNum b) (trailerNum a) := by
    rw [List.compare_eq_compare_beValue hlen, trailerNum, trailerNum, fromBeBytes8_drop ha,
      fromBeBytes8_drop hb, Nat.compare_sub_sub (beValue_drop_le hb) (beValue_drop_le ha)]
  simp only [compareInternalKey, decide_eq_true ha, decide_eq_true hb, userKey, if_pos ha,
    if_pos hb, htrailer]

theorem ValueType.toNat_toU8_le (vt : ValueType) : vt.toU8.toNat ≤ 2 := by
  cases vt <;> decide

theorem ValueType.toU8_of_fromU8 {v : UInt8} {vt : ValueType} (h : ValueType.fromU8 v = some vt) :
    vt.toU8 = v := by
  unfold ValueType.fromU8 at h
  split_ifs at h <;> cases h <;> simp_all [ValueType.toU8]

theorem packSequenceAndType_le {seq : Nat} (h : seq ≤ maxSequenceNumber)
    (vt : ValueType) : packSequenceAndType seq vt ≤ u64Max := by
  have hvt := vt.toNat_toU8_le
  unfold packSequenceAndType u64Max
  unfold maxSequenceNumber at h
  omega

@[simp] theorem length_internalKey (t : Bytes) (seq : SequenceNumber) (vt : ValueType) :
    (InternalKey.new t seq vt).encoded.length = t.length + 8 := by
  simp [InternalKey.new, length_toBeBytes8]

@[simp] theorem userKey_internalKey (t : Bytes) (seq : SequenceNumber) (vt : ValueType) :
    userKey (InternalKey.new t seq vt).encoded = t := by
  simp [userKey, InternalKey.new, length_toBeBytes8]

theorem trailerNum_internalKey (t : Bytes) {seq : Nat} (h : seq ≤ maxSequenceNumber)
    (vt : ValueType) :
    trailerNum (InternalKey.new t seq vt).encoded = packSequenceAndType seq vt := by
  have hle := packSequenceAndType_le h vt
  have hdrop : (InternalKey.new t seq vt).encoded.drop
      ((InternalKey.new t seq vt).encoded.length - 8) =
      toBeBytes8 (u64Max - packSequenceAndType seq vt) := by
    simp [InternalKey.new, length_toBeBytes8]
  rw [trailerNum, hdrop, fromBeBytes8, List.take_of_length_le (by rw [length_toBeBytes8])]
  change u64Max - (toBeBytes8 _).beValue = _
  rw [beValue_toBeBytes8, Nat.mod_eq_of_lt (by unfold u64Max at hle ⊢; omega)]
  omega

/-! ## The encoding realises the logical order

The trailer of `InternalKey::new u s t` spells `(s << 8) | t`, so it splits back into `s` and `t`,
and comparing two trailers descending compares the sequences descending, then the type bytes. -/

/-- `decode_internal_key` reads back what `InternalKey::new` wrote. -/
theorem decodeInternalKey_new (u : Bytes) {s : SequenceNumber} (hs : s ≤ maxSequenceNumber)
    (vt : ValueType) : decodeInternalKey (InternalKey.new u s vt).encoded = .ok (u, s, vt) := by
  have htrailer := trailerNum_internalKey u hs vt
  have hvt := vt.toNat_toU8_le
  have htake : (InternalKey.new u s vt).encoded.take
      ((InternalKey.new u s vt).encoded.length - 8) = u := by
    simpa [userKey] using userKey_internalKey u s vt
  -- the low byte of the trailer is the type byte, the rest the sequence
  have hlow : UInt8.ofNat (trailerNum (InternalKey.new u s vt).encoded % 256) = vt.toU8 := by
    rw [htrailer, packSequenceAndType, Nat.mul_add_mod_of_lt (by omega), UInt8.ofNat_toNat]
  have hhigh : trailerNum (InternalKey.new u s vt).encoded / 256 = s := by
    rw [htrailer, packSequenceAndType]
    omega
  rw [trailerNum] at hlow hhigh
  unfold decodeInternalKey
  rw [if_neg (by simp)]
  dsimp only
  rw [hlow, ValueType.fromU8_toU8]
  dsimp only
  rw [hhigh, htake]

/-- Two encoded keys compare by user key ascending, then by sequence descending, then by type
byte descending. -/
theorem compareInternalKey_new (u₁ u₂ : Bytes) {s₁ s₂ : SequenceNumber}
    (hs₁ : s₁ ≤ maxSequenceNumber) (hs₂ : s₂ ≤ maxSequenceNumber) (vt₁ vt₂ : ValueType) :
    compareInternalKey (InternalKey.new u₁ s₁ vt₁).encoded (InternalKey.new u₂ s₂ vt₂).encoded =
      ((compare u₁ u₂).then (compare s₂ s₁)).then (compare vt₂.toU8 vt₁.toU8) := by
  have hvt₁ := vt₁.toNat_toU8_le
  have hvt₂ := vt₂.toNat_toU8_le
  rw [compareInternalKey_of_length (by simp) (by simp), userKey_internalKey, userKey_internalKey,
    trailerNum_internalKey _ hs₁, trailerNum_internalKey _ hs₂, packSequenceAndType,
    packSequenceAndType, Nat.compare_mul_add (by omega) (by omega),
    UInt8.compare_eq_compare_toNat, Ordering.then_assoc]

/-- The encoding realises the logical order, and `compare_internal_key` is a total order on all
byte strings, those shorter than a trailer included. -/
theorem internalKey_encoding_order :
    (∀ (u : Bytes) (s : SequenceNumber), s ≤ maxSequenceNumber → ∀ vt : ValueType,
      decodeInternalKey (InternalKey.new u s vt).encoded = .ok (u, s, vt)) ∧
    (∀ (u₁ u₂ : Bytes) (s₁ s₂ : SequenceNumber), s₁ ≤ maxSequenceNumber → s₂ ≤ maxSequenceNumber →
      ∀ vt₁ vt₂ : ValueType,
      compareInternalKey (InternalKey.new u₁ s₁ vt₁).encoded (InternalKey.new u₂ s₂ vt₂).encoded =
        ((compare u₁ u₂).then (compare s₂ s₁)).then (compare vt₂.toU8 vt₁.toU8)) ∧
    (∀ a : Bytes, compareInternalKey a a = .eq) ∧
    (∀ a b : Bytes, compareInternalKey a b ≠ .gt → compareInternalKey b a ≠ .gt → a = b) ∧
    (∀ a b c : Bytes, compareInternalKey a b ≠ .gt → compareInternalKey b c ≠ .gt →
      compareInternalKey a c ≠ .gt) ∧
    (∀ a b : Bytes, compareInternalKey a b ≠ .gt ∨ compareInternalKey b a ≠ .gt) ∧
    (∀ a b : Bytes, compareInternalKey b a = (compareInternalKey a b).swap) := by
  refine ⟨fun u s hs vt => decodeInternalKey_new u hs vt,
    fun u₁ u₂ s₁ s₂ hs₁ hs₂ vt₁ vt₂ => compareInternalKey_new u₁ u₂ hs₁ hs₂ vt₁ vt₂,
    fun a => Std.ReflCmp.compare_self, ?_, fun a b c => Std.TransCmp.le_trans, ?_,
    fun a b => Std.OrientedCmp.eq_swap⟩
  · -- both ways `≤` leaves only `eq`, which the comparator gives to equal strings alone
    intro a b hab hba
    have hswap : compareInternalKey b a = (compareInternalKey a b).swap := Std.OrientedCmp.eq_swap
    have heq : compareInternalKey a b = .eq := by
      rw [hswap] at hba
      cases hcmp : compareInternalKey a b <;> simp_all
    exact Std.LawfulEqCmp.eq_of_compare heq
  · intro a b
    have htotal := compareInternalKey_isLE_total a b
    cases hab : compareInternalKey a b <;> cases hba : compareInternalKey b a <;> simp_all

theorem internalKey_encoding_order_sample :
    decodeInternalKey (InternalKey.new [0x61] 7 .rangeDeletion).encoded =
        .ok ([0x61], 7, .rangeDeletion) ∧
      compareInternalKey (InternalKey.new [0x61] 7 .value).encoded
        (InternalKey.new [0x61, 0x00] 9 .value).encoded = .lt :=
  ⟨internalKey_encoding_order.1 [0x61] 7 (by decide) .rangeDeletion,
    by rw [internalKey_encoding_order.2.1 [0x61] [0x61, 0x00] 7 9 (by decide) (by decide)]; decide⟩

/-! ## Where a key lands against another -/

section Landing

variable {a b : Bytes} (ha : 8 ≤ a.length) (hb : 8 ≤ b.length)
include ha hb

theorem userKey_le_of_compare_ne_gt (h : compareInternalKey a b ≠ .gt) :
    userKey a ≤ userKey b := by
  rw [compareInternalKey_of_length ha hb] at h
  by_contra hgt
  rw [compare_gt_iff_gt.mpr (lt_of_not_ge hgt)] at h
  exact h rfl

/-- Within one user key, the key that sorts first has the larger `trailerNum`. -/
theorem trailerNum_le_of_compare_ne_gt (h : compareInternalKey a b ≠ .gt)
    (heq : userKey a = userKey b) : trailerNum b ≤ trailerNum a := by
  rw [compareInternalKey_of_length ha hb, heq, Std.compare_self, Ordering.eq_then] at h
  exact le_of_not_gt fun hlt => h (compare_gt_iff_gt.mpr hlt)

end Landing

/-! ## Entries of the merged stream -/

namespace Entry

/-- The user key of an entry: its key without the trailer. -/
def userKey (e : Entry) : Bytes := Mmdb.userKey e.key

/-- The sequence number `decode_internal_key` reads. -/
def seq (e : Entry) : Nat := trailerNum e.key / 256

/-- The type byte `decode_internal_key` reads, when it names a value type. -/
def valueType? (e : Entry) : Option ValueType := ValueType.fromU8 (UInt8.ofNat (trailerNum e.key % 256))

/-- The value type; a key whose type byte names none reads as a range deletion, which no read
shows. -/
def valueType (e : Entry) : ValueType := e.valueType?.getD .rangeDeletion

/-- `decode_internal_key` accepts the entry's key. -/
def Decodes (e : Entry) : Prop := 8 ≤ e.key.length ∧ e.valueType?.isSome

instance : DecidablePred Decodes := fun e =>
  inferInstanceAs (Decidable (8 ≤ e.key.length ∧ e.valueType?.isSome))

variable {e : Entry}

theorem userKey_eq_take (h : e.Decodes) : e.userKey = e.key.take (e.key.length - 8) := by
  simp [userKey, Mmdb.userKey, h.1]

theorem decodeInternalKey_eq (h : e.Decodes) :
    decodeInternalKey e.key = .ok (e.userKey, e.seq, e.valueType) := by
  obtain ⟨hlen, hvt⟩ := h
  obtain ⟨vt, hsome⟩ := Option.isSome_iff_exists.mp hvt
  have hnum : u64Max - fromBeBytes8 (e.key.drop (e.key.length - 8)) = trailerNum e.key := rfl
  simp only [valueType?] at hsome
  simp only [decodeInternalKey, show ¬ e.key.length < 8 by omega, if_false, hnum, hsome,
    valueType, valueType?, seq, Option.getD_some, userKey_eq_take ⟨hlen, by simp [valueType?, hsome]⟩]

/-- A decoded key's trailer is its `(seq << 8) | type`. -/
theorem trailerNum_eq (h : e.Decodes) :
    trailerNum e.key = packSequenceAndType e.seq e.valueType := by
  obtain ⟨vt, hsome⟩ := Option.isSome_iff_exists.mp h.2
  have hcode : vt.toU8.toNat = trailerNum e.key % 256 := by
    rw [ValueType.toU8_of_fromU8 hsome, UInt8.toNat_ofNat']
    omega
  simp only [packSequenceAndType, seq, valueType, hsome, Option.getD_some, hcode]
  omega

theorem seq_le_max (e : Entry) : e.seq ≤ maxSequenceNumber := by
  have := trailerNum_le e.key
  unfold seq maxSequenceNumber
  unfold u64Max at this
  omega

end Entry

/-! ## Streams in internal-key order -/

instance : Std.Total Entry.le := ⟨fun a b => by
  have := compareInternalKey_isLE_total a.key b.key
  simp only [Entry.le, Ne, ← Ordering.isLE_iff_ne_gt] at *
  simpa [Bool.or_eq_true] using this⟩

instance : IsTrans Entry Entry.le := ⟨fun a b c hab hbc => by
  simp only [Entry.le, Ne, ← Ordering.isLE_iff_ne_gt] at *
  exact Std.TransCmp.isLE_trans hab hbc⟩

/-- The merged stream is in internal-key order. -/
theorem MergingIterator.pairwise_new (sources : List IterSource) :
    (MergingIterator.new sources).future.Pairwise Entry.le :=
  List.pairwise_insertionSort _ _

section Order

variable {a b : Entry} (ha : a.Decodes) (hb : b.Decodes)
include ha hb

/-- A stream in internal-key order is in user-key order. -/
theorem Entry.userKey_le_of_le (h : Entry.le a b) : a.userKey ≤ b.userKey :=
  userKey_le_of_compare_ne_gt ha.1 hb.1 h

/-- Within one user key, the newest version comes first. -/
theorem Entry.seq_le_of_le (h : Entry.le a b) (heq : a.userKey = b.userKey) : b.seq ≤ a.seq := by
  have hnum := trailerNum_le_of_compare_ne_gt ha.1 hb.1 h heq
  rw [Entry.trailerNum_eq ha, Entry.trailerNum_eq hb] at hnum
  have hb' : b.valueType.toU8.toNat < 256 := UInt8.toNat_lt _
  have ha' : a.valueType.toU8.toNat < 256 := UInt8.toNat_lt _
  unfold packSequenceAndType at hnum
  omega

end Order

end Mmdb
