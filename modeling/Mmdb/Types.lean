import Mathlib

/-!
# Keys, sequence numbers and the internal-key order

The core data types of `src/types.rs` and the error type of `src/error.rs`.

A user key is a byte string (`Vec<u8>`, here `Bytes := List UInt8`) ordered as Rust orders
byte slices: lexicographically. Rust's `Ord for [u8]` is a linear order, and so is the order
`List.lt` gives `List UInt8`; `Bytes.instLinearOrder` packages it so that the general order
lemmas apply to keys.

An internal key is a user key followed by an 8-byte trailer, the big-endian bit complement of
`seq << 8 | type`. `compareInternalKey` is the comparator every sort, heap and binary search of
the engine uses; it orders keys of at least 8 bytes by user key and then by trailer bytes, and
sorts malformed keys (shorter than 8 bytes) before all others.

Sequence numbers are `u64` in the source and stay at most `MAX_SEQUENCE_NUMBER = 2^56 - 1`;
the model uses `Nat`. The error type keeps the kind and the message of `Error`; the
propagation trace (source locations) is not modelled.
-/

namespace Mmdb

/-! ## Errors -/

/-- `ErrorKind` of `src/error.rs`. -/
inductive ErrorKind where
  | io
  | corruption
  | invalidArgument
  | dbClosed
  | readOnly
  | background
  deriving DecidableEq, Repr

/-- An error: its kind and its message. -/
structure Error where
  kind : ErrorKind
  msg : String
  deriving DecidableEq, Repr

/-- `Error::corruption`. -/
def Error.corruption (msg : String) : Error := ⟨.corruption, msg⟩

/-- `Error::read_only`. -/
def Error.readOnly : Error := ⟨.readOnly, "database is read-only"⟩

/-- `Result<T>` of the crate. -/
abbrev Result (α : Type) := Except Error α

/-! ## Byte strings and their order -/

/-- A byte string, `Vec<u8>`. -/
abbrev Bytes := List UInt8

theorem Bytes.compare_eq_compareOfLessAndEq (a b : Bytes) :
    compare a b = compareOfLessAndEq a b := by
  induction a generalizing b with
  | nil =>
    cases b with
    | nil => rfl
    | cons y ys => simp [compareOfLessAndEq]
  | cons x xs ih =>
    cases b with
    | nil => simp [compareOfLessAndEq]
    | cons y ys =>
      have hxy : compare x y = compareOfLessAndEq x y := rfl
      rw [List.compare_cons_cons, ih ys, hxy]
      by_cases hlt : x < y
      · simp [compareOfLessAndEq, hlt, List.cons_lt_cons_iff, Ordering.then]
      · by_cases heq : x = y
        · subst heq
          simp only [compareOfLessAndEq, hlt, if_false, if_true, Ordering.then,
            List.cons_lt_cons_iff, List.cons.injEq, true_and, false_or]
        · simp [compareOfLessAndEq, hlt, heq, List.cons_lt_cons_iff, Ordering.then]

/-- Rust's byte-slice order is the lexicographic order of `List.lt`, a linear order. Its `<`,
`≤` and `compare` are the ones Lean already gives `List UInt8`. -/
instance Bytes.instLinearOrder : LinearOrder Bytes where
  le := (· ≤ ·)
  lt := (· < ·)
  le_refl := List.le_refl
  le_trans := fun _ _ _ => List.le_trans
  le_antisymm := fun _ _ => List.le_antisymm
  le_total := List.le_total
  lt_iff_le_not_ge := fun a b => by
    constructor
    · intro h
      exact ⟨List.le_of_lt h, fun h' => (List.not_lt.mpr h') h⟩
    · rintro ⟨_, h⟩
      exact List.not_le.mp h
  toDecidableLE := inferInstance
  toDecidableLT := inferInstance
  compare_eq_compareOfLessAndEq := Bytes.compare_eq_compareOfLessAndEq

/-! ## Sequence numbers and value types -/

/-- `SequenceNumber`, a `u64`. -/
abbrev SequenceNumber := Nat

/-- `MAX_SEQUENCE_NUMBER`: sequences are packed into 56 bits. -/
def maxSequenceNumber : SequenceNumber := 2 ^ 56 - 1

/-- `u64::MAX`, the value `SequenceNumber::MAX` takes where the source uses it. -/
def u64Max : Nat := 2 ^ 64 - 1

/-- `ValueType`: the operation an internal key records. -/
inductive ValueType where
  | deletion
  | value
  | rangeDeletion
  deriving DecidableEq, Repr

/-- The `#[repr(u8)]` discriminant of a value type. -/
def ValueType.toU8 : ValueType → UInt8
  | .deletion => 0
  | .value => 1
  | .rangeDeletion => 2

/-- `ValueType::from_u8`. -/
def ValueType.fromU8 (v : UInt8) : Option ValueType :=
  if v = 0 then some .deletion
  else if v = 1 then some .value
  else if v = 2 then some .rangeDeletion
  else none

@[simp] theorem ValueType.fromU8_toU8 (vt : ValueType) : ValueType.fromU8 vt.toU8 = some vt := by
  cases vt <;> rfl

/-! ## Internal keys -/

/-- `pack_sequence_and_type`: `(seq << 8) | type`. The source asserts
`seq ≤ MAX_SEQUENCE_NUMBER`, under which the value fits in a `u64`. -/
def packSequenceAndType (seq : SequenceNumber) (vt : ValueType) : Nat :=
  seq * 256 + vt.toU8.toNat

/-- `u64::to_be_bytes` of a value below `2^64`. -/
def toBeBytes8 (x : Nat) : Bytes :=
  [56, 48, 40, 32, 24, 16, 8, 0].map fun s => UInt8.ofNat (x >>> s)

/-- `u64::from_be_bytes` of the first eight bytes. -/
def fromBeBytes8 (b : Bytes) : Nat :=
  (b.take 8).foldl (fun acc byte => acc * 256 + byte.toNat) 0

/-- `InternalKey`: the encoded bytes, user key then inverted big-endian trailer. -/
structure InternalKey where
  encoded : Bytes
  deriving DecidableEq, Repr

/-- `InternalKey::new`. -/
def InternalKey.new (userKey : Bytes) (sequence : SequenceNumber) (valueType : ValueType) :
    InternalKey :=
  ⟨userKey ++ toBeBytes8 (u64Max - packSequenceAndType sequence valueType)⟩

/-- `InternalKey::as_bytes`. -/
def InternalKey.asBytes (k : InternalKey) : Bytes := k.encoded

/-- `decode_internal_key`: the user key, sequence and value type of a persisted key, or a
corruption error for a key shorter than the trailer or an unknown type byte. -/
def decodeInternalKey (encoded : Bytes) : Result (Bytes × SequenceNumber × ValueType) :=
  if encoded.length < 8 then
    .error (.corruption
      s!"internal key too short: {encoded.length} bytes (need at least 8)")
  else
    let ukLen := encoded.length - 8
    let trailer := u64Max - fromBeBytes8 (encoded.drop ukLen)
    let raw := UInt8.ofNat (trailer % 256)
    match ValueType.fromU8 raw with
    | none => .error (.corruption s!"invalid value_type byte {raw} in trailer")
    | some vt => .ok (encoded.take ukLen, trailer / 256, vt)

/-- `compare_internal_key`: user key ascending, then trailer bytes ascending (sequence and type
descending); keys shorter than 8 bytes sort before all others, bytewise among themselves. -/
def compareInternalKey (a b : Bytes) : Ordering :=
  match decide (8 ≤ a.length), decide (8 ≤ b.length) with
  | true, true =>
    (compare (a.take (a.length - 8)) (b.take (b.length - 8))).then
      (compare (a.drop (a.length - 8)) (b.drop (b.length - 8)))
  | false, false => compare a b
  | false, true => .lt
  | true, false => .gt

/-- `user_key`: strip the 8-byte trailer; a shorter key is returned whole. -/
def userKey (internalKey : Bytes) : Bytes :=
  if 8 ≤ internalKey.length then internalKey.take (internalKey.length - 8) else internalKey

/-! ## The order of internal keys

`compare_internal_key` is the lexicographic comparison of three projections of a key: whether
it has a trailer, its user key, and its trailer (empty for a short key). It is therefore a
lawful total order on byte strings, which is what every sort of files by their smallest key
relies on. -/

theorem compareInternalKey_eq_compareLex :
    compareInternalKey = compareLex (compareOn fun a : Bytes => decide (8 ≤ a.length))
      (compareLex (compareOn userKey)
        (compareOn fun a : Bytes => if 8 ≤ a.length then a.drop (a.length - 8) else [])) := by
  funext a b
  unfold compareInternalKey compareLex compareOn userKey
  by_cases ha : 8 ≤ a.length <;> by_cases hb : 8 ≤ b.length <;> simp [ha, hb] <;> rfl

instance : Std.TransCmp compareInternalKey :=
  compareInternalKey_eq_compareLex ▸ inferInstance

instance : Std.LawfulEqCmp compareInternalKey where
  eq_of_compare {a b} h := by
    rw [compareInternalKey_eq_compareLex] at h
    simp only [compareLex, compareOn, Ordering.then_eq_eq] at h
    obtain ⟨hlen, hkey, htrailer⟩ := h
    have hlen := Std.LawfulEqOrd.eq_of_compare hlen
    have hkey := Std.LawfulEqOrd.eq_of_compare hkey
    have htrailer := Std.LawfulEqOrd.eq_of_compare htrailer
    unfold userKey at hkey
    by_cases ha : 8 ≤ a.length <;> by_cases hb : 8 ≤ b.length <;> simp_all
    rw [← List.take_append_drop (a.length - 8) a, ← List.take_append_drop (b.length - 8) b,
      hkey, htrailer]

theorem compareInternalKey_isLE_total (a b : Bytes) :
    (compareInternalKey a b).isLE || (compareInternalKey b a).isLE := by
  rw [show compareInternalKey b a = (compareInternalKey a b).swap from Std.OrientedCmp.eq_swap]
  cases compareInternalKey a b <;> rfl

/-- Keys with trailers and distinct user keys compare by user key. -/
theorem compareInternalKey_of_userKey_lt {a b : Bytes} (ha : 8 ≤ a.length) (hb : 8 ≤ b.length)
    (h : userKey a < userKey b) : compareInternalKey a b = .lt := by
  rw [compareInternalKey_eq_compareLex]
  simp [compareLex, compareOn, ha, hb, compare_lt_iff_lt.mpr h]

/-- `tombstone_overlaps_bounds`: whether `[begin, end)` can cover a key of `[lower, upper)`. -/
def tombstoneOverlapsBounds (begin «end» : Bytes) (lower upper : Option Bytes) : Bool :=
  (lower.all fun lo => decide (lo < «end»)) && (upper.all fun hi => decide (begin < hi))

end Mmdb
