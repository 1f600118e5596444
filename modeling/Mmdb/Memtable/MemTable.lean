import Mathlib
import Mmdb.Memtable.SkipListImpl
import Mmdb.Iterator.Keys

/-!
# The memtable: puts and point lookups

`src/memtable/mod.rs` and `SkipListMemTable` of `src/memtable/skiplist.rs`. The memtable keeps
encoded internal keys in the arena skiplist of `Mmdb.Memtable.SkipListImpl`, ordered by
`compare_internal_key` through the `OrdInternalKey` newtype. `MemTable::put` encodes the key and
inserts it, storing an empty value for a deletion and the end key for a range deletion (and
nothing at all for an empty or inverted range). `MemTable::get_with_seq` seeks the skiplist to the
internal key `(u, s, Value)` with `lower_bound` and answers from the entry found there when its user
key is `u`.

**What goes wrong** (`MemTable.getWithSeq_of_rangeDeletion`): the seek key carries the type byte of
`Value` (`1`), and a range deletion (`2`) at the same sequence sorts before it, since the trailer
orders the type byte descending. A lookup at the very sequence of a range deletion of its key
therefore steps over the deletion and returns the next older entry of the key, though the
`RangeDeletion` arm of the lookup was written to report such an entry as a deletion.

Left out: the range-tombstone side list, the range-deletion flag and the size estimate, which
`put` maintains and only the database reads; and the assertion of `pack_sequence_and_type` on
sequences above `MAX_SEQUENCE_NUMBER`.
-/

namespace Mmdb

/-- `OrdInternalKey`: an encoded internal key, ordered by `compare_internal_key`. -/
structure OrdInternalKey where
  bytes : Bytes
  deriving DecidableEq, Repr

namespace OrdInternalKey

instance : LT OrdInternalKey := ⟨fun a b => compareInternalKey a.bytes b.bytes = .lt⟩

instance : LE OrdInternalKey := ⟨fun a b => compareInternalKey a.bytes b.bytes ≠ .gt⟩

theorem lt_iff {a b : OrdInternalKey} : a < b ↔ compareInternalKey a.bytes b.bytes = .lt :=
  Iff.rfl

theorem le_iff {a b : OrdInternalKey} : a ≤ b ↔ compareInternalKey a.bytes b.bytes ≠ .gt :=
  Iff.rfl

theorem compare_swap (a b : OrdInternalKey) :
    compareInternalKey b.bytes a.bytes = (compareInternalKey a.bytes b.bytes).swap :=
  Std.OrientedCmp.eq_swap

theorem compare_self (a : OrdInternalKey) : compareInternalKey a.bytes a.bytes = .eq :=
  Std.ReflCmp.compare_self

theorem eq_of_compare {a b : OrdInternalKey} (h : compareInternalKey a.bytes b.bytes = .eq) :
    a = b := by
  cases a
  cases b
  exact congrArg _ (Std.LawfulEqCmp.eq_of_compare h)

/-- `Ord for OrdInternalKey`: `compare_internal_key`, a linear order since the comparator is
lawful; its `==` is `compare == Equal`, equality of the bytes. -/
instance : LinearOrder OrdInternalKey where
  le := (· ≤ ·)
  lt := (· < ·)
  le_refl a := by
    rw [le_iff, compare_self]
    decide
  le_trans _ _ _ := Std.TransCmp.le_trans
  le_antisymm a b hab hba := by
    rw [le_iff] at hab hba
    rw [compare_swap, ne_eq, Ordering.swap_eq_gt] at hba
    apply eq_of_compare
    cases hcmp : compareInternalKey a.bytes b.bytes <;> simp_all
  le_total a b := by
    rw [le_iff, le_iff, compare_swap a b]
    cases compareInternalKey a.bytes b.bytes <;> decide
  lt_iff_le_not_ge a b := by
    rw [lt_iff, le_iff, le_iff, compare_swap a b]
    cases compareInternalKey a.bytes b.bytes <;> decide
  toDecidableLE a b := inferInstanceAs (Decidable (compareInternalKey a.bytes b.bytes ≠ .gt))
  toDecidableLT a b := inferInstanceAs (Decidable (compareInternalKey a.bytes b.bytes = .lt))
  compare a b := compareInternalKey a.bytes b.bytes
  compare_eq_compareOfLessAndEq a b := by
    simp only [compareOfLessAndEq, lt_iff]
    cases hcmp : compareInternalKey a.bytes b.bytes with
    | lt => rfl
    | eq => simp [eq_of_compare hcmp]
    | gt =>
      have hab : a ≠ b := by
        rintro rfl
        rw [compare_self] at hcmp
        cases hcmp
      simp [hab]

end OrdInternalKey

open SkipListImpl

/-! ## The model -/

/-- `SkipListMemTable`: the skiplist of encoded internal keys and their values. -/
structure SkipListMemTable where
  map : ConcurrentSkipList OrdInternalKey Bytes

namespace SkipListMemTable

/-- `SkipListMemTable::new`. -/
def new : SkipListMemTable := ⟨.new⟩

/-- `SkipListMemTable::insert`, with the tower height `random_height` draws. -/
def insert (m : SkipListMemTable) (encodedKey value : Bytes) (height : Nat) : SkipListMemTable :=
  ⟨m.map.insert ⟨encodedKey⟩ value height⟩

/-- `SkipListMemTable::get_with_seq`: the entry `lower_bound` finds at or after `search_key`
answers when its user key is `user_key`; `InternalKeyRef` reads the sequence and the type from
the complement of its last eight bytes. -/
def getWithSeq (m : SkipListMemTable) (searchKey userKey : Bytes) :
    Option (Option Bytes × SequenceNumber) :=
  match m.map.lowerBound ⟨searchKey⟩ with
  | none => none
  | some (k, v) =>
    let kb := k.bytes
    if kb.length < 8 then none
    else if kb.take (kb.length - 8) = userKey then
      let trailer := trailerNum kb
      let valueType := (ValueType.fromU8 (UInt8.ofNat (trailer % 256))).getD .deletion
      let result : Option Bytes := match valueType with
        | .value => some v
        | .deletion | .rangeDeletion => none
      some (result, trailer / 256)
    else none

end SkipListMemTable

/-- `MemTable`: its skiplist. -/
structure MemTable where
  inner : SkipListMemTable

namespace MemTable

/-- `MemTable::new`. -/
def new : MemTable := ⟨.new⟩

/-- `MemTable::put`, with the tower height `random_height` draws for the new node. -/
def put (m : MemTable) (key value : Bytes) (sequence : SequenceNumber) (valueType : ValueType)
    (height : Nat) : MemTable :=
  -- an empty or inverted range deletion covers no key and is not stored
  if valueType = .rangeDeletion ∧ value ≤ key then m
  else
    let ikey := InternalKey.new key sequence valueType
    let val := match valueType with
      | .value => value
      | .deletion => []
      | .rangeDeletion => value
    ⟨m.inner.insert ikey.asBytes val height⟩

/-- `MemTable::get_with_seq`: seek to the internal key `(key, sequence, Value)`. -/
def getWithSeq (m : MemTable) (key : Bytes) (sequence : SequenceNumber) :
    Option (Option Bytes × SequenceNumber) :=
  let searchKey := InternalKey.new key sequence .value
  m.inner.getWithSeq searchKey.asBytes key

/-! ## Where the seek key lands

The seek key `(u, s, Value)` sorts after every entry of `u` at a sequence above `s`, after a range
deletion of `u` at `s` itself, and before every other entry of `u` at `s` or below. -/

section SeekKey

variable (u : Bytes) {s s' : SequenceNumber}

/-- A range deletion at the lookup's own sequence sorts before the seek key. -/
theorem rangeDeletion_lt_searchKey (hs : s ≤ maxSequenceNumber) :
    (⟨(InternalKey.new u s .rangeDeletion).encoded⟩ : OrdInternalKey) <
      ⟨(InternalKey.new u s .value).encoded⟩ := by
  rw [OrdInternalKey.lt_iff, compareInternalKey_new u u hs hs]
  simp [ValueType.toU8]
  decide

/-- An entry of `u` at an older sequence sorts after the seek key. -/
theorem searchKey_lt_older (hs : s ≤ maxSequenceNumber) (hs' : s' < s) (vt : ValueType) :
    (⟨(InternalKey.new u s .value).encoded⟩ : OrdInternalKey) <
      ⟨(InternalKey.new u s' vt).encoded⟩ := by
  rw [OrdInternalKey.lt_iff, compareInternalKey_new u u hs (hs'.le.trans hs)]
  simp [compare_lt_iff_lt.mpr hs']

end SeekKey

/-- How the lookup reads an entry of `u` that it lands on: the value of a `Value`, nothing for a
deletion or a range deletion, and its sequence. -/
theorem getWithSeq_of_lowerBound {m : MemTable} {u v : Bytes} {s s' : SequenceNumber}
    {vt : ValueType} (hs' : s' ≤ maxSequenceNumber)
    (hfound : m.inner.map.lowerBound ⟨(InternalKey.new u s .value).encoded⟩ =
      some (⟨(InternalKey.new u s' vt).encoded⟩, v)) :
    m.getWithSeq u s = some (if vt = .value then some v else none, s') := by
  have htrailer := trailerNum_internalKey u hs' vt
  have hvt := vt.toNat_toU8_le
  have htake : (InternalKey.new u s' vt).encoded.take
      ((InternalKey.new u s' vt).encoded.length - 8) = u := by
    simpa [userKey] using userKey_internalKey u s' vt
  -- the low byte of the trailer is the type byte, the rest the sequence
  have hlow : UInt8.ofNat (trailerNum (InternalKey.new u s' vt).encoded % 256) = vt.toU8 := by
    rw [htrailer, packSequenceAndType, Nat.mul_add_mod_of_lt (by omega), UInt8.ofNat_toNat]
  have hhigh : trailerNum (InternalKey.new u s' vt).encoded / 256 = s' := by
    rw [htrailer, packSequenceAndType]
    omega
  unfold getWithSeq SkipListMemTable.getWithSeq
  simp only [InternalKey.asBytes, hfound]
  rw [if_neg (by simp), if_pos htake, hlow, ValueType.fromU8_toU8, hhigh]
  cases vt <;> rfl

/-- **The lookup misses a range deletion at its own sequence.** When level 0 holds the range
deletion of `u` at `s` and right after it a value of `u` at an older sequence `s'`, the lookup of
`u` at `s` returns that value, where the newest entry of `u` it may see is the deletion. -/
theorem getWithSeq_of_rangeDeletion {m : MemTable} {order : List Nat}
    {key : Nat → OrdInternalKey} (h : m.inner.map.Wf order key) {u v w : Bytes}
    {s s' : SequenceNumber} (hs : s ≤ maxSequenceNumber) (hs' : s' < s)
    {A B : List (OrdInternalKey × Bytes)}
    (hlevel : m.inner.map.collectAll = A ++ (⟨(InternalKey.new u s .rangeDeletion).encoded⟩, w) ::
      (⟨(InternalKey.new u s' .value).encoded⟩, v) :: B) :
    m.getWithSeq u s = some (some v, s') := by
  have hrd := rangeDeletion_lt_searchKey u hs
  have hsorted := h.collectAll_pairwise
  rw [hlevel, List.pairwise_append] at hsorted
  -- the entries before the range deletion sort below it, so below the seek key too
  have hA : A.find? (fun kv => decide (⟨(InternalKey.new u s .value).encoded⟩ ≤ kv.1)) = none :=
    List.find?_eq_none.mpr fun a ha hle =>
      absurd (lt_trans (hsorted.2.2 a ha _ List.mem_cons_self) hrd) (not_lt.mpr (of_decide_eq_true hle))
  have hfound : m.inner.map.lowerBound ⟨(InternalKey.new u s .value).encoded⟩ =
      some (⟨(InternalKey.new u s' .value).encoded⟩, v) := by
    rw [h.lowerBound_entries, hlevel, List.find?_append, hA, Option.none_or,
      List.find?_cons_of_neg (by simpa using hrd),
      List.find?_cons_of_pos (by simpa using le_of_lt (searchKey_lt_older u hs hs' .value))]
  exact getWithSeq_of_lowerBound (hs'.le.trans hs) hfound

/-- A lookup that lands on an entry of another user key finds nothing. -/
theorem getWithSeq_of_lowerBound_ne {m : MemTable} {u u' v : Bytes} {s s' : SequenceNumber}
    {vt : ValueType} (hne : u' ≠ u)
    (hfound : m.inner.map.lowerBound ⟨(InternalKey.new u s .value).encoded⟩ =
      some (⟨(InternalKey.new u' s' vt).encoded⟩, v)) :
    m.getWithSeq u s = none := by
  have htake : (InternalKey.new u' s' vt).encoded.take
      ((InternalKey.new u' s' vt).encoded.length - 8) = u' := by
    simpa [userKey] using userKey_internalKey u' s' vt
  unfold getWithSeq SkipListMemTable.getWithSeq
  simp only [InternalKey.asBytes, hfound]
  rw [if_neg (by simp), if_neg (by rw [htake]; exact hne)]

/-- A lookup that lands past the last entry finds nothing. -/
theorem getWithSeq_of_lowerBound_none {m : MemTable} {u : Bytes} {s : SequenceNumber}
    (hfound : m.inner.map.lowerBound ⟨(InternalKey.new u s .value).encoded⟩ = none) :
    m.getWithSeq u s = none := by
  unfold getWithSeq SkipListMemTable.getWithSeq
  simp only [InternalKey.asBytes, hfound]

/-! ## Lookups over any run of puts

Over any run of puts from an empty memtable whose stored internal keys are distinct, level 0 holds
one entry per stored call, and the lookup of `u` at `s` answers from the stored version of `u`
with the largest trailer `(sequence << 8) | type` at or below the trailer of `(s, Value)`
(`getWithSeq_putAll`): the newest version at a sequence below `s`, or at `s` itself unless it is a
range deletion. -/

/-- One call of `MemTable::put`, with the tower height drawn for its node. -/
structure PutCall where
  key : Bytes
  value : Bytes
  sequence : SequenceNumber
  valueType : ValueType
  height : Nat
  deriving DecidableEq, Repr

namespace PutCall

/-- Whether `put` stores the call: all but an empty or inverted range deletion. -/
def stored (c : PutCall) : Bool := !decide (c.valueType = .rangeDeletion ∧ c.value ≤ c.key)

/-- The value `put` stores for the call. -/
def storedValue (c : PutCall) : Bytes :=
  match c.valueType with
  | .value => c.value
  | .deletion => []
  | .rangeDeletion => c.value

/-- The key of the call's node. -/
def ordKey (c : PutCall) : OrdInternalKey :=
  ⟨(InternalKey.new c.key c.sequence c.valueType).encoded⟩

/-- The trailer number `(sequence << 8) | type` of the call's internal key. -/
def trailer (c : PutCall) : Nat := packSequenceAndType c.sequence c.valueType

/-- What a lookup that lands on the call's entry returns. -/
def answer (c : PutCall) : Option Bytes × SequenceNumber :=
  (if c.valueType = .value then some c.value else none, c.sequence)

end PutCall

/-- A run of puts from an empty memtable. -/
def putAll (calls : List PutCall) : MemTable :=
  calls.foldl (fun m c => m.put c.key c.value c.sequence c.valueType c.height) new

/-- The stored versions of `u` that a lookup at `s` may land on: those whose trailer is at most
the trailer of `(s, Value)`. -/
def versionsAt (calls : List PutCall) (u : Bytes) (s : SequenceNumber) : List PutCall :=
  calls.filter fun c =>
    c.stored && decide (c.key = u) && decide (c.trailer ≤ packSequenceAndType s .value)

theorem map_put (m : MemTable) (c : PutCall) :
    (m.put c.key c.value c.sequence c.valueType c.height).inner.map =
      if c.stored then m.inner.map.insert c.ordKey c.storedValue c.height else m.inner.map := by
  unfold put PutCall.stored
  by_cases hskip : c.valueType = .rangeDeletion ∧ c.value ≤ c.key
  · rw [if_pos hskip, decide_eq_true hskip]
    rfl
  · simp only [hskip, if_false, decide_false, Bool.not_false, if_true]
    cases hvt : c.valueType <;>
      simp [SkipListMemTable.insert, InternalKey.asBytes, PutCall.ordKey, PutCall.storedValue, hvt]

/-- A run of puts inserts the nodes of the stored calls, in order. -/
theorem map_putAll (calls : List PutCall) :
    (putAll calls).inner.map =
      SkipListImpl.ConcurrentSkipList.insertAll
        ((calls.filter (·.stored)).map fun c => (c.ordKey, c.storedValue, c.height)) := by
  -- the induction is on the calls, from any memtable
  suffices h : ∀ m : MemTable,
      (calls.foldl (fun m c => m.put c.key c.value c.sequence c.valueType c.height) m).inner.map =
        ((calls.filter (·.stored)).map fun c => (c.ordKey, c.storedValue, c.height)).foldl
          (fun s op => s.insert op.1 op.2.1 op.2.2) m.inner.map from h new
  induction calls with
  | nil => intro m; rfl
  | cons c calls ih =>
    intro m
    rw [List.foldl_cons, ih]
    by_cases hc : c.stored = true
    · rw [List.filter_cons_of_pos hc, List.map_cons, List.foldl_cons, map_put, if_pos hc]
    · rw [List.filter_cons_of_neg hc, map_put, if_neg hc]

section Order

variable {u : Bytes} {s : SequenceNumber} {c d : PutCall}

/-- Two keys the memtable stores compare by user key, then by trailer descending. -/
theorem compare_ordKey (hc : c.sequence ≤ maxSequenceNumber) (hd : d.sequence ≤ maxSequenceNumber) :
    compare c.ordKey d.ordKey = (compare c.key d.key).then (compare d.trailer c.trailer) := by
  show compareInternalKey c.ordKey.bytes d.ordKey.bytes = _
  simp only [PutCall.ordKey]
  rw [compareInternalKey_of_length (by simp) (by simp), userKey_internalKey, userKey_internalKey,
    trailerNum_internalKey _ hc, trailerNum_internalKey _ hd]
  rfl

/-- The seek key of a lookup of `u` at `s` sorts at or before a stored key exactly when the key's
user key is above `u`, or is `u` with a trailer at most the seek's. -/
theorem searchKey_le_ordKey_iff (hs : s ≤ maxSequenceNumber) (hd : d.sequence ≤ maxSequenceNumber) :
    (⟨(InternalKey.new u s .value).encoded⟩ : OrdInternalKey) ≤ d.ordKey ↔
      u < d.key ∨ u = d.key ∧ d.trailer ≤ packSequenceAndType s .value := by
  rw [← compare_le_iff_le]
  show compareInternalKey (InternalKey.new u s .value).encoded d.ordKey.bytes ≠ _ ↔ _
  simp only [PutCall.ordKey]
  rw [compareInternalKey_of_length (by simp) (by simp), userKey_internalKey, userKey_internalKey,
    trailerNum_internalKey _ hs, trailerNum_internalKey _ hd, ne_eq, Ordering.then_eq_gt,
    compare_gt_iff_gt, compare_eq_iff_eq, compare_gt_iff_gt, PutCall.trailer]
  constructor
  · intro h
    rcases lt_trichotomy u d.key with hlt | heq | hgt
    · exact .inl hlt
    · exact .inr ⟨heq, le_of_not_gt fun hgt => h (.inr ⟨heq, hgt⟩)⟩
    · exact absurd (.inl hgt) h
  · rintro (hlt | ⟨heq, hle⟩) (hgt | ⟨heq', hgt⟩)
    · exact lt_asymm hlt hgt
    · exact absurd heq' (ne_of_lt hlt)
    · exact absurd heq (ne_of_gt hgt)
    · exact absurd hle (not_le_of_gt hgt)

/-- One stored key sorts below another exactly when its user key is below the other's, or is the
same with a larger trailer. -/
theorem ordKey_lt_iff (hc : c.sequence ≤ maxSequenceNumber) (hd : d.sequence ≤ maxSequenceNumber) :
    d.ordKey < c.ordKey ↔ d.key < c.key ∨ d.key = c.key ∧ c.trailer < d.trailer := by
  rw [← compare_lt_iff_lt, compare_ordKey hd hc, Ordering.then_eq_lt, compare_lt_iff_lt,
    compare_eq_iff_eq, compare_lt_iff_lt]

end Order

/-- **The lookup over any run of puts.** For puts of distinct internal keys with sequences up to
`MAX_SEQUENCE_NUMBER` and towers of `1..=MAX_HEIGHT`, the lookup of `u` at `s` answers from the
stored version of `u` with the largest trailer at or below that of `(s, Value)`, and finds nothing
when there is none. -/
theorem getWithSeq_putAll {calls : List PutCall}
    (hdistinct : ((calls.filter (·.stored)).map fun c => (c.key, c.sequence, c.valueType)).Nodup)
    (hseq : ∀ c ∈ calls, c.sequence ≤ maxSequenceNumber)
    (hheight : ∀ c ∈ calls, 0 < c.height ∧ c.height ≤ SkipListImpl.maxHeight)
    (u : Bytes) {s : SequenceNumber} (hs : s ≤ maxSequenceNumber) :
    (putAll calls).getWithSeq u s = ((versionsAt calls u s).argmax (·.trailer)).map (·.answer) := by
  -- level 0 after the run, from the run of inserts it is
  have hnodup : (((calls.filter (·.stored)).map fun c => (c.ordKey, c.storedValue, c.height)).map
      (·.1)).Nodup := by
    rw [List.map_map]
    refine (List.Nodup.of_map _ hdistinct).map_on fun c hc d hd heq => ?_
    have hdec := congrArg (fun k : OrdInternalKey => decodeInternalKey k.bytes) heq
    simp only [Function.comp, PutCall.ordKey, decodeInternalKey_new _ (hseq c (List.mem_of_mem_filter hc)),
      decodeInternalKey_new _ (hseq d (List.mem_of_mem_filter hd)), Except.ok.injEq] at hdec
    exact List.inj_on_of_nodup_map hdistinct hc hd (by simpa using hdec)
  have htowers : ∀ op ∈ (calls.filter (·.stored)).map (fun c => (c.ordKey, c.storedValue, c.height)),
      0 < op.2.2 ∧ op.2.2 ≤ SkipListImpl.maxHeight := by
    simp only [List.mem_map, List.mem_filter]
    rintro _ ⟨c, ⟨hc, -⟩, rfl⟩
    exact hheight c hc
  obtain ⟨hperm, hsorted, -, -, hsearch⟩ := SkipListImpl.ConcurrentSkipList.insertAll_spec _ hnodup htowers
  rw [← map_putAll] at hperm hsorted hsearch
  -- every entry of level 0 is the node of a stored call
  have hmem : ∀ kv, kv ∈ (putAll calls).inner.map.collectAll ↔
      ∃ d ∈ calls, d.stored = true ∧ (d.ordKey, d.storedValue) = kv := by
    intro kv
    rw [hperm.mem_iff]
    simp only [List.map_map, List.mem_map, List.mem_filter, Function.comp]
    constructor
    · rintro ⟨d, ⟨hd, hstored⟩, rfl⟩
      exact ⟨d, hd, hstored, rfl⟩
    · rintro ⟨d, hd, hstored, rfl⟩
      exact ⟨d, ⟨hd, hstored⟩, rfl⟩
  have hlookup := (hsearch ⟨(InternalKey.new u s .value).encoded⟩).1
  cases hmax : (versionsAt calls u s).argmax (·.trailer) with
  | none =>
    -- no version of `u` is visible: the seek lands past the last entry or on another key
    have hnone := List.argmax_eq_none.mp hmax
    cases hfound : (putAll calls).inner.map.lowerBound ⟨(InternalKey.new u s .value).encoded⟩ with
    | none => exact getWithSeq_of_lowerBound_none hfound
    | some kv =>
      rw [hlookup] at hfound
      obtain ⟨d, hd, hstored, rfl⟩ := (hmem kv).mp (List.mem_of_find?_eq_some hfound)
      have hle : (⟨(InternalKey.new u s .value).encoded⟩ : OrdInternalKey) ≤ d.ordKey := by
        simpa using List.find?_some hfound
      have hne : d.key ≠ u := by
        intro hdu
        rcases (searchKey_le_ordKey_iff hs (hseq d hd)).mp hle with hlt | ⟨-, htrailer⟩
        · exact absurd hdu (ne_of_gt hlt)
        · have hvis : d ∈ versionsAt calls u s := by
            simp [versionsAt, hd, hstored, hdu, htrailer]
          rw [hnone] at hvis
          cases hvis
      rw [← hlookup] at hfound
      exact getWithSeq_of_lowerBound_ne hne hfound
  | some c =>
    -- the seek lands on the newest visible version: no entry between the seek key and it
    obtain ⟨hc, ⟨hstored, hcu⟩, hctrailer⟩ : c ∈ calls ∧ (c.stored = true ∧ c.key = u) ∧
        c.trailer ≤ packSequenceAndType s .value := by
      simpa [versionsAt] using List.argmax_mem hmax
    have hcs := hseq c hc
    have hfound : (putAll calls).inner.map.lowerBound ⟨(InternalKey.new u s .value).encoded⟩ =
        some (c.ordKey, c.storedValue) := by
      rw [hlookup]
      refine hsorted.find?_eq_some ((hmem _).mpr ⟨c, hc, hstored, rfl⟩)
        (decide_eq_true ((searchKey_le_ordKey_iff hs hcs).mpr (.inr ⟨hcu.symm, hctrailer⟩))) ?_
      rintro _ hkv hle hlt
      obtain ⟨d, hd, hdstored, rfl⟩ := (hmem _).mp hkv
      have hds := hseq d hd
      rcases (searchKey_le_ordKey_iff hs hds).mp (of_decide_eq_true hle) with hud | ⟨hud, hdtrailer⟩ <;>
        rcases (ordKey_lt_iff hcs hds).mp hlt with hdc | ⟨hdc, hlt'⟩
      · exact lt_asymm hud (hcu ▸ hdc)
      · exact absurd (hdc.trans hcu) (ne_of_gt hud)
      · rw [hcu, ← hud] at hdc
        exact lt_irrefl _ hdc
      · -- a newer visible version of `u` than the one chosen
        have hvis : d ∈ versionsAt calls u s := by
          simp [versionsAt, hd, hdstored, hud.symm, hdtrailer]
        exact absurd (List.le_of_mem_argmax hvis hmax) (not_le_of_gt hlt')
    rw [PutCall.ordKey, hcu] at hfound
    rw [getWithSeq_of_lowerBound hcs hfound, Option.map_some, PutCall.answer, PutCall.storedValue]
    cases c.valueType <;> rfl

/-! ## The fields beside the skiplist

`MemTable::put` keeps two more fields for the range deletions it stores: `range_tombstones`, the
list `max_covering_tombstone_seq` scans, and `has_range_deletions`, the flag that lets the scan be
skipped. Over any run of puts the list holds the stored range deletions in order and the flag says
whether there is one (`rangeTombstones_putAll`, `hasRangeDeletions_putAll`), so the shortcut
answers what the scan answers: the newest range deletion visible at the read sequence that covers
the key (`maxCoveringTombstoneSeq_lt_iff`). -/

/-- `MemRangeTombstone`. -/
structure MemRangeTombstone where
  begin : Bytes
  «end» : Bytes
  seq : SequenceNumber
  deriving DecidableEq, Repr

/-- The range deletion a call stores: `[key, value)` at its sequence. -/
def PutCall.tombstone (c : PutCall) : MemRangeTombstone := ⟨c.key, c.value, c.sequence⟩

/-- The whole of `MemTable`: the skiplist, which `MemTable` above models, with the two fields kept
for range deletions. -/
structure MemTableState where
  table : MemTable
  hasRangeDeletions : Bool
  rangeTombstones : List MemRangeTombstone

namespace MemTableState

/-- `MemTable::new`. -/
def new : MemTableState := ⟨.new, false, []⟩

/-- `MemTable::put`: the skiplist insert of `MemTable.put`, and for a stored range deletion its
entry in `range_tombstones` and the flag. -/
def put (m : MemTableState) (key value : Bytes) (sequence : SequenceNumber) (valueType : ValueType)
    (height : Nat) : MemTableState :=
  if valueType = .rangeDeletion ∧ value ≤ key then m
  else
    let table := m.table.put key value sequence valueType height
    match valueType with
    | .rangeDeletion => ⟨table, true, m.rangeTombstones ++ [⟨key, value, sequence⟩]⟩
    | .value | .deletion => { m with table }

/-- `MemTable::get_with_seq`. -/
def getWithSeq (m : MemTableState) (key : Bytes) (sequence : SequenceNumber) :
    Option (Option Bytes × SequenceNumber) :=
  m.table.getWithSeq key sequence

/-- One tombstone of the scan of `max_covering_tombstone_seq`. -/
def coverStep (userKey : Bytes) (readSeq maxSeq : SequenceNumber) (rt : MemRangeTombstone) :
    SequenceNumber :=
  if rt.seq > readSeq then maxSeq
  else if userKey ≥ rt.begin ∧ userKey < rt.«end» ∧ rt.seq > maxSeq then rt.seq
  else maxSeq

/-- `MemTable::max_covering_tombstone_seq`: the largest sequence of a range deletion visible at
`read_seq` that covers the key, `0` for none; the scan is skipped when the flag is clear. -/
def maxCoveringTombstoneSeq (m : MemTableState) (userKey : Bytes) (readSeq : SequenceNumber) :
    SequenceNumber :=
  if !m.hasRangeDeletions then 0
  else m.rangeTombstones.foldl (coverStep userKey readSeq) 0

/-- A run of puts from an empty memtable. -/
def putAll (calls : List PutCall) : MemTableState :=
  calls.foldl (fun m c => m.put c.key c.value c.sequence c.valueType c.height) new

theorem table_put (m : MemTableState) (c : PutCall) :
    (m.put c.key c.value c.sequence c.valueType c.height).table =
      m.table.put c.key c.value c.sequence c.valueType c.height := by
  unfold put
  by_cases hskip : c.valueType = .rangeDeletion ∧ c.value ≤ c.key
  · rw [if_pos hskip]
    unfold MemTable.put
    rw [if_pos hskip]
  · rw [if_neg hskip]
    cases c.valueType <;> rfl

theorem rangeTombstones_put (m : MemTableState) (c : PutCall) :
    (m.put c.key c.value c.sequence c.valueType c.height).rangeTombstones =
      if c.stored && c.valueType == .rangeDeletion then m.rangeTombstones ++ [c.tombstone]
      else m.rangeTombstones := by
  unfold put PutCall.stored
  by_cases hskip : c.valueType = .rangeDeletion ∧ c.value ≤ c.key
  · rw [if_pos hskip, decide_eq_true hskip]
    rfl
  · rw [if_neg hskip, decide_eq_false hskip]
    cases hvt : c.valueType <;> simp [PutCall.tombstone]

/-- The flag is set exactly when the list holds a tombstone. -/
def Consistent (m : MemTableState) : Prop := m.hasRangeDeletions = !m.rangeTombstones.isEmpty

theorem Consistent.put {m : MemTableState} (h : m.Consistent) (c : PutCall) :
    (m.put c.key c.value c.sequence c.valueType c.height).Consistent := by
  unfold Consistent MemTableState.put
  by_cases hskip : c.valueType = .rangeDeletion ∧ c.value ≤ c.key
  · rw [if_pos hskip]
    exact h
  · rw [if_neg hskip]
    cases c.valueType
    · exact h
    · exact h
    · simp

/-- Over a run of puts the list holds the stored range deletions, in order, and the flag says
whether there is one. -/
theorem rangeTombstones_putAll (calls : List PutCall) :
    (putAll calls).rangeTombstones =
        (calls.filter fun c => c.stored && c.valueType == .rangeDeletion).map PutCall.tombstone ∧
      (putAll calls).Consistent := by
  -- the induction is on the calls, from any consistent memtable
  suffices h : ∀ m : MemTableState, m.Consistent →
      (calls.foldl (fun m c => m.put c.key c.value c.sequence c.valueType c.height) m).rangeTombstones =
          m.rangeTombstones ++
            (calls.filter fun c => c.stored && c.valueType == .rangeDeletion).map PutCall.tombstone ∧
        (calls.foldl (fun m c => m.put c.key c.value c.sequence c.valueType c.height) m).Consistent
    from h new rfl
  induction calls with
  | nil => intro m hm; exact ⟨(List.append_nil _).symm, hm⟩
  | cons c calls ih =>
    intro m hm
    obtain ⟨hlist, hcons⟩ := ih _ (hm.put c)
    refine ⟨?_, hcons⟩
    rw [List.foldl_cons, hlist, rangeTombstones_put]
    by_cases hc : (c.stored && c.valueType == .rangeDeletion) = true
    · rw [if_pos hc, List.filter_cons_of_pos (p := fun d : PutCall => d.stored && d.valueType == .rangeDeletion) hc,
        List.map_cons, List.append_assoc]
      rfl
    · rw [if_neg hc, List.filter_cons_of_neg (p := fun d : PutCall => d.stored && d.valueType == .rangeDeletion) hc]

theorem table_putAll (calls : List PutCall) : (putAll calls).table = MemTable.putAll calls := by
  suffices h : ∀ m : MemTableState,
      (calls.foldl (fun m c => m.put c.key c.value c.sequence c.valueType c.height) m).table =
        calls.foldl (fun m c => m.put c.key c.value c.sequence c.valueType c.height) m.table
    from h new
  induction calls with
  | nil => intro m; rfl
  | cons c calls ih =>
    intro m
    rw [List.foldl_cons, ih, table_put]
    rfl

/-- One tombstone raises the scan's answer above `x` exactly when it covers the key, is visible
and is newer than `x`. -/
theorem lt_coverStep_iff {userKey : Bytes} {readSeq maxSeq x : SequenceNumber}
    {rt : MemRangeTombstone} :
    x < coverStep userKey readSeq maxSeq rt ↔
      x < maxSeq ∨ rt.begin ≤ userKey ∧ userKey < rt.«end» ∧ rt.seq ≤ readSeq ∧ x < rt.seq := by
  unfold coverStep
  by_cases hvis : rt.seq > readSeq
  · rw [if_pos hvis]
    constructor
    · exact .inl
    · rintro (h | ⟨-, -, hle, -⟩)
      · exact h
      · exact absurd hle (not_le_of_gt hvis)
  · rw [if_neg hvis]
    by_cases hcov : userKey ≥ rt.begin ∧ userKey < rt.«end» ∧ rt.seq > maxSeq
    · rw [if_pos hcov]
      obtain ⟨hbegin, hend, hnewer⟩ := hcov
      constructor
      · exact fun h => .inr ⟨hbegin, hend, le_of_not_gt hvis, h⟩
      · rintro (h | ⟨-, -, -, h⟩)
        · exact lt_trans h hnewer
        · exact h
    · rw [if_neg hcov]
      constructor
      · exact .inl
      · rintro (h | ⟨hbegin, hend, -, h⟩)
        · exact h
        · exact lt_of_lt_of_le h (le_of_not_gt fun hnewer => hcov ⟨hbegin, hend, hnewer⟩)

theorem lt_foldl_coverStep_iff {userKey : Bytes} {readSeq x : SequenceNumber}
    (ts : List MemRangeTombstone) (init : SequenceNumber) :
    x < ts.foldl (coverStep userKey readSeq) init ↔
      x < init ∨ ∃ rt ∈ ts, rt.begin ≤ userKey ∧ userKey < rt.«end» ∧ rt.seq ≤ readSeq ∧
        x < rt.seq := by
  induction ts generalizing init with
  | nil => simp
  | cons rt ts ih =>
    rw [List.foldl_cons, ih, lt_coverStep_iff]
    simp only [List.mem_cons, exists_eq_or_imp]
    tauto

/-- **The shortcut answers what the scan answers.** On a consistent memtable the answer is above
`x` exactly when a range deletion in the list covers the key, is visible at the read sequence and
is newer than `x`. -/
theorem maxCoveringTombstoneSeq_lt_iff {m : MemTableState} (h : m.Consistent) {userKey : Bytes}
    {readSeq x : SequenceNumber} :
    x < m.maxCoveringTombstoneSeq userKey readSeq ↔
      ∃ rt ∈ m.rangeTombstones, rt.begin ≤ userKey ∧ userKey < rt.«end» ∧ rt.seq ≤ readSeq ∧
        x < rt.seq := by
  unfold maxCoveringTombstoneSeq
  unfold Consistent at h
  cases hflag : m.hasRangeDeletions
  · -- the flag is clear, so the list is empty
    rw [hflag, eq_comm, Bool.not_eq_false', List.isEmpty_iff] at h
    simp [h]
  · rw [if_neg (by simp), lt_foldl_coverStep_iff, or_iff_right (Nat.not_lt_zero x)]

end MemTableState

/-- After a put of `a ↦ v` at sequence 1 and of the range deletion `[a, b)` at sequence 2, level 0
holds the range deletion before the value, and the lookup of `a` at sequence 2 returns the value
at sequence 1. -/
theorem getWithSeq_skips_rangeDeletion :
    ((new.put [97] [118] 1 .value 1).put [97] [98] 2 .rangeDeletion 1).inner.map.collectAll =
      [(⟨(InternalKey.new [97] 2 .rangeDeletion).encoded⟩, [98]),
        (⟨(InternalKey.new [97] 1 .value).encoded⟩, [118])] ∧
    ((new.put [97] [118] 1 .value 1).put [97] [98] 2 .rangeDeletion 1).getWithSeq [97] 2 =
      some (some [118], 1) := by
  decide

end MemTable

end Mmdb
