import Mmdb.Sst.Filter

/-!
# Building a table: the keys it is given

`TableBuilder` of `src/sst/table_builder.rs` as far as its keys go. `add` decodes the key (in
`internal_keys` mode), asserts that it sorts above the last key added, records the smallest and
largest keys, and sends a range deletion to the range-deletion block and every other entry to the
data blocks; `finish` reports the bounds and the range tombstones as `TableBuildResult`.

The lemmas say what the check accepts (`checkKey_eq_ok`, `checkKey_eq_none`) and what `add`
records (`record_dataEntries`, `record_rangeDelEntries`); the loop of a compaction uses them to
show that the keys it adds pass the check and what its tables hold.

Not modelled: the bytes of the file. The size limits of `add` (entry, index block, range-deletion
block and filters) and the data-block flushes it makes may fail, and `finish` writes the blocks and
reports the size of the file; both are the parameters of `TableIo`, as is `projected_meta_size`.
The block property collectors are not modelled.
-/

namespace Mmdb

/-- `TableBuilder`, as far as its keys go: the last key added, the bounds, the range deletions
and the entries of the data blocks, in the order they were added. -/
structure TableBuilder where
  options : TableBuildOptions
  lastKey : Bytes
  smallestKey : Option Bytes
  largestKey : Option Bytes
  hasRangeDeletions : Bool
  rangeDelEntries : List (Bytes × Bytes)
  dataEntries : List (Bytes × Bytes)

/-- What building a table does that the model does not compute: creating the file of a number,
the size limits and block flushes of `add`, `projected_meta_size`, and the writes of `finish`,
which report the size of the file. -/
structure TableIo where
  create : Nat → Result Unit
  add : TableBuilder → Bytes → Bytes → Result Unit
  projectedMetaSize : TableBuilder → Nat
  finish : TableBuilder → Result Nat

/-- `TableBuildResult`. -/
structure TableBuildResult where
  fileSize : Nat
  smallestKey : Option Bytes
  largestKey : Option Bytes
  hasRangeDeletions : Bool
  rangeTombstones : List (Bytes × Bytes)

namespace TableBuilder

/-- `TableBuilder::new`, once its file is created. -/
def new (options : TableBuildOptions) : TableBuilder := ⟨options, [], none, none, false, [], []⟩

/-- The start of `add`: in `internal_keys` mode the key is decoded and the assertion compares
internal keys, otherwise bytes. `none` when the assertion fails (a panic); otherwise the value type
of an internal key. -/
def checkKey (b : TableBuilder) (key : Bytes) : Option (Result (Option ValueType)) :=
  if b.options.internalKeys then
    match decodeInternalKey key with
    | .error e => some (.error e)
    | .ok (_, _, vt) =>
      if b.lastKey.isEmpty || compareInternalKey key b.lastKey == .gt then some (.ok (some vt))
      else none
  else if b.lastKey.isEmpty || decide (key > b.lastKey) then some (.ok none)
  else none

/-- What `add` records of an entry it accepts. -/
def record (b : TableBuilder) (internalVt : Option ValueType) (key value : Bytes) : TableBuilder :=
  let b := { b with
    smallestKey := b.smallestKey.or (some key)
    largestKey := some key
    lastKey := key }
  if internalVt = some .rangeDeletion then
    { b with hasRangeDeletions := true, rangeDelEntries := b.rangeDelEntries ++ [(key, value)] }
  else { b with dataEntries := b.dataEntries ++ [(key, value)] }

/-- `add`: `none` when the order assertion fails. -/
def add (io : TableIo) (b : TableBuilder) (key value : Bytes) : Option (Result TableBuilder) :=
  match b.checkKey key with
  | none => none
  | some (.error e) => some (.error e)
  | some (.ok internalVt) =>
    match io.add b key value with
    | .error e => some (.error e)
    | .ok () => some (.ok (b.record internalVt key value))

/-- `finish`: the range tombstones are reported as user-key extents. -/
def finish (io : TableIo) (b : TableBuilder) : Result TableBuildResult := do
  let fileSize ← io.finish b
  pure ⟨fileSize, b.smallestKey, b.largestKey, b.hasRangeDeletions,
    b.rangeDelEntries.map fun (key, «end») => (userKey key, «end»)⟩

variable {io : TableIo} {b b' : TableBuilder} {key value : Bytes}

/-- An `add` that succeeds passed the key check and recorded the entry. -/
theorem add_eq_ok (h : b.add io key value = some (.ok b')) :
    ∃ vt, b.checkKey key = some (.ok vt) ∧ b' = b.record vt key value := by
  unfold add at h
  split at h
  · cases h
  · cases h
  · rename_i vt _
    split at h
    · cases h
    · cases h
      exact ⟨vt, ‹_›, rfl⟩

/-- In `internal_keys` mode, the check of a key that decodes fails only on the order. -/
theorem checkKey_eq_none (hmode : b.options.internalKeys = true) {u : Bytes}
    {seq : SequenceNumber} {vt : ValueType} (hdec : decodeInternalKey key = .ok (u, seq, vt))
    (h : b.checkKey key = none) : b.lastKey ≠ [] ∧ compareInternalKey key b.lastKey ≠ .gt := by
  unfold checkKey at h
  rw [if_pos hmode, hdec] at h
  by_contra hne
  rw [not_and_or, not_not, not_not] at hne
  simp only at h
  rcases hne with hnil | hgt
  · simp [hnil] at h
  · simp [hgt] at h

/-- In `internal_keys` mode, a key that passes the check gives its own value type. -/
theorem checkKey_eq_ok (hmode : b.options.internalKeys = true) {u : Bytes} {seq : SequenceNumber}
    {vt : ValueType} (hdec : decodeInternalKey key = .ok (u, seq, vt)) {vt' : Option ValueType}
    (h : b.checkKey key = some (.ok vt')) : vt' = some vt := by
  unfold checkKey at h
  rw [if_pos hmode, hdec] at h
  dsimp only at h
  split_ifs at h
  cases h
  rfl

/-- `add` panics only in the check of the key. -/
theorem checkKey_eq_none_of_add (h : b.add io key value = none) : b.checkKey key = none := by
  unfold add at h
  split at h
  · assumption
  · cases h
  · split at h <;> cases h

@[simp] theorem record_options (vt : Option ValueType) : (b.record vt key value).options = b.options := by
  unfold record
  split <;> rfl

@[simp] theorem record_lastKey (vt : Option ValueType) : (b.record vt key value).lastKey = key := by
  unfold record
  split <;> rfl

@[simp] theorem record_smallestKey (vt : Option ValueType) :
    (b.record vt key value).smallestKey = b.smallestKey.or (some key) := by
  unfold record
  split <;> rfl

@[simp] theorem record_largestKey (vt : Option ValueType) :
    (b.record vt key value).largestKey = some key := by
  unfold record
  split <;> rfl

theorem record_dataEntries (vt : Option ValueType) :
    (b.record vt key value).dataEntries =
      b.dataEntries ++ if vt = some .rangeDeletion then [] else [(key, value)] := by
  unfold record
  split <;> simp_all

theorem record_rangeDelEntries (vt : Option ValueType) :
    (b.record vt key value).rangeDelEntries =
      b.rangeDelEntries ++ if vt = some .rangeDeletion then [(key, value)] else [] := by
  unfold record
  split <;> simp_all

end TableBuilder

end Mmdb
