import Mathlib
import Mmdb.Db.WalReplay

/-!
# The write path: batches, their WAL records and their memtable puts

`WriteBatch` of `src/types.rs` and the write path of `src/db.rs`. A batch is built by `put`,
`delete` and `delete_range`, the last of which drops an empty or inverted range; the entries
carry what their builder put in them (`WriteBatchEntry.built`), so that a batch that breaks it
cannot be built. `write_batch_inner` drops range deletions without an end key above the begin key
again (`elideEmptyRangeDeletes`), returns at once for an empty batch and checks the entry count
and the size of each entry (`validateBatch`) before the batch is queued. The leader's
`write_batch_group` hands the group's requests consecutive sequences from the counter
(`writeBatchGroup`), appends one record (`encodeWalRecord`) for each request that keeps the WAL,
and puts every entry into the memtable at its sequence (`memtablePuts`).

The write side of the database is the sequence counter and the requests applied so far, each with
its first sequence (`WriteState`): the WAL holds the records of those that kept it, the memtable
the puts of all of them.

**Sequences are handed out in order** (`WriteState.Inv`, `writeGroups_inv`): over any run of
groups from a counter `s₀`, the memtable puts carry exactly the sequences `s₀, s₀ + 1, ...` below
the counter, in order, none above `MAX_SEQUENCE_NUMBER`; so two writes never share a sequence and
a later write always has the larger one.

Left out: the group commit queue and its condition variable (the leader is the one that runs the
group), WAL sync and flush, I/O errors of the WAL writer, write stalls and throttling, statistics,
and the memtable flush a full memtable triggers.
-/

namespace Mmdb.Db

/-- `MAX_USER_KEY_SIZE`. -/
def maxUserKeySize : Nat := 8 * 1024 * 1024

/-- `MAX_WRITE_ENTRY_SIZE`. -/
def maxWriteEntrySize : Nat := 64 * 1024 * 1024 - 64 - 8

/-- `u32::MAX`. -/
def u32Max : Nat := 2 ^ 32 - 1

/-! ## Batches -/

/-- `WriteBatchEntry`. -/
structure WriteBatchEntry where
  valueType : ValueType
  key : Bytes
  value : Option Bytes
  deriving DecidableEq, Repr

/-- What a builder method of `WriteBatch` puts in an entry: a value for a put, none for a delete,
and for a range deletion an end key above the begin key. -/
def WriteBatchEntry.built (e : WriteBatchEntry) : Bool :=
  match e.valueType, e.value with
  | .value, some _ => true
  | .deletion, none => true
  | .rangeDeletion, some «end» => decide (e.key < «end»)
  | _, _ => false

/-- `WriteBatch`: its entries, in order, each as a builder method made it. -/
structure WriteBatch where
  entries : List WriteBatchEntry
  built : ∀ e ∈ entries, e.built = true

namespace WriteBatch

/-- `WriteBatch::new`. -/
def new : WriteBatch := ⟨[], fun _ h => absurd h List.not_mem_nil⟩

/-- `self.entries.push(entry)`. -/
def push (b : WriteBatch) (e : WriteBatchEntry) (h : e.built = true) : WriteBatch :=
  ⟨b.entries ++ [e], fun e' he' => by
    rcases List.mem_append.mp he' with he' | he'
    · exact b.built e' he'
    · rw [List.mem_singleton.mp he']
      exact h⟩

/-- `WriteBatch::put`. -/
def put (b : WriteBatch) (key value : Bytes) : WriteBatch := b.push ⟨.value, key, some value⟩ rfl

/-- `WriteBatch::delete`. -/
def delete (b : WriteBatch) (key : Bytes) : WriteBatch := b.push ⟨.deletion, key, none⟩ rfl

/-- `WriteBatch::delete_range`: nothing for an empty or inverted range. -/
def deleteRange (b : WriteBatch) (begin «end» : Bytes) : WriteBatch :=
  if h : begin ≥ «end» then b
  else b.push ⟨.rangeDeletion, begin, some «end»⟩ (decide_eq_true (lt_of_not_ge h))

/-- `WriteBatch::is_empty`. -/
def isEmpty (b : WriteBatch) : Bool := b.entries.isEmpty

/-- `WriteBatch::len`. -/
def len (b : WriteBatch) : Nat := b.entries.length

end WriteBatch

/-! ## `write_batch_inner` up to the queue -/

/-- The test of the `retain` of `write_batch_inner`: a range deletion whose end key is missing or
not above its begin key. -/
def WriteBatchEntry.emptyRangeDelete (e : WriteBatchEntry) : Bool :=
  e.valueType == .rangeDeletion && e.value.all fun «end» => decide (e.key ≥ «end»)

/-- The `retain` of `write_batch_inner`. -/
def elideEmptyRangeDeletes (b : WriteBatch) : WriteBatch :=
  ⟨b.entries.filter fun e => !e.emptyRangeDelete, fun e he => b.built e (List.mem_of_mem_filter he)⟩

/-- The checks `write_batch_inner` makes before a batch is queued: the entry count fits the
record's `u32`, and every key and every entry has an allowed size. -/
def validateBatch (b : WriteBatch) : Except Error Unit := do
  let count := b.entries.length
  if count > u32Max then
    throw (.invalidArgument
      s!"write batch entry count {count} exceeds the WAL record maximum {u32Max}")
  b.entries.forM fun entry => do
    let keyLen := entry.key.length
    if keyLen > maxUserKeySize then
      throw (.invalidArgument s!"key size {keyLen} exceeds maximum {maxUserKeySize}")
    let valLen := (entry.value.map List.length).getD 0
    if keyLen + valLen > maxWriteEntrySize then
      let size := keyLen + valLen
      throw (.invalidArgument
        s!"entry size {size} (key + value) exceeds maximum {maxWriteEntrySize}")

/-- `write_batch_inner` up to the queue: the batch to queue, `none` when nothing is left to
write, or the error of a check. -/
def prepareBatch (batch : WriteBatch) : Except Error (Option WriteBatch) := do
  let batch := elideEmptyRangeDeletes batch
  if batch.isEmpty then return none
  validateBatch batch
  return some batch

/-! ## The WAL record of a batch -/

/-- One entry of `DB::encode_wal_record`: the type byte, the key with its `u32` length, and for a
value or a range deletion the value with its `u32` length, empty when there is none. -/
def encodeEntry (e : WriteBatchEntry) : Bytes :=
  [e.valueType.toU8] ++ leBytes 4 e.key.length ++ e.key ++
    if e.valueType = .value ∨ e.valueType = .rangeDeletion then
      leBytes 4 (e.value.getD []).length ++ e.value.getD []
    else []

/-- `DB::encode_wal_record`: the first sequence as a `u64`, the entry count as a `u32`, then the
entries. -/
def encodeWalRecord (sequence : SequenceNumber) (batch : WriteBatch) : Bytes :=
  leBytes 8 sequence ++ leBytes 4 batch.len ++ batch.entries.flatMap encodeEntry

/-! ## `write_batch_group` -/

/-- `WriteRequest`: a queued batch and whether it skips the WAL. -/
structure WriteRequest where
  batch : WriteBatch
  disableWal : Bool

/-- The `mem.put` the leader makes for an entry at sequence `seq`. -/
def entryPut (seq : SequenceNumber) (e : WriteBatchEntry) : Put :=
  ⟨e.key, e.value.getD [], seq, e.valueType⟩

/-- The memtable puts of one batch: entry `i` at `first_seq + i`. -/
def batchPuts (firstSeq : SequenceNumber) (batch : WriteBatch) : List Put :=
  batch.entries.mapIdx fun i e => entryPut (firstSeq + i) e

/-- The first loop of `write_batch_group`: each request's first sequence, from `next_seq`. -/
def assignSequences (nextSeq : SequenceNumber) : List WriteRequest → List (WriteRequest × SequenceNumber)
  | [] => []
  | r :: rs => (r, nextSeq) :: assignSequences (nextSeq + r.batch.len) rs

/-- The WAL records the first loop appends: one for each request that keeps the WAL. -/
def walRecords (assigned : List (WriteRequest × SequenceNumber)) : List Bytes :=
  assigned.filterMap fun a => if !a.1.disableWal then some (encodeWalRecord a.2 a.1.batch) else none

/-- The memtable puts of the second loop, request after request. -/
def memtablePuts (assigned : List (WriteRequest × SequenceNumber)) : List Put :=
  assigned.flatMap fun a => batchPuts a.2 a.1.batch

/-- `write_batch_group` from the counter `sequence`: the counter after it and the requests with
their first sequences, or the error when the sequences would run out. -/
def writeBatchGroup (sequence : SequenceNumber) (group : List WriteRequest) :
    Except Error (SequenceNumber × List (WriteRequest × SequenceNumber)) :=
  let totalOps := (group.map (·.batch.len)).sum
  if totalOps = 0 then .ok (sequence, [])
  -- `first_group_seq.checked_add(total_ops)`, then `checked_sub(1)`, which cannot fail here
  else if sequence + totalOps ≥ 2 ^ 64 then
    .error (.invalidArgument "sequence number space exhausted")
  else
    let lastGroupSeq := sequence + totalOps - 1
    if lastGroupSeq > maxSequenceNumber then
      .error (.invalidArgument "sequence number space exhausted")
    else .ok (lastGroupSeq + 1, assignSequences sequence group)

/-- The write side of the database: the sequence counter, and every request applied so far with
its first sequence, in order. -/
structure WriteState where
  sequence : SequenceNumber
  written : List (WriteRequest × SequenceNumber)

namespace WriteState

/-- The records appended to the WAL. -/
def log (st : WriteState) : List Bytes := walRecords st.written

/-- The puts made into the memtable. -/
def puts (st : WriteState) : List Put := memtablePuts st.written

/-- A group written by the leader. -/
def writeGroup (st : WriteState) (group : List WriteRequest) : Except Error WriteState := do
  let (sequence, assigned) ← writeBatchGroup st.sequence group
  pure ⟨sequence, st.written ++ assigned⟩

/-- A run of groups; the first error ends it. -/
def writeGroups (st : WriteState) (groups : List (List WriteRequest)) : Except Error WriteState :=
  groups.foldlM writeGroup st

end WriteState

/-! ## What the checks guarantee -/

/-- A batch that passed the checks has fewer than `2^32` entries, and keys and values shorter
than `2^32` bytes. -/
theorem validateBatch_bounds {b : WriteBatch} (h : validateBatch b = .ok ()) :
    b.len ≤ u32Max ∧ ∀ e ∈ b.entries,
      e.key.length ≤ maxUserKeySize ∧ e.key.length + (e.value.map List.length).getD 0 ≤ maxWriteEntrySize := by
  unfold validateBatch at h
  obtain ⟨hcount, h⟩ := Except.ite_throw_bind_eq_ok h
  refine ⟨Nat.le_of_not_gt hcount, fun e he => ?_⟩
  have hentry := Except.forM_eq_ok.mp h e he
  obtain ⟨hkey, hentry⟩ := Except.ite_throw_bind_eq_ok hentry
  refine ⟨Nat.le_of_not_gt hkey, Nat.le_of_not_gt fun hsize => ?_⟩
  rw [if_pos hsize] at hentry
  cases hentry

/-! ## Sequences over runs of groups -/

theorem seqs_batchPuts (firstSeq : SequenceNumber) (b : WriteBatch) :
    (batchPuts firstSeq b).map (·.seq) = List.range' firstSeq b.len := by
  apply List.ext_getElem
  · simp [batchPuts, WriteBatch.len]
  · intro i h₁ h₂
    simp [batchPuts, entryPut]

theorem seqs_assignSequences (nextSeq : SequenceNumber) (group : List WriteRequest) :
    (memtablePuts (assignSequences nextSeq group)).map (·.seq) =
      List.range' nextSeq (group.map (·.batch.len)).sum := by
  induction group generalizing nextSeq with
  | nil => rfl
  | cons r rs ih =>
    rw [assignSequences, memtablePuts, List.flatMap_cons, ← memtablePuts, List.map_append, ih,
      seqs_batchPuts, List.map_cons, List.sum_cons, List.range'_append_1]

theorem mem_assignSequences {nextSeq : SequenceNumber} {group : List WriteRequest}
    {a : WriteRequest × SequenceNumber} (h : a ∈ assignSequences nextSeq group) :
    a.1 ∈ group ∧ a.1.batch.len + a.2 ≤ nextSeq + (group.map (·.batch.len)).sum := by
  induction group generalizing nextSeq with
  | nil => cases h
  | cons r rs ih =>
    rcases List.mem_cons.mp h with rfl | h
    · refine ⟨List.mem_cons_self, ?_⟩
      simp only [List.map_cons, List.sum_cons]
      omega
    · obtain ⟨hmem, hle⟩ := ih h
      refine ⟨List.mem_cons_of_mem _ hmem, ?_⟩
      simp only [List.map_cons, List.sum_cons]
      omega

/-- A group the leader writes takes the next `total_ops` sequences from the counter, and none of
them is above `MAX_SEQUENCE_NUMBER`. -/
theorem writeBatchGroup_eq_ok {sequence sequence' : SequenceNumber} {group : List WriteRequest}
    {assigned : List (WriteRequest × SequenceNumber)}
    (h : writeBatchGroup sequence group = .ok (sequence', assigned)) :
    sequence' = sequence + (group.map (·.batch.len)).sum ∧
      (memtablePuts assigned).map (·.seq) =
        List.range' sequence (group.map (·.batch.len)).sum ∧
      ∀ a ∈ assigned, a.1 ∈ group ∧ a.1.batch.len + a.2 ≤ maxSequenceNumber + 1 := by
  unfold writeBatchGroup at h
  by_cases hzero : (group.map (·.batch.len)).sum = 0
  · rw [if_pos hzero] at h
    cases h
    simp [hzero, memtablePuts]
  · rw [if_neg hzero] at h
    by_cases hwrap : sequence + (group.map (·.batch.len)).sum ≥ 2 ^ 64
    · rw [if_pos hwrap] at h
      cases h
    · rw [if_neg hwrap] at h
      dsimp only at h
      by_cases hmax : sequence + (group.map (·.batch.len)).sum - 1 > maxSequenceNumber
      · rw [if_pos hmax] at h
        cases h
      · rw [if_neg hmax] at h
        cases h
        refine ⟨?_, seqs_assignSequences sequence group, fun a ha => ?_⟩
        · unfold SequenceNumber at *
          omega
        · obtain ⟨hmem, hle⟩ := mem_assignSequences ha
          refine ⟨hmem, ?_⟩
          unfold SequenceNumber at *
          omega

namespace WriteState

/-- What the write side keeps over any run from a counter `s₀`: the memtable puts carry the
sequences `s₀, s₀ + 1, ...` below the counter, in order, none above `MAX_SEQUENCE_NUMBER`. -/
structure Inv (s₀ : SequenceNumber) (st : WriteState) : Prop where
  start_le : s₀ ≤ st.sequence
  seqs_eq : st.puts.map (·.seq) = List.range' s₀ (st.sequence - s₀)
  fits : ∀ a ∈ st.written, a.1.batch.len + a.2 ≤ maxSequenceNumber + 1

theorem puts_mk_append (st : WriteState) (sequence : SequenceNumber)
    (assigned : List (WriteRequest × SequenceNumber)) :
    (WriteState.mk sequence (st.written ++ assigned)).puts = st.puts ++ memtablePuts assigned := by
  simp [puts, memtablePuts]

theorem Inv.writeGroup {s₀ : SequenceNumber} {st st' : WriteState} {group : List WriteRequest}
    (hinv : st.Inv s₀) (h : st.writeGroup group = .ok st') : st'.Inv s₀ := by
  obtain ⟨⟨sequence, assigned⟩, hgroup, hst'⟩ := Except.bind_eq_ok.mp h
  cases hst'
  obtain ⟨hsequence, hseqs, hfits⟩ := writeBatchGroup_eq_ok hgroup
  obtain ⟨k, hk⟩ := Nat.exists_eq_add_of_le hinv.start_le
  refine ⟨?_, ?_, fun a ha => ?_⟩
  · show s₀ ≤ sequence
    rw [hsequence, hk, Nat.add_assoc]
    exact Nat.le_add_right _ _
  · show (WriteState.mk sequence (st.written ++ assigned)).puts.map (·.seq) =
      List.range' s₀ (sequence - s₀)
    rw [puts_mk_append, List.map_append, hinv.seqs_eq, hseqs, hsequence, hk,
      Nat.add_sub_cancel_left, Nat.add_assoc, Nat.add_sub_cancel_left, List.range'_append_1]
  · rcases List.mem_append.mp ha with ha | ha
    · exact hinv.fits a ha
    · exact (hfits a ha).2

theorem Inv.writeGroups {s₀ : SequenceNumber} {groups : List (List WriteRequest)} :
    ∀ {st st' : WriteState}, st.Inv s₀ → st.writeGroups groups = .ok st' → st'.Inv s₀ := by
  induction groups with
  | nil =>
    intro st st' hinv h
    cases h
    exact hinv
  | cons group groups ih =>
    intro st st' hinv h
    obtain ⟨mid, hmid, hrest⟩ := Except.foldlM_cons_eq_ok.mp h
    exact ih (hinv.writeGroup hmid) hrest

/-- Every request a run has written was in one of its groups. -/
theorem mem_written_writeGroups {groups : List (List WriteRequest)} :
    ∀ {st st' : WriteState}, st.writeGroups groups = .ok st' →
      ∀ a ∈ st'.written, a ∈ st.written ∨ ∃ g ∈ groups, a.1 ∈ g := by
  induction groups with
  | nil =>
    intro st st' h a ha
    cases h
    exact .inl ha
  | cons group groups ih =>
    intro st st' h a ha
    obtain ⟨mid, hmid, hrest⟩ := Except.foldlM_cons_eq_ok.mp h
    obtain ⟨⟨sequence, assigned⟩, hgroup, hmid'⟩ := Except.bind_eq_ok.mp hmid
    cases hmid'
    rcases ih hrest a ha with ha | ⟨g, hg, hag⟩
    · rcases List.mem_append.mp ha with ha | ha
      · exact .inl ha
      · exact .inr ⟨group, List.mem_cons_self, ((writeBatchGroup_eq_ok hgroup).2.2 a ha).1⟩
    · exact .inr ⟨g, List.mem_cons_of_mem _ hg, hag⟩

end WriteState

end Mmdb.Db
