import Mathlib
import Mmdb.Db.Write
import Mmdb.Wal.Recovery

/-!
# Recovery replays what was written

What `DB::open` rebuilds from the WAL is what the writes put into the memtable. `write_batch_group`
appends `encode_wal_record(first_seq, batch)` for each request that keeps the WAL and puts entry
`i` of the batch at `first_seq + i`; on open, `replay_wal_record` reads such a record back and
makes the same puts at the same sequences, raising `max_sequence` as it goes.

**One record** (`replayWalRecord_encodeWalRecord`): for every batch that passed the checks of
`write_batch_inner`, with sequences up to `MAX_SEQUENCE_NUMBER`, replaying its record from any
state succeeds and makes exactly the batch's puts, in order. The loop is followed entry by entry
(`replayEntries_runs`), each field read back where the encoder wrote it (`readField_runs`).

**The whole log** (`recoverWal_writeGroups`): after any run of group commits from a fresh counter,
with a fresh WAL file the records are appended to, the recovery loop of `DB::open` over that
file replays into the memtable exactly the puts of the requests that kept the WAL, in the order
they were made, and succeeds. The file is read back record by record
(`WalReader.readRecords_log`), so the statement covers the WAL's block format too.

Left out: WAL files other than the one written here, and the rotation that starts a new one when
a memtable is frozen; the tolerance of a torn tail is modelled but never reached, as the file read
is whole.
-/

namespace Mmdb.Db

open Panic Wal

/-- What replaying one entry does to the state: `max_sequence` raised to its sequence, then the
put. -/
def ReplayState.replay (s : ReplayState) (p : Put) : ReplayState :=
  { s with maxSequence := max s.maxSequence p.seq }.put p

/-! ## One record -/

/-- A field the encoder wrote, its `u32` length then its bytes, is read back and stepped over. -/
theorem readField_runs {data field rest : Bytes} {offset : Nat} (hdata : data.length < 2 ^ 63)
    (h : data.drop offset = leBytes 4 field.length ++ (field ++ rest))
    (hfield : field.length < 2 ^ 32) (lengthError fieldError : String) (s : ReplayState) :
    Runs (readField data offset lengthError fieldError) s (.ok (field, offset + 4 + field.length))
      s := by
  obtain ⟨hbound, hlen, hafter⟩ := read_le (by decide) (by simpa using hfield) h
  have hoff : offset + 4 ≤ data.length := by omega
  obtain ⟨hbound', hslice, -⟩ := read_field hafter hoff
  unfold readField
  refine Runs.lift (add_eq (by omega)) (Runs.ite_neg hbound ?_)
  refine Runs.lift (add_eq (by omega)) (Runs.lift (range_add_eq hoff) ?_)
  simp only [hlen]
  refine Runs.lift (add_eq (by omega)) (Runs.lift (add_eq (by omega)) ?_)
  refine Runs.ite_neg hbound' ?_
  refine Runs.lift (add_eq (by omega)) (Runs.lift (range_add_eq (by omega)) ?_)
  rw [hslice]
  exact Runs.lift (add_eq (by omega)) (Runs.pure _ _)

/-- The bytes of an entry after its key: its value with a `u32` length, for a value or a range
deletion. -/
theorem encodeEntry_eq (e : WriteBatchEntry) :
    encodeEntry e = e.valueType.toU8 :: (leBytes 4 e.key.length ++ (e.key ++
      if e.valueType = .value ∨ e.valueType = .rangeDeletion then
        leBytes 4 (e.value.getD []).length ++ e.value.getD []
      else [])) := by
  simp [encodeEntry, List.append_assoc]

/-- One entry of an encoded batch: the loop reads it back, makes its put at `seq + i`, and goes on
after it. -/
theorem replayEntries_step {data rest : Bytes} (hdata : data.length < 2 ^ 63)
    {seq count i offset : Nat} {e : WriteBatchEntry} (hbuilt : e.built = true)
    (hsize : e.key.length < 2 ^ 32 ∧ (e.value.getD []).length < 2 ^ 32)
    (h : data.drop offset = encodeEntry e ++ rest) (hi : i < count)
    (hseq : seq + count ≤ maxSequenceNumber + 1) {s s' : ReplayState} {r : Except Error Unit}
    (hrest : Runs (replayEntries data seq count (i + 1) (offset + (encodeEntry e).length))
      (s.replay (entryPut (seq + i) e)) r s') :
    Runs (replayEntries data seq count i offset) s r s' := by
  have hseq' : seq + count ≤ 2 ^ 56 := by
    unfold maxSequenceNumber at hseq
    omega
  rw [encodeEntry_eq, List.cons_append, List.append_assoc, List.append_assoc] at h
  obtain ⟨hget, hkey, hoff⟩ := tag_of_eq_cons (0 : UInt8) h
  rw [replayEntries, if_pos hi]
  refine Runs.ite_neg (by omega) ?_
  rw [add_eq (by omega)]
  dsimp only
  refine Runs.ite_neg (by omega) ?_
  refine Runs.bind (Runs.modify _ _) ?_
  refine Runs.lift (index_eq hoff 0) (Runs.lift (add_eq (by omega)) ?_)
  refine Runs.bind (readField_runs hdata hkey hsize.1 _ _ _) ?_
  rw [hget, ValueType.fromU8_toU8]
  -- after the key: the value field, if the type has one, then the next entry
  have hafter := drop_add_of_eq_append (drop_add_of_eq_append hkey)
  rw [length_leBytes] at hafter
  have hlength : (encodeEntry e).length = 1 + 4 + e.key.length +
      (if e.valueType = .value ∨ e.valueType = .rangeDeletion then
        4 + (e.value.getD []).length else 0) := by
    rw [encodeEntry_eq]
    split_ifs <;> simp <;> omega
  cases hvt : e.valueType with
  | deletion =>
    have hnone : e.value = none := by
      unfold WriteBatchEntry.built at hbuilt
      rw [hvt] at hbuilt
      cases hv : e.value with
      | none => rfl
      | some v => simp [hv] at hbuilt
    refine Runs.bind (Runs.modify _ _) (Runs.bind (Runs.pure _ _) ?_)
    convert hrest using 2
    · simp [hlength, hvt]
      omega
    · simp [ReplayState.replay, entryPut, ReplayState.put, hvt, hnone]
  | value =>
    simp only [hvt, true_or, if_true, List.append_assoc] at hafter hlength
    refine Runs.bind (readField_runs hdata hafter hsize.2 _ _ _) ?_
    refine Runs.bind (Runs.modify _ _) (Runs.bind (Runs.pure _ _) ?_)
    convert hrest using 2
    · rw [hlength]
      omega
    · simp [ReplayState.replay, entryPut, ReplayState.put, hvt]
  | rangeDeletion =>
    simp only [hvt, or_true, if_true, List.append_assoc] at hafter hlength
    refine Runs.bind (readField_runs hdata hafter hsize.2 _ _ _) ?_
    refine Runs.bind (Runs.modify _ _) (Runs.bind (Runs.pure _ _) ?_)
    convert hrest using 2
    · rw [hlength]
      omega
    · simp [ReplayState.replay, entryPut, ReplayState.put, hvt]

/-- The loop over the entries of an encoded batch, from entry `i`: every entry is read back and put
at its sequence, and the loop ends after the last. -/
theorem replayEntries_runs {data : Bytes} (hdata : data.length < 2 ^ 63) {seq count : Nat}
    (hseq : seq + count ≤ maxSequenceNumber + 1) (es : List WriteBatchEntry)
    (hbuilt : ∀ e ∈ es, e.built = true)
    (hsize : ∀ e ∈ es, e.key.length < 2 ^ 32 ∧ (e.value.getD []).length < 2 ^ 32) :
    ∀ (i offset : Nat) (s : ReplayState), data.drop offset = es.flatMap encodeEntry →
      i + es.length = count →
      Runs (replayEntries data seq count i offset) s (.ok ())
        ((es.mapIdx fun j e => entryPut (seq + i + j) e).foldl ReplayState.replay s) := by
  -- the induction is on the entries left, the offset moving past each one read
  induction es with
  | nil =>
    intro i offset s _ hcount
    rw [List.length_nil, Nat.add_zero] at hcount
    rw [replayEntries, if_neg (by omega)]
    exact Runs.pure _ _
  | cons e es ih =>
    intro i offset s hdrop hcount
    rw [List.length_cons] at hcount
    rw [List.flatMap_cons] at hdrop
    refine replayEntries_step hdata (hbuilt e List.mem_cons_self) (hsize e List.mem_cons_self)
      hdrop (by omega) hseq ?_
    have hrest := ih (fun e he => hbuilt e (List.mem_cons_of_mem _ he))
      (fun e he => hsize e (List.mem_cons_of_mem _ he)) (i + 1) _
      (s.replay (entryPut (seq + i) e)) (drop_add_of_eq_append hdrop) (by omega)
    have hseqs : (fun j e => entryPut (seq + i + (j + 1)) e) =
        fun j e => entryPut (seq + (i + 1) + j) e := by
      funext j e
      congr 1
      show seq + i + (j + 1) = seq + (i + 1) + j
      omega
    rw [List.mapIdx_cons, List.foldl_cons, Nat.add_zero, hseqs]
    exact hrest

theorem getD_length_eq (value : Option Bytes) :
    (value.getD []).length = (value.map List.length).getD 0 := by
  cases value <;> rfl

theorem length_encodeEntry_le (e : WriteBatchEntry) :
    (encodeEntry e).length ≤ 9 + e.key.length + (e.value.map List.length).getD 0 := by
  rw [encodeEntry_eq, ← getD_length_eq]
  split_ifs <;> simp <;> omega

/-- The record of a batch that passed the checks is shorter than `isize::MAX`. -/
theorem length_encodeWalRecord_lt {b : WriteBatch} (hvalid : validateBatch b = .ok ())
    (seq : Nat) : (encodeWalRecord seq b).length < 2 ^ 63 := by
  obtain ⟨hcount, hentries⟩ := validateBatch_bounds hvalid
  have hsum : (b.entries.flatMap encodeEntry).length ≤ b.len * (9 + maxWriteEntrySize) := by
    have hle := List.sum_le_card_nsmul (b.entries.map fun e => (encodeEntry e).length)
      (9 + maxWriteEntrySize) fun n hn => by
        obtain ⟨e, he, rfl⟩ := List.mem_map.mp hn
        have := length_encodeEntry_le e
        have := (hentries e he).2
        omega
    rw [List.length_map, smul_eq_mul] at hle
    rw [List.length_flatMap]
    exact hle
  have hlen : b.len * (9 + maxWriteEntrySize) ≤ u32Max * (9 + maxWriteEntrySize) :=
    Nat.mul_le_mul_right _ hcount
  show (leBytes 8 seq ++ leBytes 4 b.len ++ b.entries.flatMap encodeEntry).length < 2 ^ 63
  rw [List.length_append, List.length_append, length_leBytes, length_leBytes]
  unfold u32Max maxWriteEntrySize at hlen
  unfold maxWriteEntrySize at hsum
  omega

/-- **A batch's WAL record replays into the batch's puts.** For every batch that passed the checks
of `write_batch_inner`, written at a first sequence whose last one is at most
`MAX_SEQUENCE_NUMBER`, replaying its record from any state succeeds and makes exactly the puts
`write_batch_group` made for it, in order, raising `max_sequence` to each. -/
theorem replayWalRecord_encodeWalRecord {b : WriteBatch} (hvalid : validateBatch b = .ok ())
    {seq : Nat} (hseq : seq + b.len ≤ maxSequenceNumber + 1) (s : ReplayState) :
    Runs (replayWalRecord (encodeWalRecord seq b)) s (.ok ())
      ((batchPuts seq b).foldl ReplayState.replay s) := by
  obtain ⟨hcount, hentries⟩ := validateBatch_bounds hvalid
  have hsize : ∀ e ∈ b.entries, e.key.length < 2 ^ 32 ∧ (e.value.getD []).length < 2 ^ 32 := by
    intro e he
    obtain ⟨hkey, hentry⟩ := hentries e he
    rw [← getD_length_eq] at hentry
    unfold maxUserKeySize at hkey
    unfold maxWriteEntrySize at hentry
    omega
  have hdata := length_encodeWalRecord_lt hvalid seq
  have hseq' : seq < 256 ^ 8 := by
    unfold maxSequenceNumber at hseq
    omega
  have hlen : b.len < 256 ^ 4 := by
    unfold u32Max at hcount
    omega
  -- the header: the first sequence, then the count
  have hheader : (encodeWalRecord seq b).drop 0 =
      leBytes 8 seq ++ (leBytes 4 b.len ++ b.entries.flatMap encodeEntry) := by
    simp [encodeWalRecord]
  obtain ⟨-, hseqval, hcountdrop⟩ := read_le (by decide) hseq' hheader
  obtain ⟨-, hcountval, hentriesdrop⟩ := read_le (by decide) hlen hcountdrop
  unfold replayWalRecord
  have hlong : 12 ≤ (encodeWalRecord seq b).length := by
    simp only [encodeWalRecord, List.length_append, length_leBytes]
    omega
  refine Runs.ite_neg (by omega) ?_
  refine Runs.lift (range_eq (by decide) (by omega)) ?_
  refine Runs.lift (range_eq (by decide) (by omega)) ?_
  simp only [Nat.sub_zero, Nat.zero_add] at hseqval hcountval ⊢
  rw [hseqval, show 12 - 8 = 4 from rfl, hcountval]
  have hrun := replayEntries_runs hdata hseq b.entries b.built hsize 0 12 s hentriesdrop (Nat.zero_add _)
  simpa [batchPuts] using hrun

/-! ## The whole log -/

/-- The loop of `DB::open` over one WAL file: `read_record` until it returns nothing, each record
replayed in turn. A read error ends recovery, unless the file is the newest non-empty WAL and the
error is a torn tail, a truncation followed by zero bytes only. The source loops until the reader
returns nothing; `fuel` bounds the calls, and running out of it gives no result. -/
def recoverWalFile (crc : Bytes → UInt32) (isRecoverableTail : Bool) :
    Nat → WalReader → ReplayM Unit
  | 0, _ => monadLift (none : Option Unit)
  | fuel + 1, reader =>
    match reader.readRecord crc with
    | (.ok (some data), reader) => do
      replayWalRecord data
      recoverWalFile crc isRecoverableTail fuel reader
    | (.ok none, _) => pure ()
    | (.error e, reader) =>
      if isRecoverableTail && reader.lastErrorIsTruncation && reader.restIsZeroPadding.1 then
        pure ()
      else throw e

theorem readRecords_succ_fst (crc : Bytes → UInt32) (r : WalReader) (n : Nat) :
    (r.readRecords crc (n + 1)).1 =
      (r.readRecord crc).1 :: ((r.readRecord crc).2.readRecords crc n).1 := rfl

theorem walRecords_eq (assigned : List (WriteRequest × SequenceNumber)) :
    walRecords assigned = (assigned.filter fun a => !a.1.disableWal).map
      fun a => encodeWalRecord a.2 a.1.batch := by
  induction assigned with
  | nil => rfl
  | cons a assigned ih =>
    cases hwal : a.1.disableWal <;> simp [walRecords, hwal, ← ih]

/-- Reading back records that encode batches which passed the checks, the loop replays each in
turn and stops at the end of the log. -/
theorem recoverWalFile_runs (crc : Bytes → UInt32) (isRecoverableTail : Bool) :
    ∀ (logged : List (WriteRequest × SequenceNumber)) (r : WalReader) (s : ReplayState),
      (∀ a ∈ logged, validateBatch a.1.batch = .ok () ∧
        a.1.batch.len + a.2 ≤ maxSequenceNumber + 1) →
      (r.readRecords crc (logged.length + 1)).1 =
        logged.map (fun a => .ok (some (encodeWalRecord a.2 a.1.batch))) ++ [.ok none] →
      Runs (recoverWalFile crc isRecoverableTail (logged.length + 1) r) s (.ok ())
        ((memtablePuts logged).foldl ReplayState.replay s) := by
  intro logged
  induction logged with
  | nil =>
    intro r s _ hread
    rw [readRecords_succ_fst] at hread
    have hfirst : (r.readRecord crc).1 = .ok none := (List.cons.inj hread).1
    rw [recoverWalFile]
    rcases hrecord : r.readRecord crc with ⟨result, r'⟩
    rw [hrecord] at hfirst
    cases hfirst
    exact Runs.pure _ _
  | cons a logged ih =>
    intro r s hlogged hread
    rw [List.length_cons, readRecords_succ_fst] at hread
    obtain ⟨hfirst, hrest⟩ := List.cons.inj hread
    obtain ⟨hvalid, hfits⟩ := hlogged a List.mem_cons_self
    rw [List.length_cons, recoverWalFile]
    rcases hrecord : r.readRecord crc with ⟨result, r'⟩
    rw [hrecord] at hfirst hrest
    cases hfirst
    refine Runs.bind (replayWalRecord_encodeWalRecord hvalid (by omega) s) ?_
    rw [memtablePuts, List.flatMap_cons, ← memtablePuts, List.foldl_append]
    exact ih r' _ (fun a ha => hlogged a (List.mem_cons_of_mem _ ha)) hrest

/-- **Recovery replays what was written.** After any run of group commits from a fresh counter,
every batch having passed the checks of `write_batch_inner`, the recovery loop of `DB::open` over
the WAL file the records were appended to succeeds, and replays into the memtable exactly the puts
the writes made for the requests that kept the WAL, in the order they made them, whether or not
the file is the newest one. -/
theorem recoverWal_writeGroups (crc : Bytes → UInt32) {s₀ : SequenceNumber}
    {groups : List (List WriteRequest)} {st : WriteState}
    (h : (WriteState.mk s₀ []).writeGroups groups = .ok st)
    (hvalid : ∀ g ∈ groups, ∀ r ∈ g, validateBatch r.batch = .ok ())
    (isRecoverableTail : Bool) (s : ReplayState) :
    Runs (recoverWalFile crc isRecoverableTail (st.log.length + 1)
        (WalReader.new (WalWriter.new.addRecords crc st.log).written)) s (.ok ())
      ((memtablePuts (st.written.filter fun a => !a.1.disableWal)).foldl ReplayState.replay s) := by
  have hinv := WriteState.Inv.writeGroups
    ⟨le_rfl, by simp [WriteState.puts, memtablePuts], fun _ h => absurd h List.not_mem_nil⟩ h
  -- every logged request passed the checks, and its sequences fit
  have hlogged : ∀ a ∈ st.written.filter (fun a => !a.1.disableWal),
      validateBatch a.1.batch = .ok () ∧ a.1.batch.len + a.2 ≤ maxSequenceNumber + 1 := by
    intro a ha
    have ha := List.mem_of_mem_filter ha
    refine ⟨?_, hinv.fits a ha⟩
    rcases WriteState.mem_written_writeGroups h a ha with ha' | ⟨g, hg, hag⟩
    · exact absurd ha' List.not_mem_nil
    · exact hvalid g hg a.1 hag
  have hread := (WalReader.readRecords_log crc st.log).1
  rw [WriteState.log, walRecords_eq] at hread ⊢
  rw [List.map_map, List.length_map] at hread
  rw [List.length_map]
  exact recoverWalFile_runs crc isRecoverableTail _ _ s hlogged hread

/-- From counter 5, a put of `a` and a delete of `b`, then a range deletion that skips the WAL:
recovery from an empty memtable puts `a` at 5 and deletes `b` at 6, and does not see the range
deletion. -/
theorem recoverWal_two_groups :
    ∃ st, (WriteState.mk 5 []).writeGroups
        [[⟨(WriteBatch.new.put [97] [49]).delete [98], false⟩],
          [⟨WriteBatch.new.deleteRange [97] [99], true⟩]] = .ok st ∧
      Runs (recoverWalFile (fun _ => 0) false (st.log.length + 1)
          (WalReader.new (WalWriter.new.addRecords (fun _ => 0) st.log).written)) ⟨[], 0⟩ (.ok ())
        ((memtablePuts (st.written.filter fun a => !a.1.disableWal)).foldl ReplayState.replay
          ⟨[], 0⟩) ∧
      (memtablePuts (st.written.filter fun a => !a.1.disableWal)).foldl ReplayState.replay
          ⟨[], 0⟩ = ⟨[⟨[97], [49], 5, .value⟩, ⟨[98], [], 6, .deletion⟩], 6⟩ := by
  have h : (WriteState.mk 5 []).writeGroups
      [[⟨(WriteBatch.new.put [97] [49]).delete [98], false⟩],
        [⟨WriteBatch.new.deleteRange [97] [99], true⟩]] =
      .ok ⟨8, [(⟨(WriteBatch.new.put [97] [49]).delete [98], false⟩, 5),
        (⟨WriteBatch.new.deleteRange [97] [99], true⟩, 7)]⟩ := rfl
  exact ⟨_, h, recoverWal_writeGroups (fun _ => 0) h (by decide) false ⟨[], 0⟩, rfl⟩

end Mmdb.Db
