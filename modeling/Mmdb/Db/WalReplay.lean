import Mathlib
import Mmdb.Types
import Mmdb.Lib.LittleEndian
import Mmdb.Lib.Panic
import Mmdb.Sst.BlockChecked
import Mmdb.Sst.FormatChecked
import Mmdb.Manifest.EditChecked

/-!
# Replaying a WAL record into the memtable

`DB::replay_wal_record` of `src/db.rs`. A record is the sequence of its first entry (`u64`), the
count of its entries (`u32`), then the entries: a value type byte, a key with a `u32` length, and
for a value or a range deletion a second field with a `u32` length. Entry `i` is put into the
memtable at sequence `seq + i`, after `max_sequence` has been raised to it.

The memtable is modelled by the inserts made into it, in order (`Put`), and the function runs
with `mem` and `max_sequence` as its state: an error keeps what was inserted before it, as the
source's `mem` does. Every slice, index and `usize` addition is an operation that can panic
(`Mmdb.Lib.Panic`); `seq.checked_add(i)` is an addition whose overflow is an error.

**What is proved** (`replayWalRecord_keeps`): on any slice and from any state, replaying does not
panic, and what it inserts is appended to what the memtable held, each entry at a sequence at
most `MAX_SEQUENCE_NUMBER`; `max_sequence` only rises. The loop keeps its offset inside the data
from one entry to the next (`replayEntries_keeps`).

**Every decoder of untrusted bytes** (`decoders_never_panic`): on any byte slice, `Block::new`
and every way of reading the block it returns, the two entry decoders, the index value decoder,
`VersionEdit::decode` and `replay_wal_record` run without a panic, each returning what its total
model returns.
-/

namespace Mmdb.Db

open Panic

/-- `mem.put(key, value, seq, vt)`. -/
structure Put where
  key : Bytes
  value : Bytes
  seq : SequenceNumber
  valueType : ValueType

/-- What replaying changes: the memtable's inserts, in order, and `max_sequence`. -/
structure ReplayState where
  puts : List Put
  maxSequence : SequenceNumber

/-- The state after `mem.put`. -/
def ReplayState.put (s : ReplayState) (p : Put) : ReplayState := { s with puts := s.puts ++ [p] }

/-- Replaying: `none` is a panic, and an error keeps the state reached. -/
abbrev ReplayM := ExceptT Error (StateT ReplayState Option)

/-- A field of an entry at `offset`, read as the key, the value and the end key are: a `u32`
length, then the bytes; the two errors are the source's for that field. -/
def readField (data : Bytes) (offset : Nat) (lengthError fieldError : String) :
    ReplayM (Bytes × Nat) := do
  if (← add 64 offset 4) > data.length then throw (.corruption lengthError)
  let len := leValue (← range data offset (← add 64 offset 4))
  let offset ← add 64 offset 4
  if (← add 64 offset len) > data.length then throw (.corruption fieldError)
  let field ← range data offset (← add 64 offset len)
  pure (field, ← add 64 offset len)

/-- The loop of `replay_wal_record` from entry `i`, at `offset`. -/
def replayEntries (data : Bytes) (seq count i offset : Nat) : ReplayM Unit :=
  if i < count then do
    if offset ≥ data.length then
      throw (.corruption s!"WAL record truncated at entry {i}/{count}")
    let some entrySeq := add 64 seq i
      | throw (.corruption "WAL record sequence number overflow")
    if entrySeq > maxSequenceNumber then
      throw (.corruption s!"WAL record sequence {entrySeq} exceeds max {maxSequenceNumber}")
    modify fun s => { s with maxSequence := max s.maxSequence entrySeq }
    let vt ← (index data offset : Option UInt8)
    let offset ← add 64 offset 1
    let (key, offset) ← readField data offset
      s!"WAL record truncated reading key length at entry {i}"
      s!"WAL record truncated reading key at entry {i}"
    let offset ← match ValueType.fromU8 vt with
      | some .value => do
        let (value, offset) ← readField data offset
          s!"WAL record truncated reading value length at entry {i}"
          s!"WAL record truncated reading value at entry {i}"
        modify (·.put ⟨key, value, entrySeq, .value⟩)
        pure offset
      | some .deletion => do
        modify (·.put ⟨key, [], entrySeq, .deletion⟩)
        pure offset
      | some .rangeDeletion => do
        let (value, offset) ← readField data offset
          s!"WAL record truncated reading range-del end key length at entry {i}"
          s!"WAL record truncated reading range-del end key at entry {i}"
        modify (·.put ⟨key, value, entrySeq, .rangeDeletion⟩)
        pure offset
      | none => throw (.corruption s!"WAL record contains unknown value type {vt} at entry {i}")
    replayEntries data seq count (i + 1) offset
  else pure ()
termination_by count - i

/-- `DB::replay_wal_record`. -/
def replayWalRecord (data : Bytes) : ReplayM Unit := do
  let len := data.length
  if data.length < 12 then throw (.corruption s!"WAL record too short: {len} bytes")
  let seq := leValue (← range data 0 8)
  let count := leValue (← range data 8 12)
  replayEntries data seq count 0 12

/-! ## No panic, and only entries in range -/

/-- What replaying from `s₀` keeps: the memtable holds what it held, then inserts whose sequence
is at most `MAX_SEQUENCE_NUMBER`; `max_sequence` has not fallen. -/
structure Inserted (s₀ s : ReplayState) : Prop where
  puts_eq : ∃ new, s.puts = s₀.puts ++ new ∧ ∀ p ∈ new, p.seq ≤ maxSequenceNumber
  maxSequence_le : s₀.maxSequence ≤ s.maxSequence

namespace Inserted

variable {s₀ s : ReplayState}

theorem refl (s : ReplayState) : Inserted s s := ⟨⟨[], by simp, by simp⟩, le_refl _⟩

theorem raise (h : Inserted s₀ s) (e : SequenceNumber) :
    Inserted s₀ { s with maxSequence := max s.maxSequence e } :=
  ⟨h.puts_eq, le_trans h.maxSequence_le (le_max_left _ _)⟩

theorem put (h : Inserted s₀ s) {p : Put} (hp : p.seq ≤ maxSequenceNumber) : Inserted s₀ (s.put p) := by
  obtain ⟨new, hputs, hnew⟩ := h.puts_eq
  refine ⟨⟨new ++ [p], by simp [ReplayState.put, hputs], fun q hq => ?_⟩, h.maxSequence_le⟩
  rcases List.mem_append.mp hq with hq | hq
  · exact hnew q hq
  · rw [List.mem_singleton.mp hq]
    exact hp

end Inserted

variable {s₀ : ReplayState} {data : Bytes}

/-- A field read from inside the data does not panic, and ends inside the data. -/
theorem readField_keeps (hlen : data.length < 2 ^ 63) {offset : Nat} (hoff : offset ≤ data.length)
    (lengthError fieldError : String) :
    Keeps (Inserted s₀) (readField data offset lengthError fieldError) fun r => r.2 ≤ data.length := by
  unfold readField
  have hfield := leValue_slice_lt data offset 4
  refine Keeps.lift (add_eq (by omega)) ?_
  refine Keeps.ite (fun _ => Keeps.throw_bind _ _) fun hlength => ?_
  refine Keeps.lift (add_eq (by omega)) (Keeps.lift (range_add_eq (by omega)) ?_)
  refine Keeps.lift (add_eq (by omega)) (Keeps.lift (add_eq (by omega)) ?_)
  refine Keeps.ite (fun _ => Keeps.throw_bind _ _) fun hend => ?_
  refine Keeps.lift (add_eq (by omega)) (Keeps.lift (range_add_eq (by omega)) ?_)
  exact Keeps.lift (add_eq (by omega)) (Keeps.pure (by omega))

/-- The loop, from an offset inside the data, does not panic and inserts only entries whose
sequence passed the check. -/
theorem replayEntries_keeps (hlen : data.length < 2 ^ 63) (seq count : Nat) :
    ∀ i offset, offset ≤ data.length →
      Keeps (Inserted s₀) (replayEntries data seq count i offset) fun _ => True := by
  intro i offset
  induction i, offset using replayEntries.induct data seq count with
  | case1 i offset hi hend _ =>
    intro _
    rw [replayEntries, if_pos hi]
    exact Keeps.ite (fun _ => Keeps.throw_bind _ _) fun h => absurd hend h
  | case2 i offset hi hinside ih =>
    intro _
    rw [replayEntries, if_pos hi]
    refine Keeps.ite (fun h => absurd h hinside) fun _ => ?_
    -- the entry's sequence: an overflow or a sequence past the maximum is an error
    split
    · rename_i entrySeq _
      refine Keeps.ite (fun _ => Keeps.throw_bind _ _) fun hmax => ?_
      have hseq : entrySeq ≤ maxSequenceNumber := Nat.le_of_not_gt hmax
      refine Keeps.bind (Keeps.modify fun s hs => hs.raise entrySeq) fun _ _ => ?_
      refine Keeps.lift (index_eq (by omega) 0) (Keeps.lift (add_eq (by omega)) ?_)
      refine Keeps.bind (readField_keeps hlen (by omega) _ _) fun ⟨key, offset⟩ hkey => ?_
      -- the value type: a value or an end key is read, the entry is put, and the loop goes on
      dsimp only
      split
      · exact Keeps.bind (readField_keeps hlen hkey _ _) fun ⟨_, offset⟩ hvalue =>
          Keeps.bind (Keeps.modify fun s hs => hs.put hseq) fun _ _ => ih offset hvalue
      · exact Keeps.bind (Keeps.modify fun s hs => hs.put hseq) fun _ _ => ih offset hkey
      · exact Keeps.bind (readField_keeps hlen hkey _ _) fun ⟨_, offset⟩ hvalue =>
          Keeps.bind (Keeps.modify fun s hs => hs.put hseq) fun _ _ => ih offset hvalue
      · exact Keeps.throw_bind _ _
    · exact Keeps.throw _
  | case3 i offset hi =>
    intro _
    rw [replayEntries, if_neg hi]
    exact Keeps.pure trivial

/-- **`replay_wal_record` does not panic**, and inserts only entries whose sequence is at most
`MAX_SEQUENCE_NUMBER`, after what the memtable held. -/
theorem replayWalRecord_keeps (hlen : data.length < 2 ^ 63) :
    Keeps (Inserted s₀) (replayWalRecord data) fun _ => True := by
  unfold replayWalRecord
  refine Keeps.ite (fun _ => Keeps.throw_bind _ _) fun hlong => ?_
  refine Keeps.lift (range_eq (by omega) (by omega)) (Keeps.lift (range_eq (by omega) (by omega)) ?_)
  exact replayEntries_keeps hlen _ _ 0 12 (by omega)

/-! ## Every decoder of untrusted bytes -/

theorem decoders_never_panic (data : Slice UInt8) :
    Refines (Checked.Block.new data) (Checked.Block.ofBlock data <$> Mmdb.Block.new data.1) ∧
    (∀ b, Mmdb.Block.new data.1 = .ok b →
      (∀ it : Checked.BlockIterator,
        it.collect (Checked.Block.ofBlock data b) = some (it.total.collect b)) ∧
      (∀ target compare, Refines ((Checked.Block.ofBlock data b).seekBy target compare)
        (b.seekBy target compare)) ∧
      (∀ target compare, Refines ((Checked.Block.ofBlock data b).seekForPrevBy target compare)
        (b.seekForPrevBy target compare)) ∧
      (∀ restartIndex, Refines ((Checked.Block.ofBlock data b).iterFromRestart restartIndex)
        (b.iterFromRestart restartIndex)) ∧
      (∀ restartIndex, Refines ((Checked.Block.ofBlock data b).iterRestartSegment restartIndex)
        (b.iterRestartSegment restartIndex))) ∧
    (∀ offset prevKey, Refines (Checked.decodeEntryAt data.1 offset prevKey)
      (Mmdb.decodeEntryAt data.1 offset prevKey)) ∧
    (∀ offset keyBuf, Refines (Checked.decodeEntryReuse data.1 offset keyBuf)
      ((fun entry => (entry.1, entry.2.2 - entry.2.1.length, entry.2.1.length, entry.2.2)) <$>
        Mmdb.decodeEntryAt data.1 offset keyBuf)) ∧
    Refines (Checked.decodeIndexValueWithProps data.1) (Mmdb.decodeIndexValueWithProps data.1) ∧
    Refines (Checked.VersionEdit.decode data) (Mmdb.VersionEdit.decode data.1) ∧
    ∀ s₀, ∃ r s, (replayWalRecord data.1).run.run s₀ = some (r, s) ∧ Inserted s₀ s := by
  refine ⟨Checked.Block.new_refines data, fun b hb => ?_,
    fun offset prevKey => Checked.decodeEntryAt_refines data.2 offset prevKey,
    fun offset keyBuf => Checked.decodeEntryReuse_refines data.2 offset keyBuf,
    Checked.decodeIndexValueWithProps_refines data.2, Checked.VersionEdit.decode_refines data,
    fun s₀ => ?_⟩
  · -- a block `Block::new` returned
    have hv := Checked.Block.valid_of_new hb
    exact ⟨Checked.BlockIterator.collect_refines hv, Checked.Block.seekBy_refines hv,
      Checked.Block.seekForPrevBy_refines hv, Checked.Block.iterFromRestart_refines hv,
      Checked.Block.iterRestartSegment_refines hv⟩
  · obtain ⟨r, s, hrun, hs, -⟩ := replayWalRecord_keeps data.2 s₀ (Inserted.refl s₀)
    exact ⟨r, s, hrun, hs⟩

end Mmdb.Db
