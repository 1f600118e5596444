import Mmdb.Wal.Record

/-!
# The WAL writer

`src/wal/writer.rs`. The writer's state is the offset inside the current block; the file is the
bytes written so far. `add_record` loops: when the block has no room for a header it fills the
block's tail with zeros and moves to the next block, otherwise it emits the longest fragment that
fits and stops after the fragment that ends the payload. File I/O is modelled as succeeding; a
failed write surfaces as an error in the source and leaves nothing further to model.

The loop's termination is justified by `3 * left.length + addRecordPhase blockOffset`: a padding
step leaves a block with room, an empty fragment (exactly a header's room left) fills its block,
and every other fragment consumes payload bytes.

`WalWriter.Aligned` is the writer's invariant: the block offset is the file length modulo the
block size. Every operation keeps it, and the reader's agreement with the writer rests on it.
-/

namespace Mmdb.Wal

/-- `WalWriter`: the bytes the file holds and the offset inside the current block. -/
structure WalWriter where
  written : Bytes
  blockOffset : Nat
  deriving DecidableEq, Repr

/-- `WalWriter::new`: a new, truncated file. -/
def WalWriter.new : WalWriter := ⟨[], 0⟩

/-- `WalWriter::open_append_truncated`: `set_len(valid_len)` (which truncates, or extends with
zeros), then append from the block offset `valid_len % BLOCK_SIZE`. -/
def WalWriter.openAppendTruncated (file : Bytes) (validLen : Nat) : WalWriter :=
  ⟨(file ++ List.replicate (validLen - file.length) 0).take validLen, validLen % blockSize⟩

/-- The record type of a fragment, from whether it is the payload's first and last. -/
def fragmentType : Bool → Bool → RecordType
  | true, true => .full
  | true, false => .first
  | false, true => .last
  | false, false => .middle

theorem fragmentType_ne_zero (isFirst isLast : Bool) : fragmentType isFirst isLast ≠ .zero := by
  cases isFirst <;> cases isLast <;> decide

/-- The padding step of `add_record`: a block tail too short for a header is zero-filled and the
writer moves to the next block. -/
def WalWriter.padTrailer (w : WalWriter) : WalWriter :=
  if blockSize - w.blockOffset < headerSize then
    ⟨w.written ++ List.replicate (blockSize - w.blockOffset) 0, 0⟩
  else w

theorem WalWriter.padTrailer_room (w : WalWriter) :
    ¬blockSize - w.padTrailer.blockOffset < headerSize := by
  unfold WalWriter.padTrailer
  split_ifs with hroom
  · simp only [Nat.sub_zero]
    decide
  · exact hroom

theorem WalWriter.padTrailer_of_room {w : WalWriter} (room : ¬blockSize - w.blockOffset < headerSize) :
    w.padTrailer = w := if_neg room

theorem WalWriter.written_prefix_padTrailer (w : WalWriter) : w.written <+: w.padTrailer.written := by
  unfold WalWriter.padTrailer
  split_ifs
  · exact List.prefix_append _ _
  · exact List.prefix_refl _

section Writer

variable (crc : Bytes → UInt32)

/-- `emit_fragment`: a header whose checksum covers the type byte and the data, then the data. -/
def WalWriter.emitFragment (w : WalWriter) (recordType : RecordType) (data : Bytes) : WalWriter :=
  { written := w.written ++ encodeHeader (crc (recordType.toU8 :: data))
      (UInt16.ofNat data.length) recordType ++ data
    blockOffset := w.blockOffset + headerSize + data.length }

/-- The termination phase of the `add_record` loop at a block offset. -/
def addRecordPhase (blockOffset : Nat) : Nat :=
  if blockSize - blockOffset < headerSize then 1
  else if blockSize - blockOffset = headerSize then 2
  else 0

theorem addRecordPhase_le (blockOffset : Nat) : addRecordPhase blockOffset ≤ 2 := by
  unfold addRecordPhase
  split_ifs <;> omega

theorem addRecordPhase_zero : addRecordPhase 0 = 0 := rfl

theorem addRecordPhase_of_lt {blockOffset : Nat} (h : blockSize - blockOffset < headerSize) :
    addRecordPhase blockOffset = 1 := by
  simp [addRecordPhase, h]

/-- A block with exactly a header's room left has phase 2, and is full after an empty
fragment. -/
theorem addRecordPhase_of_eq {blockOffset : Nat} (h : blockSize - blockOffset = headerSize) :
    addRecordPhase blockOffset = 2 ∧ addRecordPhase (blockOffset + headerSize) = 1 := by
  constructor
  · unfold addRecordPhase
    rw [if_neg (by omega), if_pos h]
  · have full : blockSize - (blockOffset + headerSize) < headerSize := by
      simp only [blockSize, headerSize] at *
      omega
    exact addRecordPhase_of_lt full

/-- The loop of `add_record`, from the payload bytes `left` still to write. -/
def WalWriter.addRecordLoop (w : WalWriter) (left : Bytes) (isFirst : Bool) : WalWriter :=
  let leftover := blockSize - w.blockOffset
  if leftover < headerSize then
    -- Not enough space for a header: zero-fill the block's tail.
    WalWriter.addRecordLoop ⟨w.written ++ List.replicate leftover 0, 0⟩ left isFirst
  else
    let avail := leftover - headerSize
    let fragmentLen := min left.length avail
    let isLast := fragmentLen == left.length
    let w' := w.emitFragment crc (fragmentType isFirst isLast) (left.take fragmentLen)
    if isLast then w' else WalWriter.addRecordLoop w' (left.drop fragmentLen) false
termination_by 3 * left.length + addRecordPhase w.blockOffset
decreasing_by
  · rw [addRecordPhase_zero, addRecordPhase_of_lt ‹_›]
    omega
  · rename_i hroom hlast
    simp +zetaDelta only [beq_iff_eq] at hroom hlast
    simp only [emitFragment, List.length_drop, List.length_take]
    -- `f` is the fragment length: short of the whole payload, since this is not the last one.
    generalize hf : min left.length (blockSize - w.blockOffset - headerSize) = f at *
    have hmin : min f left.length = f := by omega
    rw [hmin]
    by_cases hempty : blockSize - w.blockOffset = headerSize
    · have hphase := addRecordPhase_of_eq hempty
      have hzero : f = 0 := by omega
      subst hzero
      rw [Nat.add_zero, hphase.1, hphase.2]
      omega
    · have := addRecordPhase_le (w.blockOffset + headerSize + f)
      have : 0 < f := by
        simp only [blockSize, headerSize] at *
        omega
      omega

/-- `add_record`: append one payload, split into fragments across blocks. -/
def WalWriter.addRecord (w : WalWriter) (payload : Bytes) : WalWriter :=
  w.addRecordLoop crc payload true

/-- Append payloads in order. -/
def WalWriter.addRecords (w : WalWriter) (payloads : List Bytes) : WalWriter :=
  payloads.foldl (fun w payload => w.addRecord crc payload) w

/-! ## The writer's invariant -/

/-- The block offset is the file length modulo the block size. -/
def WalWriter.Aligned (w : WalWriter) : Prop :=
  w.blockOffset ≤ blockSize ∧ w.blockOffset % blockSize = w.written.length % blockSize

theorem WalWriter.aligned_new : WalWriter.new.Aligned := by
  simp [WalWriter.Aligned, WalWriter.new]

theorem WalWriter.aligned_openAppendTruncated (file : Bytes) (validLen : Nat) :
    (WalWriter.openAppendTruncated file validLen).Aligned := by
  refine ⟨Nat.le_of_lt (Nat.mod_lt _ (by decide)), ?_⟩
  simp only [WalWriter.openAppendTruncated, List.length_take, List.length_append,
    List.length_replicate]
  have hlen : min validLen (file.length + (validLen - file.length)) = validLen := by omega
  rw [hlen, Nat.mod_mod]

/-- Zero-filling a block's tail keeps the writer aligned. -/
theorem WalWriter.Aligned.pad {w : WalWriter} (aligned : w.Aligned) :
    (⟨w.written ++ List.replicate (blockSize - w.blockOffset) 0, 0⟩ : WalWriter).Aligned := by
  obtain ⟨hle, hmod⟩ := aligned
  refine ⟨Nat.zero_le _, ?_⟩
  simp only [List.length_append, List.length_replicate, Nat.zero_mod]
  have : (w.written.length + (blockSize - w.blockOffset)) % blockSize =
      (w.blockOffset + (blockSize - w.blockOffset)) % blockSize := by
    rw [Nat.add_mod, ← hmod, ← Nat.add_mod]
  rw [this, Nat.add_sub_cancel' hle, Nat.mod_self]

/-- A fragment that fits in the block keeps the writer aligned. -/
theorem WalWriter.Aligned.emitFragment {w : WalWriter} (aligned : w.Aligned) (rt : RecordType)
    (data : Bytes) (fits : w.blockOffset + headerSize + data.length ≤ blockSize) :
    (w.emitFragment crc rt data).Aligned := by
  obtain ⟨-, hmod⟩ := aligned
  refine ⟨fits, ?_⟩
  simp only [WalWriter.emitFragment, List.length_append, encodeHeader_length]
  rw [Nat.add_assoc, Nat.add_mod, hmod, ← Nat.add_mod, Nat.add_assoc]

/-- One step of the `add_record` loop with room for a header: emit the longest fragment that
fits, then stop if it ends the payload. -/
theorem WalWriter.addRecordLoop_room {w : WalWriter} (left : Bytes) (isFirst : Bool)
    (hroom : ¬blockSize - w.blockOffset < headerSize) :
    w.addRecordLoop crc left isFirst =
      let fragmentLen := min left.length (blockSize - w.blockOffset - headerSize)
      let w' := w.emitFragment crc (fragmentType isFirst (fragmentLen == left.length))
        (left.take fragmentLen)
      if fragmentLen = left.length then w'
      else w'.addRecordLoop crc (left.drop fragmentLen) false := by
  rw [WalWriter.addRecordLoop, if_neg hroom]
  simp only [beq_iff_eq]

/-- Every writer step keeps the invariant, so every `add_record` does. -/
theorem WalWriter.Aligned.addRecordLoop {w : WalWriter} (aligned : w.Aligned) (left : Bytes)
    (isFirst : Bool) : (w.addRecordLoop crc left isFirst).Aligned := by
  induction w, left, isFirst using WalWriter.addRecordLoop.induct crc with
  | case1 w left isFirst _ hroom ih =>
    rw [WalWriter.addRecordLoop, if_pos hroom]
    exact ih aligned.pad
  | case2 w left isFirst _ hroom _ _ _ hlast =>
    simp +zetaDelta only [beq_iff_eq] at hroom hlast
    rw [WalWriter.addRecordLoop_room crc left isFirst hroom]
    simp only [hlast, if_true]
    apply aligned.emitFragment
    have := aligned.1
    simp only [List.length_take]
    omega
  | case3 w left isFirst _ hroom _ _ _ _ hlast ih =>
    simp +zetaDelta only [beq_iff_eq] at hroom hlast ih
    rw [WalWriter.addRecordLoop_room crc left isFirst hroom]
    simp only [hlast, if_false]
    apply ih
    apply aligned.emitFragment
    have := aligned.1
    simp only [List.length_take]
    omega

theorem WalWriter.Aligned.padTrailer {w : WalWriter} (aligned : w.Aligned) : w.padTrailer.Aligned := by
  unfold WalWriter.padTrailer
  split_ifs
  · exact aligned.pad
  · exact aligned

theorem WalWriter.addRecordLoop_padTrailer (w : WalWriter) (left : Bytes) (isFirst : Bool) :
    w.addRecordLoop crc left isFirst = w.padTrailer.addRecordLoop crc left isFirst := by
  unfold WalWriter.padTrailer
  split_ifs with hroom
  · rw [WalWriter.addRecordLoop, if_pos hroom]
  · rfl

theorem WalWriter.Aligned.addRecords {w : WalWriter} (aligned : w.Aligned)
    (payloads : List Bytes) : (w.addRecords crc payloads).Aligned := by
  induction payloads generalizing w with
  | nil => exact aligned
  | cons payload payloads ih => exact ih (aligned.addRecordLoop crc payload true)

/-- The writer only appends. -/
theorem WalWriter.written_prefix_addRecordLoop (w : WalWriter) (left : Bytes) (isFirst : Bool) :
    w.written <+: (w.addRecordLoop crc left isFirst).written := by
  induction w, left, isFirst using WalWriter.addRecordLoop.induct crc with
  | case1 w left isFirst _ hroom ih =>
    rw [WalWriter.addRecordLoop, if_pos hroom]
    exact (List.prefix_append _ _).trans ih
  | case2 w left isFirst _ hroom _ _ _ hlast =>
    simp +zetaDelta only [beq_iff_eq] at hroom hlast
    rw [WalWriter.addRecordLoop_room crc left isFirst hroom]
    simp only [hlast, if_true, WalWriter.emitFragment, List.append_assoc]
    exact List.prefix_append _ _
  | case3 w left isFirst _ hroom _ _ _ _ hlast ih =>
    simp +zetaDelta only [beq_iff_eq] at hroom hlast ih
    rw [WalWriter.addRecordLoop_room crc left isFirst hroom]
    simp only [hlast, if_false]
    refine List.IsPrefix.trans ?_ ih
    simp only [WalWriter.emitFragment, List.append_assoc]
    exact List.prefix_append _ _

/-- A record that fits in what is left of the block is written as one `Full` fragment. -/
theorem WalWriter.addRecord_of_fits {w : WalWriter} (payload : Bytes)
    (fits : w.blockOffset + headerSize + payload.length ≤ blockSize) :
    w.addRecord crc payload = w.emitFragment crc .full payload := by
  have room : ¬blockSize - w.blockOffset < headerSize := by omega
  have whole : min payload.length (blockSize - w.blockOffset - headerSize) = payload.length := by
    omega
  rw [WalWriter.addRecord, WalWriter.addRecordLoop_room crc payload true room]
  simp [whole, fragmentType]

theorem WalWriter.written_prefix_addRecords (w : WalWriter) (payloads : List Bytes) :
    w.written <+: (w.addRecords crc payloads).written := by
  induction payloads generalizing w with
  | nil => exact List.prefix_refl _
  | cons payload payloads ih =>
    exact (w.written_prefix_addRecordLoop crc payload true).trans (ih _)

/-- A record written at an offset with room for a header starts with a whole fragment that fits
in the block. -/
theorem WalWriter.addRecordLoop_first_fragment {w : WalWriter} (aligned : w.Aligned)
    (left : Bytes) (isFirst : Bool) (room : ¬blockSize - w.blockOffset < headerSize) :
    ∃ rt data rest, (w.addRecordLoop crc left isFirst).written =
        (w.emitFragment crc rt data).written ++ rest ∧
      w.blockOffset + headerSize + data.length ≤ blockSize := by
  rw [WalWriter.addRecordLoop_room crc left isFirst room]
  have fits : w.blockOffset + headerSize +
      (left.take (min left.length (blockSize - w.blockOffset - headerSize))).length ≤ blockSize := by
    have := aligned.1
    simp only [List.length_take]
    omega
  simp only
  generalize min left.length (blockSize - w.blockOffset - headerSize) = fragmentLen at fits ⊢
  generalize fragmentType isFirst (fragmentLen == left.length) = rt
  split_ifs
  · exact ⟨rt, _, [], (List.append_nil _).symm, fits⟩
  · obtain ⟨rest, hrest⟩ := WalWriter.written_prefix_addRecordLoop crc
      (w.emitFragment crc rt (left.take fragmentLen)) (left.drop fragmentLen) false
    exact ⟨rt, _, rest, hrest.symm, fits⟩

end Writer

end Mmdb.Wal
