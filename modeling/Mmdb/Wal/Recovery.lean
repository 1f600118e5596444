import Mmdb.Wal.Reader
import Mmdb.Wal.Writer

/-!
# What the reader reads back from the writer's file

The reader and the writer of `src/wal` agree: a reader that stands where a writer's bytes end
reads back every record the writer appends next, fragment by fragment, whatever follows those
bytes in the file (`WalReader.readRecords_addRecords`). The writer's zero padding of a block
trailer is the reader's trailer skip, and every fragment's header decodes to the type and length
the writer encoded.

The reader's classification of a torn tail does not agree with the recovery contract in one
case. A header cut inside its first seven bytes and followed by the file system's zero fill ends
in a zero type byte, so it decodes as a `Zero`-type record; since the bytes before the cut are
not all zero, the reader reports `non-padding WAL zero record` as corruption, with
`lastErrorIsTruncation` cleared (`WalReader.readRecords_tornHeader`), and recovery refuses to
open the log instead of dropping its torn tail.
-/

namespace Mmdb.Wal

/-- A reader standing where a writer's bytes end, at the same place of its block: offsets
`0` and `blockSize` both name a block boundary. -/
structure WalReader.SyncedWith (r : WalReader) (w : WalWriter) : Prop where
  pos_eq : r.pos = w.written.length
  reader_le : r.blockOffset ≤ blockSize
  offset_mod : r.blockOffset % blockSize = w.blockOffset % blockSize

/-- The reader moved to where a writer's bytes end. -/
def WalReader.moveTo (r : WalReader) (w : WalWriter) : WalReader :=
  { r with pos := w.written.length, blockOffset := w.blockOffset }

/-- The reader once it has returned a record that ends where a writer's bytes end. -/
def WalReader.afterRecord (r : WalReader) (w : WalWriter) : WalReader :=
  { r.moveTo w with lastValidOffset := w.written.length }

@[simp] theorem WalReader.moveTo_file (r : WalReader) (w : WalWriter) :
    (r.moveTo w).file = r.file := rfl

@[simp] theorem WalReader.moveTo_pos (r : WalReader) (w : WalWriter) :
    (r.moveTo w).pos = w.written.length := rfl

@[simp] theorem WalReader.moveTo_blockOffset (r : WalReader) (w : WalWriter) :
    (r.moveTo w).blockOffset = w.blockOffset := rfl

@[simp] theorem WalReader.afterRecord_moveTo (r : WalReader) (w w' : WalWriter) :
    (r.moveTo w).afterRecord w' = r.afterRecord w' := rfl

theorem WalReader.moveTo_synced (r : WalReader) {w : WalWriter} (aligned : w.Aligned) :
    (r.moveTo w).SyncedWith w :=
  ⟨rfl, aligned.1, rfl⟩

theorem WalReader.afterRecord_synced (r : WalReader) {w : WalWriter} (aligned : w.Aligned) :
    (r.afterRecord w).SyncedWith w :=
  ⟨rfl, aligned.1, rfl⟩

/-- Offsets in one place of a block are equal, or one is the boundary seen from each side. -/
theorem WalReader.SyncedWith.offset_cases {r : WalReader} {w : WalWriter}
    (synced : r.SyncedWith w) (aligned : w.Aligned) :
    r.blockOffset = w.blockOffset ∨ (r.blockOffset = blockSize ∧ w.blockOffset = 0) ∨
      (r.blockOffset = 0 ∧ w.blockOffset = blockSize) := by
  have := synced.reader_le
  have := synced.offset_mod
  have := aligned.1
  simp only [blockSize] at *
  omega

section Recovery

variable (crc : Bytes → UInt32)

/-! ## One fragment -/

/-- The physical read of a synced reader skips the trailer the writer zero-filled and reads a
fragment where the writer's next one starts. -/
theorem WalReader.readPhysicalRecord_synced {r : WalReader} {w : WalWriter} (aligned : w.Aligned)
    (synced : r.SyncedWith w) (long : w.padTrailer.written.length ≤ r.file.length) :
    r.readPhysicalRecord crc = (r.moveTo w.padTrailer).readFragment crc := by
  have hpos := synced.pos_eq
  have boundaryRoom : ¬blockSize - 0 < headerSize := by decide
  have boundaryFull : blockSize - blockSize < headerSize := by decide
  unfold WalWriter.padTrailer at long ⊢
  unfold WalReader.readPhysicalRecord
  rcases synced.offset_cases aligned with same | ⟨atEnd, atStart⟩ | ⟨atStart, atEnd⟩
  · rw [same]
    by_cases hroom : blockSize - w.blockOffset < headerSize
    · -- the trailer the writer zero-filled is in the file, and the reader skips it
      rw [if_pos hroom, if_pos hroom]
      rw [if_pos hroom] at long
      have hskipped : (r.peek (blockSize - w.blockOffset)).length = blockSize - w.blockOffset := by
        simp only [List.length_append, List.length_replicate] at long
        rw [WalReader.peek_length]
        omega
      simp only [hskipped]
      rw [if_neg (by omega), if_neg (lt_irrefl _)]
      simp [WalReader.moveTo, WalReader.skip, hpos]
    · rw [if_neg hroom, if_neg hroom]
      cases r
      simp_all [WalReader.moveTo]
  · -- the reader ends a block where the writer, reopened, starts the next one
    rw [atEnd, atStart, if_pos boundaryFull, if_neg boundaryRoom]
    simp [WalReader.peek_length, WalReader.moveTo, WalReader.skip, hpos, atStart]
  · -- the writer ends a block the reader has already left
    rw [atEnd, atStart, if_pos boundaryFull, if_neg boundaryRoom]
    cases r
    simp_all [WalReader.moveTo]

/-- A reader at the start of a fragment the writer emitted reads it back. -/
theorem WalReader.readFragment_emitFragment (r : WalReader) {w : WalWriter} {rt : RecordType}
    {data rest : Bytes} (file_eq : r.file = (w.emitFragment crc rt data).written ++ rest)
    (fits : w.blockOffset + headerSize + data.length ≤ blockSize) (nonzero : rt ≠ .zero) :
    (r.moveTo w).readFragment crc = (.ok (some (rt, data)), r.moveTo (w.emitFragment crc rt data)) := by
  have hdrop : r.file.drop w.written.length =
      encodeHeader (crc (rt.toU8 :: data)) (UInt16.ofNat data.length) rt ++ (data ++ rest) := by
    simp [file_eq, WalWriter.emitFragment]
  have hpeek : (r.moveTo w).peek headerSize =
      encodeHeader (crc (rt.toU8 :: data)) (UInt16.ofNat data.length) rt := by
    simp only [WalReader.peek, WalReader.moveTo_file, WalReader.moveTo_pos, hdrop]
    exact List.take_left' (encodeHeader_length _ _ _)
  have hpayload : ((r.moveTo w).skip headerSize).peek data.length = data := by
    simp only [WalReader.peek, WalReader.skip_file, WalReader.skip_pos, WalReader.moveTo_file,
      WalReader.moveTo_pos, ← List.drop_drop, hdrop]
    rw [List.drop_left' (encodeHeader_length _ _ _), List.take_left]
  have hlength : (UInt16.ofNat data.length).toNat = data.length :=
    fragmentLength_toNat (by omega)
  have hfits : ¬data.length > blockSize - ((r.moveTo w).skip headerSize).blockOffset - headerSize := by
    simp only [WalReader.skip_blockOffset, WalReader.moveTo_blockOffset]
    omega
  unfold WalReader.readFragment
  simp only [hpeek, encodeHeader_length, encodeHeader_ne_zeros _ _ nonzero,
    decodeHeader_encodeHeader, hlength, hpayload, hfits, nonzero, show headerSize ≠ 0 by decide,
    lt_irrefl, ne_eq, not_true_eq_false, if_false]
  simp [WalReader.moveTo, WalReader.skip, WalWriter.emitFragment, Nat.add_assoc]

/-! ## One record -/

/-- A synced reader reads back the rest of a record the writer is appending, whatever follows
it in the file: the fragments' payloads, joined to what the reader collected before. -/
theorem WalReader.readRecordLoop_addRecordLoop {w : WalWriter} {r : WalReader}
    (aligned : w.Aligned) (synced : r.SyncedWith w) (left : Bytes) (isFirst : Bool)
    (result rest : Bytes) (file_eq : r.file = (w.addRecordLoop crc left isFirst).written ++ rest) :
    r.readRecordLoop crc result (!isFirst) =
      (.ok (some (if isFirst then left else result ++ left)),
        r.afterRecord (w.addRecordLoop crc left isFirst)) := by
  induction w, left, isFirst using WalWriter.addRecordLoop.induct crc generalizing r result with
  | case1 w left isFirst leftover hroom =>
    rename_i ih
    simp +zetaDelta only at hroom ih
    -- the reader skips the zero trailer and stands where the padded writer does
    have hpad : w.padTrailer = ⟨w.written ++ List.replicate (blockSize - w.blockOffset) 0, 0⟩ :=
      if_pos hroom
    rw [WalWriter.addRecordLoop, if_pos hroom, ← hpad] at file_eq ⊢
    rw [← hpad] at ih
    have long : w.padTrailer.written.length ≤ r.file.length := by
      rw [file_eq]
      exact ((WalWriter.written_prefix_addRecordLoop crc _ left isFirst).trans
        (List.prefix_append _ _)).length_le
    have synced' := r.moveTo_synced aligned.padTrailer
    have hphys : r.readPhysicalRecord crc = (r.moveTo w.padTrailer).readPhysicalRecord crc := by
      rw [WalReader.readPhysicalRecord_synced crc aligned synced long,
        WalReader.readPhysicalRecord_synced crc aligned.padTrailer synced'
          (by rw [WalWriter.padTrailer_of_room w.padTrailer_room]; exact long),
        WalWriter.padTrailer_of_room w.padTrailer_room]
      rfl
    rw [WalReader.readRecordLoop_congr crc hphys]
    exact ih aligned.padTrailer synced' result file_eq
  | case2 w left isFirst leftover hroom avail fragmentLen isLast =>
    rename_i hlast
    simp +zetaDelta only [beq_iff_eq] at hroom hlast
    rw [WalWriter.addRecordLoop_room crc left isFirst hroom] at file_eq ⊢
    simp only [hlast, beq_self_eq_true, if_true, List.take_length] at file_eq ⊢
    have fits : w.blockOffset + headerSize + left.length ≤ blockSize := by
      have := aligned.1
      omega
    have long : w.padTrailer.written.length ≤ r.file.length := by
      rw [WalWriter.padTrailer_of_room hroom, file_eq]
      simp only [WalWriter.emitFragment, List.length_append]
      omega
    have hphys := WalReader.readPhysicalRecord_synced crc aligned synced long
    rw [WalWriter.padTrailer_of_room hroom,
      WalReader.readFragment_emitFragment crc r file_eq fits (fragmentType_ne_zero _ _)] at hphys
    cases isFirst
    · -- a `Last` fragment ends a record begun in an earlier block
      exact WalReader.readRecordLoop_of_last crc hphys result
    · exact WalReader.readRecordLoop_of_full crc hphys result
  | case3 w left isFirst leftover hroom avail fragmentLen isLast w' hlast =>
    rename_i ih
    simp +zetaDelta only [beq_iff_eq] at hroom hlast ih
    rw [WalWriter.addRecordLoop_room crc left isFirst hroom] at file_eq ⊢
    simp only [hlast, beq_false_of_ne hlast, if_false] at file_eq ih ⊢
    have hfl := min_le_right left.length (blockSize - w.blockOffset - headerSize)
    generalize min left.length (blockSize - w.blockOffset - headerSize) = fl at hfl hlast ih file_eq ⊢
    have fits : w.blockOffset + headerSize + (left.take fl).length ≤ blockSize := by
      have := aligned.1
      simp only [List.length_take]
      omega
    obtain ⟨more, hmore⟩ := WalWriter.written_prefix_addRecordLoop crc
      (w.emitFragment crc (fragmentType isFirst false) (left.take fl)) (left.drop fl) false
    have fragment_eq : r.file =
        (w.emitFragment crc (fragmentType isFirst false) (left.take fl)).written ++ (more ++ rest) := by
      rw [file_eq, ← hmore, List.append_assoc]
    have long : w.padTrailer.written.length ≤ r.file.length := by
      rw [WalWriter.padTrailer_of_room hroom, fragment_eq]
      simp only [WalWriter.emitFragment, List.length_append]
      omega
    have hphys := WalReader.readPhysicalRecord_synced crc aligned synced long
    rw [WalWriter.padTrailer_of_room hroom,
      WalReader.readFragment_emitFragment crc r fragment_eq fits (fragmentType_ne_zero _ _)] at hphys
    have aligned' := aligned.emitFragment crc (fragmentType isFirst false) (left.take fl) fits
    have synced' := r.moveTo_synced aligned'
    -- the rest of the record is read from where this fragment ends
    cases isFirst
    · rw [Bool.not_false, WalReader.readRecordLoop_of_middle crc hphys result]
      refine (ih aligned' synced' _ file_eq).trans ?_
      simp [List.append_assoc]
    · rw [Bool.not_true, WalReader.readRecordLoop_of_first crc hphys result]
      refine (ih aligned' synced' _ file_eq).trans ?_
      simp

/-- A synced reader returns the record the writer appends next, and stands where it ends. -/
theorem WalReader.readRecord_addRecord {w : WalWriter} {r : WalReader} (aligned : w.Aligned)
    (synced : r.SyncedWith w) (notEof : r.eof = false) (payload rest : Bytes)
    (file_eq : r.file = (w.addRecord crc payload).written ++ rest) :
    r.readRecord crc = (.ok (some payload), r.afterRecord (w.addRecord crc payload)) := by
  unfold WalWriter.addRecord at file_eq ⊢
  rw [WalReader.readRecord, if_neg (by simp [notEof])]
  simpa using WalReader.readRecordLoop_addRecordLoop crc aligned synced payload true [] rest file_eq

/-! ## Whole logs -/

/-- `n` successive calls of `read_record`, with their results in order. -/
def WalReader.readRecords (r : WalReader) : Nat → List (Result (Option Bytes)) × WalReader
  | 0 => ([], r)
  | n + 1 =>
    let (result, r) := r.readRecord crc
    let (results, r) := r.readRecords n
    (result :: results, r)

/-- A synced reader returns, in order, every record the writer appends next, and then goes on
from where the last of them ends. -/
theorem WalReader.readRecords_addRecords (payloads : List Bytes) {w : WalWriter} {r : WalReader}
    (aligned : w.Aligned) (synced : r.SyncedWith w) (notEof : r.eof = false) (rest : Bytes)
    (file_eq : r.file = (w.addRecords crc payloads).written ++ rest) (n : Nat) :
    ∃ r' : WalReader, r'.SyncedWith (w.addRecords crc payloads) ∧ r'.eof = false ∧ r'.file = r.file ∧
      (r.lastValidOffset = r.pos → r'.lastValidOffset = r'.pos) ∧
      r.readRecords crc (payloads.length + n) =
        ((payloads.map fun p => .ok (some p)) ++ (r'.readRecords crc n).1,
          (r'.readRecords crc n).2) := by
  induction payloads generalizing w r with
  | nil => exact ⟨r, synced, notEof, rfl, id, by simp⟩
  | cons payload payloads ih =>
    -- the first record is read back whole, and the reader is synced with the writer after it
    obtain ⟨more, hmore⟩ := WalWriter.written_prefix_addRecords crc (w.addRecord crc payload) payloads
    have file_eq' : r.file = (w.addRecord crc payload).written ++ (more ++ rest) := by
      rw [file_eq, ← List.append_assoc, hmore]
      rfl
    have aligned' : (w.addRecord crc payload).Aligned := aligned.addRecordLoop crc payload true
    obtain ⟨r', synced', notEof', hfile', hvalid', hread⟩ :=
      ih aligned' (r.afterRecord_synced aligned') notEof file_eq
    refine ⟨r', synced', notEof', hfile', fun _ => hvalid' rfl, ?_⟩
    rw [List.length_cons, Nat.add_right_comm, WalReader.readRecords,
      WalReader.readRecord_addRecord crc aligned synced notEof payload _ file_eq']
    simp only [hread, List.map_cons, List.cons_append]

/-- A whole log read from its start: every record in order, then the end of the log, with the
last valid offset at the end of the file. -/
theorem WalReader.readRecords_log (payloads : List Bytes) :
    let file := (WalWriter.new.addRecords crc payloads).written
    ((WalReader.new file).readRecords crc (payloads.length + 1)).1 =
        payloads.map (fun p => .ok (some p)) ++ [.ok none] ∧
      ((WalReader.new file).readRecords crc (payloads.length + 1)).2.lastValidOffset =
        file.length := by
  intro file
  have synced : (WalReader.new file).SyncedWith WalWriter.new := ⟨rfl, Nat.zero_le _, rfl⟩
  obtain ⟨r, synced', -, hfile, hvalid, hread⟩ := WalReader.readRecords_addRecords crc payloads
    WalWriter.aligned_new synced rfl [] (List.append_nil _).symm 1
  have hend : r.file.length ≤ r.pos := by
    rw [hfile, synced'.pos_eq]
    exact le_rfl
  obtain ⟨hnone, hkeep⟩ := WalReader.readRecord_at_end crc hend
  rw [hread]
  simp [WalReader.readRecords, hnone, hkeep, hvalid rfl, synced'.pos_eq]
  rfl

/-- A log reopened by `open_append_truncated` at the end of its last valid record, whatever a
crash left after it, and appended to: reading it from its start returns the old records, then
the new ones, then the end of the log. The reader that has read the old records stands where
the reopened writer starts, since the writer's block offset is its file length modulo the block
size. -/
theorem WalReader.readRecords_reopen (payloads more : List Bytes) (tail : Bytes) :
    let w := WalWriter.new.addRecords crc payloads
    let file := ((WalWriter.openAppendTruncated (w.written ++ tail) w.written.length).addRecords
      crc more).written
    ((WalReader.new file).readRecords crc (payloads.length + more.length + 1)).1 =
        (payloads ++ more).map (fun p => .ok (some p)) ++ [.ok none] ∧
      ((WalReader.new file).readRecords crc (payloads.length + more.length + 1)).2.lastValidOffset =
        file.length := by
  intro w file
  have aligned : w.Aligned := WalWriter.aligned_new.addRecords crc payloads
  have hreopen : WalWriter.openAppendTruncated (w.written ++ tail) w.written.length =
      ⟨w.written, w.written.length % blockSize⟩ := by
    simp [WalWriter.openAppendTruncated]
  have aligned₀ := WalWriter.aligned_openAppendTruncated (w.written ++ tail) w.written.length
  obtain ⟨added, hadded⟩ := WalWriter.written_prefix_addRecords crc
    (WalWriter.openAppendTruncated (w.written ++ tail) w.written.length) more
  -- the old records come first
  have synced : (WalReader.new file).SyncedWith WalWriter.new := ⟨rfl, Nat.zero_le _, rfl⟩
  have file_eq : (WalReader.new file).file = w.written ++ added := by
    show ((WalWriter.openAppendTruncated (w.written ++ tail) w.written.length).addRecords
      crc more).written = w.written ++ added
    rw [← hadded, hreopen]
  obtain ⟨r, synced', notEof, hfile, hvalid, hread⟩ := WalReader.readRecords_addRecords crc
    payloads WalWriter.aligned_new synced rfl added file_eq (more.length + 1)
  -- then the new ones, from where the reopened writer starts
  have synced₀ : r.SyncedWith (WalWriter.openAppendTruncated (w.written ++ tail) w.written.length) := by
    refine ⟨?_, synced'.reader_le, ?_⟩
    · rw [synced'.pos_eq, hreopen]
    · rw [synced'.offset_mod, hreopen, aligned.2, Nat.mod_mod]
  obtain ⟨r₂, synced₂, -, hfile₂, hvalid₂, hread₂⟩ := WalReader.readRecords_addRecords crc more
    aligned₀ synced₀ notEof [] (by rw [hfile, List.append_nil]; rfl) 1
  have hend : r₂.file.length ≤ r₂.pos := by
    rw [hfile₂, hfile, synced₂.pos_eq]
    exact le_rfl
  obtain ⟨hnone, hkeep⟩ := WalReader.readRecord_at_end crc hend
  rw [Nat.add_assoc, hread, hread₂]
  simp [WalReader.readRecords, hnone, hkeep, hvalid₂ (hvalid rfl), synced₂.pos_eq]
  rfl

/-! ## A header torn by a crash -/

/-- A header cut after `k` of its bytes and zero-filled, whose first `k` bytes are not all
zero, is read as a `Zero`-type record and reported as corruption, not as a torn tail. -/
theorem WalReader.readFragment_tornHeader {r : WalReader} {header : Bytes} {k z : Nat}
    (hdrop : r.file.drop r.pos = header.take k ++ List.replicate z 0)
    (hheader : header.length = headerSize) (hk : k < headerSize) (hz : blockSize ≤ z)
    (hnz : header.take k ≠ List.replicate k 0)
    (fits : r.blockOffset + headerSize + (decodeHeader header).2.1.toNat ≤ blockSize) :
    (r.readFragment crc).1 = .error (.corruption "non-padding WAL zero record") ∧
      (r.readFragment crc).2.lastErrorIsTruncation = false := by
  have hkLen : (header.take k).length = k := by simp [hheader]; omega
  -- what the reader sees as a header: the written bytes, then the zero fill
  have hpeek : r.peek headerSize = header.take k ++ List.replicate (headerSize - k) 0 := by
    simp only [WalReader.peek, hdrop, List.take_append, hkLen, List.take_take,
      List.take_replicate]
    congr 2 <;> omega
  have htornLen : (header.take k ++ List.replicate (headerSize - k) 0).length = headerSize := by
    simp only [List.length_append, hkLen, List.length_replicate]
    omega
  have htornNZ : header.take k ++ List.replicate (headerSize - k) 0 ≠
      List.replicate headerSize 0 := by
    intro allZero
    apply hnz
    have := congrArg (List.take k) allZero
    simpa [List.take_append, hkLen, List.take_take, List.take_replicate,
      show min k headerSize = k by omega] using this
  obtain ⟨htype, hlength⟩ := decodeHeader_torn hheader hk (headerSize - k)
  -- the zero fill holds the whole payload the torn header announces
  have hfile : r.file.length - r.pos = k + z := by
    have := congrArg List.length hdrop
    simp only [List.length_drop, List.length_append, hkLen, List.length_replicate] at this
    exact this
  rcases hdec : decodeHeader (header.take k ++ List.replicate (headerSize - k) 0) with
    ⟨checksum, length, recordType⟩
  rw [hdec] at htype hlength
  simp only at htype hlength
  subst htype
  have hdata : ((r.skip headerSize).peek length.toNat).length = length.toNat := by
    rw [WalReader.peek_length]
    simp only [WalReader.skip_file, WalReader.skip_pos, blockSize, headerSize] at hfile fits hz ⊢
    omega
  have hfitsTorn : ¬length.toNat > blockSize - (r.skip headerSize).blockOffset - headerSize := by
    simp only [WalReader.skip_blockOffset]
    omega
  unfold WalReader.readFragment
  simp only [hpeek, htornLen, htornNZ, hdec, hdata, hfitsTorn, show headerSize ≠ 0 by decide,
    lt_irrefl, if_false, if_true]
  simp [WalReader.failCorruption]

/-- A synced reader that meets the torn header of the record the writer was appending reports
corruption, with the truncation flag cleared. -/
theorem WalReader.readRecord_tornHeader {w : WalWriter} {r : WalReader} (aligned : w.Aligned)
    (synced : r.SyncedWith w) (notEof : r.eof = false) (payload : Bytes) {k z : Nat}
    (hk : k < headerSize) (hz : blockSize ≤ z)
    (hnz : ((w.addRecord crc payload).written.drop w.padTrailer.written.length).take k ≠
      List.replicate k 0)
    (file_eq : r.file = (w.addRecord crc payload).written.take (w.padTrailer.written.length + k) ++
      List.replicate z 0) :
    (r.readRecord crc).1 = .error (.corruption "non-padding WAL zero record") ∧
      (r.readRecord crc).2.lastErrorIsTruncation = false := by
  -- after the padding, the record starts with the header of a whole fragment
  obtain ⟨rt, data, rest, hwritten, fits⟩ := WalWriter.addRecordLoop_first_fragment crc
    aligned.padTrailer payload true w.padTrailer_room
  have hsplit : (w.addRecord crc payload).written = w.padTrailer.written ++
      (encodeHeader (crc (rt.toU8 :: data)) (UInt16.ofNat data.length) rt ++ (data ++ rest)) := by
    rw [WalWriter.addRecord, WalWriter.addRecordLoop_padTrailer, hwritten]
    simp [WalWriter.emitFragment]
  have hkHeader : k - (encodeHeader (crc (rt.toU8 :: data)) (UInt16.ofNat data.length) rt).length = 0 := by
    rw [encodeHeader_length]
    omega
  have hcut : r.file.drop w.padTrailer.written.length =
      (encodeHeader (crc (rt.toU8 :: data)) (UInt16.ofNat data.length) rt).take k ++
        List.replicate z 0 := by
    rw [file_eq, hsplit, List.take_append, List.take_of_length_le (by omega), Nat.add_sub_cancel_left,
      List.take_append, hkHeader]
    simp
  have hnz' : (encodeHeader (crc (rt.toU8 :: data)) (UInt16.ofNat data.length) rt).take k ≠
      List.replicate k 0 := by
    rwa [hsplit, List.drop_left, List.take_append, hkHeader, List.take_zero, List.append_nil] at hnz
  have long : w.padTrailer.written.length ≤ r.file.length := by
    have := congrArg List.length hcut
    simp only [List.length_drop, List.length_append, List.length_replicate] at this
    omega
  have fits' : (r.moveTo w.padTrailer).blockOffset + headerSize +
      (decodeHeader (encodeHeader (crc (rt.toU8 :: data)) (UInt16.ofNat data.length) rt)).2.1.toNat ≤
        blockSize := by
    rw [decodeHeader_encodeHeader, WalReader.moveTo_blockOffset, fragmentLength_toNat (by omega)]
    exact fits
  obtain ⟨herr, hflag⟩ := WalReader.readFragment_tornHeader crc (r := r.moveTo w.padTrailer) hcut
    (encodeHeader_length _ _ _) hk hz hnz' fits'
  have hphys : r.readPhysicalRecord crc = (.error (.corruption "non-padding WAL zero record"),
      ((r.moveTo w.padTrailer).readFragment crc).2) := by
    rw [WalReader.readPhysicalRecord_synced crc aligned synced long, ← herr]
  rw [WalReader.readRecord, if_neg (by simp [notEof]),
    WalReader.readRecordLoop_of_error crc hphys [] false]
  exact ⟨rfl, hflag⟩

/-- A log whose writer crashed inside the first header of its last record, the file system
filling the rest with zeros: the reader returns every earlier record, then reports the torn
header as corruption with the truncation flag cleared, so recovery refuses the log. -/
theorem WalReader.readRecords_tornHeader (payloads : List Bytes) (payload : Bytes) (k z : Nat)
    (hk : k < headerSize) (hz : blockSize ≤ z)
    (hnz : (((WalWriter.new.addRecords crc payloads).addRecord crc payload).written.drop
      (WalWriter.new.addRecords crc payloads).padTrailer.written.length).take k ≠
        List.replicate k 0) :
    let w := WalWriter.new.addRecords crc payloads
    let file := (w.addRecord crc payload).written.take (w.padTrailer.written.length + k) ++
      List.replicate z 0
    ((WalReader.new file).readRecords crc (payloads.length + 1)).1 =
        payloads.map (fun p => .ok (some p)) ++
          [.error (.corruption "non-padding WAL zero record")] ∧
      ((WalReader.new file).readRecords crc (payloads.length + 1)).2.lastErrorIsTruncation =
        false := by
  intro w file
  have aligned : w.Aligned := WalWriter.aligned_new.addRecords crc payloads
  -- the file holds every earlier record whole
  have hpad := w.written_prefix_padTrailer.length_le
  obtain ⟨tail, htail⟩ := w.written_prefix_addRecordLoop crc payload true
  have file_eq : (WalReader.new file).file = w.written ++
      (tail.take (w.padTrailer.written.length + k - w.written.length) ++ List.replicate z 0) := by
    change (w.addRecord crc payload).written.take _ ++ _ = _
    rw [WalWriter.addRecord, ← htail, List.take_append, List.take_of_length_le (by omega),
      List.append_assoc]
  have synced : (WalReader.new file).SyncedWith WalWriter.new := ⟨rfl, Nat.zero_le _, rfl⟩
  obtain ⟨r, synced', notEof, hfile, -, hread⟩ := WalReader.readRecords_addRecords crc payloads
    WalWriter.aligned_new synced rfl _ file_eq 1
  obtain ⟨herr, hflag⟩ := WalReader.readRecord_tornHeader crc aligned synced' notEof payload hk hz
    hnz hfile
  rw [hread]
  simp [WalReader.readRecords, herr, hflag]

/-- The torn header at work: the record `"a"` on a new log under the crate's checksum, cut four
bytes into its header and zero-filled for a block. -/
theorem readRecords_tornHeader_crc32 :
    let w := WalWriter.new.addRecords crc32 []
    let file := (w.addRecord crc32 [0x61]).written.take (w.padTrailer.written.length + 4) ++
      List.replicate blockSize 0
    4 < headerSize ∧ blockSize ≤ blockSize ∧
      ((w.addRecord crc32 [0x61]).written.drop w.padTrailer.written.length).take 4 ≠
        List.replicate 4 0 ∧
      ((WalReader.new file).readRecords crc32 1).1 =
          [.error (.corruption "non-padding WAL zero record")] ∧
        ((WalReader.new file).readRecords crc32 1).2.lastErrorIsTruncation = false := by
  intro w file
  have hnz : ((w.addRecord crc32 [0x61]).written.drop w.padTrailer.written.length).take 4 ≠
      List.replicate 4 0 := by
    rw [show w = WalWriter.new from rfl, WalWriter.addRecord_of_fits crc32 _ (by decide)]
    decide +kernel
  exact ⟨by decide, le_rfl, hnz,
    WalReader.readRecords_tornHeader crc32 [] [0x61] 4 blockSize (by decide) le_rfl hnz⟩

end Recovery

end Mmdb.Wal
