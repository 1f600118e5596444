import Mmdb.Wal.Record

/-!
# The WAL reader

`src/wal/reader.rs`. The reader walks a file's bytes (`file`, read through a buffered cursor
at `pos`), tracks the offset inside the current block, and reassembles fragments into records.
It classifies every failure: a structural short read (a partial trailer, header or payload, an
all-zero header, a checksum mismatch whose payload ends in a zero byte, or a file ending inside a
fragmented record) sets `lastErrorIsTruncation`; an unknown type, a length past the block, a
`Zero`-type record with a non-zero header, or a fragment out of sequence clears it.

A read of `n` bytes from a file returns what is left of it, at most `n` bytes; the source's
retry loops around `read` therefore see either all `n` bytes, a short tail and then end of file,
or nothing. `read_exact` consumes what is left on a short read.

Every function returns its result together with the reader's next state.
-/

namespace Mmdb.Wal

/-- `WalReader`: the file, the stream position and the reader's bookkeeping. -/
structure WalReader where
  file : Bytes
  pos : Nat
  blockOffset : Nat
  eof : Bool
  lastValidOffset : Nat
  lastErrorIsTruncation : Bool
  deriving DecidableEq, Repr

/-- `WalReader::new` over a file's bytes. -/
def WalReader.new (file : Bytes) : WalReader := ⟨file, 0, 0, false, 0, false⟩

/-- The bytes a read of at most `n` bytes returns at the current position. -/
def WalReader.peek (r : WalReader) (n : Nat) : Bytes := (r.file.drop r.pos).take n

/-- Advance the stream position by `n` bytes. -/
def WalReader.skip (r : WalReader) (n : Nat) : WalReader := { r with pos := r.pos + n }

@[simp] theorem WalReader.skip_file (r : WalReader) (n : Nat) : (r.skip n).file = r.file := rfl
@[simp] theorem WalReader.skip_pos (r : WalReader) (n : Nat) : (r.skip n).pos = r.pos + n := rfl
@[simp] theorem WalReader.skip_blockOffset (r : WalReader) (n : Nat) :
    (r.skip n).blockOffset = r.blockOffset := rfl

/-- `fail_truncation`: a structural short read. -/
def WalReader.failTruncation {α : Type} (r : WalReader) (msg : String) :
    Result α × WalReader :=
  (.error (.corruption msg), { r with lastErrorIsTruncation := true })

/-- `fail_corruption`: a semantic failure, never a torn tail. -/
def WalReader.failCorruption {α : Type} (r : WalReader) (msg : String) :
    Result α × WalReader :=
  (.error (.corruption msg), { r with lastErrorIsTruncation := false })

/-- `{:#x}` of a `u32`. -/
def hexU32 (x : UInt32) : String := "0x" ++ String.ofList (Nat.toDigits 16 x.toNat)

section Reader

variable (crc : Bytes → UInt32)

/-- The part of `read_physical_record` after the trailer: read a header and its payload, at a
block offset with room for a header. -/
def WalReader.readFragment (r : WalReader) : Result (Option (RecordType × Bytes)) × WalReader :=
  let header := r.peek headerSize
  if header.length = 0 then (.ok none, r)
  else if header.length < headerSize then
    (r.skip header.length).failTruncation "truncated WAL record header"
  else
    let r := r.skip headerSize
    if header = List.replicate headerSize 0 then
      r.failTruncation "zero WAL record before proven zero tail"
    else
      let (checksum, length, recordType) := decodeHeader header
      match recordType with
      | none =>
        let typeByte := header.getD 6 0
        r.failCorruption s!"unknown WAL record type: {typeByte}"
      | some recordType =>
        let length := length.toNat
        let remaining := blockSize - r.blockOffset - headerSize
        if length > remaining then
          r.failCorruption
            s!"WAL record length {length} exceeds remaining block space {remaining}"
        else
          let data := r.peek length
          if data.length < length then
            (r.skip data.length).failTruncation "truncated WAL record payload"
          else
            let r := { r.skip length with blockOffset := r.blockOffset + headerSize + length }
            if recordType = .zero then
              r.failCorruption "non-padding WAL zero record"
            else
              let expected := crc (recordType.toU8 :: data)
              if checksum ≠ expected then
                let expectedHex := hexU32 expected
                let gotHex := hexU32 checksum
                let msg := s!"WAL checksum mismatch: expected {expectedHex}, got {gotHex}"
                -- Only a payload ending in a zero byte can be a torn, zero-extended tail.
                if data.getLast? = some 0 then r.failTruncation msg else r.failCorruption msg
              else (.ok (some (recordType, data)), r)

/-- `read_physical_record`: skip a block trailer too short for a header (a clean end of file at
its start is the end of the log, a partial one a torn tail), then read one fragment. -/
def WalReader.readPhysicalRecord (r : WalReader) : Result (Option (RecordType × Bytes)) × WalReader :=
  let leftover := blockSize - r.blockOffset
  if leftover < headerSize then
    let skipped := r.peek leftover
    if 0 < leftover ∧ skipped.length = 0 then (.ok none, r)
    else if skipped.length < leftover then
      (r.skip skipped.length).failTruncation "truncated WAL block trailer"
    else ({ r.skip leftover with blockOffset := 0 }).readFragment crc
  else r.readFragment crc

/-! ## What a successful physical read did -/

@[simp] theorem WalReader.failTruncation_ne_ok {α : Type} (r r' : WalReader) (msg : String)
    (a : α) : r.failTruncation msg ≠ (.ok a, r') := by
  simp [WalReader.failTruncation]

@[simp] theorem WalReader.failCorruption_ne_ok {α : Type} (r r' : WalReader) (msg : String)
    (a : α) : r.failCorruption msg ≠ (.ok a, r') := by
  simp [WalReader.failCorruption]

/-- A branch that cannot give `z` was not taken. -/
theorem of_ite_eq_of_ne {α : Type} {c : Prop} [Decidable c] {x y z : α} (hy : y ≠ z)
    (h : (if c then y else x) = z) : ¬c ∧ x = z :=
  (ite_eq_iff.mp h).resolve_left fun hc => hy hc.2

theorem WalReader.peek_length (r : WalReader) (n : Nat) :
    (r.peek n).length = min n (r.file.length - r.pos) := by
  simp [WalReader.peek]

/-- A fragment read that returns a fragment read a whole header and the whole payload it
announced, which fits in the block and in the file. -/
theorem WalReader.readFragment_ok_some {r r' : WalReader} {rt : RecordType} {data : Bytes}
    (h : r.readFragment crc = (.ok (some (rt, data)), r')) :
    (r.skip headerSize).peek data.length = data ∧
      data.length ≤ blockSize - r.blockOffset - headerSize ∧
      r.pos + headerSize + data.length ≤ r.file.length ∧
      r' = { r with pos := r.pos + headerSize + data.length,
                    blockOffset := r.blockOffset + headerSize + data.length } := by
  unfold WalReader.readFragment at h
  generalize hheader : r.peek headerSize = header at h
  rcases hdec : decodeHeader header with ⟨checksum, length, _ | recordType⟩
  · simp only [hdec] at h
    split_ifs at h <;> simp at h
  · simp only [hdec] at h
    -- every branch but the last ends in no fragment or in an error
    obtain ⟨h0, h⟩ := of_ite_eq_of_ne (by simp) h
    obtain ⟨h1, h⟩ := of_ite_eq_of_ne (WalReader.failTruncation_ne_ok _ _ _ _) h
    obtain ⟨-, h⟩ := of_ite_eq_of_ne (WalReader.failTruncation_ne_ok _ _ _ _) h
    obtain ⟨h3, h⟩ := of_ite_eq_of_ne (WalReader.failCorruption_ne_ok _ _ _ _) h
    obtain ⟨h4, h⟩ := of_ite_eq_of_ne (WalReader.failTruncation_ne_ok _ _ _ _) h
    obtain ⟨-, h⟩ := of_ite_eq_of_ne (WalReader.failCorruption_ne_ok _ _ _ _) h
    obtain ⟨-, h⟩ := of_ite_eq_of_ne (by split <;> simp) h
    simp only [Prod.mk.injEq, Except.ok.injEq, Option.some.injEq] at h
    obtain ⟨⟨rfl, rfl⟩, rfl⟩ := h
    subst hheader
    have hheaderLen := WalReader.peek_length r headerSize
    have hdataLen := WalReader.peek_length (r.skip headerSize) length.toNat
    simp only [WalReader.skip_file, WalReader.skip_pos, WalReader.skip_blockOffset] at h3 hdataLen
    have hlen : ((r.skip headerSize).peek length.toNat).length = length.toNat := by
      omega
    refine ⟨by rw [hlen], by omega, by omega, ?_⟩
    rw [hlen]
    simp only [WalReader.skip, Nat.add_assoc]

/-- A physical read that returns a fragment moved forward by at least a header, inside the
file. -/
theorem WalReader.readPhysicalRecord_advance {r r' : WalReader} {rt : RecordType}
    {data : Bytes} (h : r.readPhysicalRecord crc = (.ok (some (rt, data)), r')) :
    r.pos + headerSize ≤ r'.pos ∧ r'.pos ≤ r.file.length ∧ r'.file = r.file := by
  unfold WalReader.readPhysicalRecord at h
  simp only at h
  split_ifs at h with hroom hclean hshort <;> try simp at h
  · obtain ⟨-, -, hfile, rfl⟩ := WalReader.readFragment_ok_some crc h
    refine ⟨?_, ?_, rfl⟩ <;> simp only at hfile ⊢ <;> omega
  · obtain ⟨-, -, hfile, rfl⟩ := WalReader.readFragment_ok_some crc h
    exact ⟨Nat.le_add_right _ _, hfile, rfl⟩

/-! ## Records -/

/-- The loop of `read_record`: read fragments until a record is complete. `result` holds the
fragments of a record begun by a `First` fragment. -/
def WalReader.readRecordLoop (r : WalReader) (result : Bytes) (inFragmentedRecord : Bool) :
    Result (Option Bytes) × WalReader :=
  match _h : r.readPhysicalRecord crc with
  | (.error e, r') => (.error e, r')
  | (.ok none, r') =>
    let r' := { r' with eof := true }
    if inFragmentedRecord then r'.failTruncation "partial WAL record without end"
    else (.ok none, r')
  | (.ok (some (.full, data)), r') =>
    if inFragmentedRecord then r'.failCorruption "full record inside fragment"
    else (.ok (some data), { r' with lastValidOffset := r'.pos })
  | (.ok (some (.first, data)), r') =>
    if inFragmentedRecord then r'.failCorruption "first record inside fragment"
    else r'.readRecordLoop data true
  | (.ok (some (.middle, data)), r') =>
    if !inFragmentedRecord then r'.failCorruption "middle record without first"
    else r'.readRecordLoop (result ++ data) true
  | (.ok (some (.last, data)), r') =>
    if !inFragmentedRecord then r'.failCorruption "last record without first"
    else (.ok (some (result ++ data)), { r' with lastValidOffset := r'.pos })
  -- `unreachable!`: a physical read turns every `Zero` record into an error.
  | (.ok (some (.zero, _)), r') => r'.failCorruption "zero records are handled as padding"
termination_by r.file.length - r.pos
decreasing_by
  all_goals
    obtain ⟨hforward, hinside, hfile⟩ := WalReader.readPhysicalRecord_advance crc _h
    simp only [headerSize] at hforward
    rw [hfile]
    omega

/-! ## How the record loop consumes a physical read

The loop looks at the reader only through its next physical read: readers whose physical reads
agree run the same loop. The equations below give the loop's step for each outcome of a
physical read it meets on a correct log. -/

theorem WalReader.readRecordLoop_congr {r₁ r₂ : WalReader}
    (h : r₁.readPhysicalRecord crc = r₂.readPhysicalRecord crc) (result : Bytes)
    (inFragmentedRecord : Bool) :
    r₁.readRecordLoop crc result inFragmentedRecord =
      r₂.readRecordLoop crc result inFragmentedRecord := by
  rw [WalReader.readRecordLoop, WalReader.readRecordLoop]
  -- split the left loop's match, then the right one's on the same outcome
  split
  all_goals
    rename_i outcome
    rw [h] at outcome
    symm
    split <;> simp_all

theorem WalReader.readRecordLoop_of_error {r r' : WalReader} {e : Error}
    (h : r.readPhysicalRecord crc = (.error e, r')) (result : Bytes) (inFragmentedRecord : Bool) :
    r.readRecordLoop crc result inFragmentedRecord = (.error e, r') := by
  rw [WalReader.readRecordLoop]
  split <;> simp_all

theorem WalReader.readRecordLoop_of_full {r r' : WalReader} {data : Bytes}
    (h : r.readPhysicalRecord crc = (.ok (some (.full, data)), r')) (result : Bytes) :
    r.readRecordLoop crc result false = (.ok (some data), { r' with lastValidOffset := r'.pos }) := by
  rw [WalReader.readRecordLoop]
  split <;> simp_all

theorem WalReader.readRecordLoop_of_first {r r' : WalReader} {data : Bytes}
    (h : r.readPhysicalRecord crc = (.ok (some (.first, data)), r')) (result : Bytes) :
    r.readRecordLoop crc result false = r'.readRecordLoop crc data true := by
  rw [WalReader.readRecordLoop]
  split <;> simp_all

theorem WalReader.readRecordLoop_of_middle {r r' : WalReader} {data : Bytes}
    (h : r.readPhysicalRecord crc = (.ok (some (.middle, data)), r')) (result : Bytes) :
    r.readRecordLoop crc result true = r'.readRecordLoop crc (result ++ data) true := by
  rw [WalReader.readRecordLoop]
  split <;> simp_all

theorem WalReader.readRecordLoop_of_last {r r' : WalReader} {data : Bytes}
    (h : r.readPhysicalRecord crc = (.ok (some (.last, data)), r')) (result : Bytes) :
    r.readRecordLoop crc result true =
      (.ok (some (result ++ data)), { r' with lastValidOffset := r'.pos }) := by
  rw [WalReader.readRecordLoop]
  split <;> simp_all

theorem WalReader.readRecordLoop_of_none {r r' : WalReader}
    (h : r.readPhysicalRecord crc = (.ok none, r')) (result : Bytes) :
    r.readRecordLoop crc result false = (.ok none, { r' with eof := true }) := by
  rw [WalReader.readRecordLoop]
  split <;> simp_all

/-! ## The end of the file -/

theorem WalReader.readFragment_at_end {r : WalReader} (hend : r.file.length ≤ r.pos) :
    r.readFragment crc = (.ok none, r) := by
  have empty : (r.peek headerSize).length = 0 := by
    rw [WalReader.peek_length]
    omega
  unfold WalReader.readFragment
  simp [empty]

/-- At the end of the file a physical read finds nothing, at a block trailer or not. -/
theorem WalReader.readPhysicalRecord_at_end {r : WalReader} (hend : r.file.length ≤ r.pos) :
    ∃ r' : WalReader, r.readPhysicalRecord crc = (.ok none, r') ∧
      r'.lastValidOffset = r.lastValidOffset := by
  have empty : ∀ n, (r.peek n).length = 0 := fun n => by
    rw [WalReader.peek_length]
    omega
  unfold WalReader.readPhysicalRecord
  simp only [empty, and_true]
  split_ifs with htrailer hclean
  · exact ⟨r, rfl, rfl⟩
  · -- a trailer of length zero: the reader moves to the next block, past the end
    exact ⟨_, WalReader.readFragment_at_end crc (by simp; omega), rfl⟩
  · exact ⟨r, WalReader.readFragment_at_end crc hend, rfl⟩

/-- `read_record`: the next complete record, `none` at the end of the log. -/
def WalReader.readRecord (r : WalReader) : Result (Option Bytes) × WalReader :=
  if r.eof then (.ok none, r) else r.readRecordLoop crc [] false

/-- At the end of the file there is no further record, and the last valid offset stays. -/
theorem WalReader.readRecord_at_end {r : WalReader} (hend : r.file.length ≤ r.pos) :
    (r.readRecord crc).1 = .ok none ∧ (r.readRecord crc).2.lastValidOffset = r.lastValidOffset := by
  unfold WalReader.readRecord
  split_ifs
  · exact ⟨rfl, rfl⟩
  · obtain ⟨r', hphys, hvalid⟩ := WalReader.readPhysicalRecord_at_end crc hend
    rw [WalReader.readRecordLoop_of_none crc hphys]
    exact ⟨rfl, hvalid⟩

end Reader

/-- `rest_is_zero_padding`: whether every byte from the position to the end is zero; consumes
them. -/
def WalReader.restIsZeroPadding (r : WalReader) : Bool × WalReader :=
  ((r.file.drop r.pos).all (· == 0), { r with pos := r.file.length })

end Mmdb.Wal
