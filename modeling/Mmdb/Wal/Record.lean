import Mmdb.Types

/-!
# The WAL record format

`src/wal/record.rs`. A log is cut into 32 KiB blocks; every record is one or more physical
fragments, each a 7-byte header (checksum, length, type; little-endian) and its payload. A
record that does not fit in what is left of a block continues in the next one as `First`,
`Middle`, ..., `Last`; a block tail too short for a header is zero padding.

The checksum is `crc32fast::Hasher` over the type byte and the payload. The writer and the
reader take it as a parameter `crc`, since nothing about the log's framing depends on which
function it is; `crc32` is the function the crate computes (CRC-32/ISO-HDLC, reflected
polynomial `0xEDB88320`), used where a concrete log is evaluated.
-/

namespace Mmdb.Wal

/-- `BLOCK_SIZE`: 32 KiB. -/
def blockSize : Nat := 32 * 1024

/-- `HEADER_SIZE`: checksum (4) + length (2) + type (1). -/
def headerSize : Nat := 7

/-- `RecordType`. `Zero` is reserved for pre-allocated (zero-filled) file regions. -/
inductive RecordType where
  | zero
  | full
  | first
  | middle
  | last
  deriving DecidableEq, Repr

/-- The `#[repr(u8)]` discriminant. -/
def RecordType.toU8 : RecordType → UInt8
  | .zero => 0
  | .full => 1
  | .first => 2
  | .middle => 3
  | .last => 4

/-- `RecordType::from_u8`. -/
def RecordType.fromU8 (v : UInt8) : Option RecordType :=
  if v = 0 then some .zero
  else if v = 1 then some .full
  else if v = 2 then some .first
  else if v = 3 then some .middle
  else if v = 4 then some .last
  else none

@[simp] theorem RecordType.fromU8_toU8 (rt : RecordType) : RecordType.fromU8 rt.toU8 = some rt := by
  cases rt <;> rfl

/-- `u32::to_le_bytes`. -/
def u32LeBytes (x : UInt32) : Bytes :=
  [UInt8.ofNat x.toNat, UInt8.ofNat (x.toNat / 256), UInt8.ofNat (x.toNat / 65536),
    UInt8.ofNat (x.toNat / 16777216)]

/-- `u16::to_le_bytes`. -/
def u16LeBytes (x : UInt16) : Bytes :=
  [UInt8.ofNat x.toNat, UInt8.ofNat (x.toNat / 256)]

/-- `u32::from_le_bytes`. -/
def u32FromLeBytes (b0 b1 b2 b3 : UInt8) : UInt32 :=
  UInt32.ofNat (b0.toNat + 256 * b1.toNat + 65536 * b2.toNat + 16777216 * b3.toNat)

/-- `u16::from_le_bytes`. -/
def u16FromLeBytes (b0 b1 : UInt8) : UInt16 :=
  UInt16.ofNat (b0.toNat + 256 * b1.toNat)

/-- `encode_header`: the 7 header bytes. -/
def encodeHeader (checksum : UInt32) (length : UInt16) (recordType : RecordType) : Bytes :=
  u32LeBytes checksum ++ u16LeBytes length ++ [recordType.toU8]

/-- `decode_header` of a 7-byte buffer: checksum, length, and the record type (`none` for an
unknown type byte). -/
def decodeHeader (buf : Bytes) : UInt32 × UInt16 × Option RecordType :=
  (u32FromLeBytes (buf.getD 0 0) (buf.getD 1 0) (buf.getD 2 0) (buf.getD 3 0),
   u16FromLeBytes (buf.getD 4 0) (buf.getD 5 0),
   RecordType.fromU8 (buf.getD 6 0))

@[simp] theorem encodeHeader_length (checksum : UInt32) (length : UInt16) (rt : RecordType) :
    (encodeHeader checksum length rt).length = headerSize := rfl

theorem decodeHeader_encodeHeader (checksum : UInt32) (length : UInt16) (rt : RecordType) :
    decodeHeader (encodeHeader checksum length rt) = (checksum, length, some rt) := by
  simp only [decodeHeader, encodeHeader, u32LeBytes, u16LeBytes, List.cons_append,
    List.nil_append, List.getD_cons_succ, List.getD_cons_zero, RecordType.fromU8_toU8,
    Prod.mk.injEq, and_true]
  constructor
  · have hx := checksum.toNat_lt
    apply UInt32.toNat_inj.mp
    simp only [u32FromLeBytes, UInt32.toNat_ofNat', UInt8.toNat_ofNat', Nat.reducePow]
    omega
  · have hx := length.toNat_lt
    apply UInt16.toNat_inj.mp
    simp only [u16FromLeBytes, UInt16.toNat_ofNat', UInt8.toNat_ofNat', Nat.reducePow]
    omega

/-- A fragment's length, at most a block, fits in the header's two length bytes. -/
theorem fragmentLength_toNat {n : Nat} (h : n ≤ blockSize) : (UInt16.ofNat n).toNat = n := by
  apply UInt16.toNat_ofNat_of_lt'
  simp only [blockSize, UInt16.size] at h ⊢
  omega

theorem u16FromLeBytes_toNat (b0 b1 : UInt8) :
    (u16FromLeBytes b0 b1).toNat = b0.toNat + 256 * b1.toNat := by
  have := b0.toNat_lt
  have := b1.toNat_lt
  simp only [u16FromLeBytes, UInt16.toNat_ofNat', Nat.reducePow]
  omega

/-- The type byte is a header's last, so the header of a non-`Zero` fragment is never all
zeros. -/
theorem encodeHeader_ne_zeros (checksum : UInt32) (length : UInt16) {rt : RecordType}
    (nonzero : rt ≠ .zero) : encodeHeader checksum length rt ≠ List.replicate headerSize 0 := by
  intro allZero
  have typeByte := congrArg (fun header => header.getD 6 0) allZero
  simp only [encodeHeader, u32LeBytes, u16LeBytes, headerSize] at typeByte
  cases rt <;> simp_all [RecordType.toU8]

/-- Byte `i` of the first `k` bytes of `l` followed by zeros. -/
theorem getD_take_append_zeros {l : Bytes} {k : Nat} (hk : k ≤ l.length) (m i : Nat) :
    (l.take k ++ List.replicate m 0).getD i 0 = if i < k then l.getD i 0 else 0 := by
  have htake : (l.take k).length = k := by simp [hk]
  split_ifs with hi
  · rw [List.getD_append _ _ _ _ (by omega)]
    simp [List.getD_eq_getElem?_getD, hi]
  · rw [List.getD_append_right _ _ _ _ (by omega)]
    simp [List.getD_eq_getElem?_getD, List.getElem?_replicate]
    split_ifs <;> rfl

/-- A header torn inside its seven bytes and zero-filled decodes as a `Zero` record, of a length
no larger than the one the whole header announces. -/
theorem decodeHeader_torn {header : Bytes} {k : Nat} (hheader : header.length = headerSize)
    (hk : k < headerSize) (m : Nat) :
    (decodeHeader (header.take k ++ List.replicate m 0)).2.2 = some .zero ∧
      (decodeHeader (header.take k ++ List.replicate m 0)).2.1.toNat ≤
        (decodeHeader header).2.1.toNat := by
  have hle : k ≤ header.length := by omega
  simp only [decodeHeader, getD_take_append_zeros hle, u16FromLeBytes_toNat]
  simp only [headerSize] at hk
  refine ⟨by simp [show ¬6 < k by omega]; rfl, ?_⟩
  have zeroByte : (0 : UInt8).toNat = 0 := rfl
  split_ifs <;> omega

/-! ## The checksum the crate computes -/

/-- One byte of the reflected CRC-32 (polynomial `0xEDB88320`), bit by bit. -/
def crc32Update (crc : UInt32) (byte : UInt8) : UInt32 :=
  (List.range 8).foldl (fun c _ => if c &&& 1 = 1 then (c >>> 1) ^^^ 0xEDB88320 else c >>> 1)
    (crc ^^^ byte.toUInt32)

/-- `crc32fast::Hasher::new`, `update` and `finalize`: CRC-32/ISO-HDLC. -/
def crc32 (data : Bytes) : UInt32 :=
  data.foldl crc32Update 0xFFFFFFFF ^^^ 0xFFFFFFFF

example : crc32 [1, 0x61] = 0x62777270 := by decide +kernel

end Mmdb.Wal
