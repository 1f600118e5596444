import Mmdb.Types
import Mmdb.Lib.Except
import Mmdb.Lib.LittleEndian
import Mmdb.Manifest.EditCodec

/-!
# Block handles, the footer and index values of an SST file

`src/sst/format.rs`. A block handle is two `u64` little-endian; the footer is the metaindex
and index handles, eight bytes of padding and `TABLE_MAGIC`; an index value is a handle, a
`u32`-length first key and, optionally, a `u16` count of block properties, each a `u16`-length
name and a `u16`-length value. The decoder of index values accepts the older shapes (a handle
alone, a handle and a first key) and tells them apart by the length of its input.

**Round trips.** `BlockHandle.decode_encode` and `decodeFooter_encodeFooter` hold for every
handle. An index value round-trips when its first key is shorter than `2^32`
(`decodeIndexValueWithProps_encode`): `encode_index_value` writes the length `as u32`, so a key of
`2^32` bytes is written with length `0`, and its first bytes are then read as the property count
(`decodeIndexValueWithProps_long_first_key`).
-/

namespace Mmdb

/-- `Error::invalid_argument`. -/
def Error.invalidArgument (msg : String) : Error := ⟨.invalidArgument, msg⟩

/-- `TABLE_MAGIC`, `"MMDBSST\0"`. -/
def tableMagic : UInt64 := 0x4D4D444253535400

/-- `FOOTER_SIZE`. -/
def footerSize : Nat := 48

/-- `BlockHandle`: where a block sits in the file. -/
structure BlockHandle where
  offset : UInt64
  size : UInt64
  deriving DecidableEq, Repr

namespace BlockHandle

/-- `BlockHandle::encode`. -/
def encode (h : BlockHandle) : Bytes := leBytes 8 h.offset.toNat ++ leBytes 8 h.size.toNat

/-- `BlockHandle::decode`: the first sixteen bytes. -/
def decode (buf : Bytes) : Result BlockHandle :=
  let got := buf.length
  if buf.length < 16 then .error (.corruption s!"BlockHandle::decode: need 16 bytes, got {got}")
  else .ok ⟨UInt64.ofNat (leValue (buf.slice 0 8)), UInt64.ofNat (leValue (buf.slice 8 8))⟩

@[simp] theorem length_encode (h : BlockHandle) : h.encode.length = 16 := by
  simp [encode]

/-- A `u64` written little-endian reads back. -/
theorem read_u64 {data rest : Bytes} {pos : Nat} {x : UInt64}
    (h : data.drop pos = leBytes 8 x.toNat ++ rest) :
    ¬ pos + 8 > data.length ∧ UInt64.ofNat (leValue (data.slice pos 8)) = x ∧
      data.drop (pos + 8) = rest := by
  obtain ⟨hbound, hval, hafter⟩ := read_le (by decide) x.toNat_lt h
  exact ⟨hbound, by rw [hval, UInt64.ofNat_toNat], hafter⟩

/-- A handle at the start of the input reads back, whatever follows it. -/
theorem decode_encode_append (h : BlockHandle) (rest : Bytes) : decode (h.encode ++ rest) = .ok h := by
  have h0 : (h.encode ++ rest).drop 0 = leBytes 8 h.offset.toNat ++ (leBytes 8 h.size.toNat ++ rest) := by
    simp [encode]
  obtain ⟨-, hoffset, h8⟩ := read_u64 h0
  obtain ⟨-, hsize, -⟩ := read_u64 h8
  simp only [decode, List.length_append, length_encode, hoffset, hsize]
  rw [if_neg (by omega)]

theorem decode_encode (h : BlockHandle) : decode h.encode = .ok h := by
  simpa using decode_encode_append h []

end BlockHandle

/-- The footer, `[u8; FOOTER_SIZE]`. -/
abbrev FooterBytes := { b : Bytes // b.length = footerSize }

/-- `encode_footer`. -/
def encodeFooter (metaindexHandle indexHandle : BlockHandle) : FooterBytes :=
  ⟨metaindexHandle.encode ++ indexHandle.encode ++ List.replicate 8 0 ++ leBytes 8 tableMagic.toNat,
    by simp [footerSize]⟩

/-- `decode_footer`: the magic number first, then the two handles. -/
def decodeFooter (data : FooterBytes) : Result (BlockHandle × BlockHandle) := do
  let magic := UInt64.ofNat (leValue (data.1.slice 40 8))
  if magic ≠ tableMagic then
    throw (.corruption ("invalid SST magic: 0x" ++ String.ofList (Nat.toDigits 16 magic.toNat)))
  let metaindexHandle ← BlockHandle.decode (data.1.slice 0 16)
  let indexHandle ← BlockHandle.decode (data.1.slice 16 16)
  pure (metaindexHandle, indexHandle)

theorem decodeFooter_encodeFooter (metaindexHandle indexHandle : BlockHandle) :
    decodeFooter (encodeFooter metaindexHandle indexHandle) = .ok (metaindexHandle, indexHandle) := by
  have hmagic : ((encodeFooter metaindexHandle indexHandle).1).drop 40 =
      leBytes 8 tableMagic.toNat ++ [] := by
    simp [encodeFooter, List.drop_append, List.drop_eq_nil_of_le]
  have hmeta : (encodeFooter metaindexHandle indexHandle).1.slice 0 16 = metaindexHandle.encode := by
    simp [encodeFooter, List.slice]
  have hindex : (encodeFooter metaindexHandle indexHandle).1.slice 16 16 = indexHandle.encode := by
    simp [encodeFooter, List.slice]
  obtain ⟨-, hval, -⟩ := BlockHandle.read_u64 hmagic
  simp only [decodeFooter, hval, ne_eq, not_true_eq_false, ↓reduceIte, hmeta, hindex,
    BlockHandle.decode_encode, Except.ok_bind, Except.pure_eq_ok]

/-! ## Index values -/

/-- `encode_index_value`: the handle, the first key's length `as u32`, the first key. -/
def encodeIndexValue (handle : BlockHandle) (firstKey : Bytes) : Bytes :=
  handle.encode ++ leBytes 4 firstKey.length ++ firstKey

/-- One block property as `encode_index_value_with_props` writes it. -/
def encodeProperty (property : Bytes × Bytes) : Bytes :=
  leBytes 2 property.1.length ++ property.1 ++ leBytes 2 property.2.length ++ property.2

/-- One pass of the property loop of `encode_index_value_with_props`: both lengths must fit a
`u16`. Property names are the `&str`s' bytes. -/
def appendProperty (buf : Bytes) (property : Bytes × Bytes) : Result Bytes := do
  if property.1.length ≥ 2 ^ 16 then throw (.invalidArgument "block property name too large")
  if property.2.length ≥ 2 ^ 16 then throw (.invalidArgument "block property data too large")
  pure (buf ++ encodeProperty property)

/-- `encode_index_value_with_props`. -/
def encodeIndexValueWithProps (handle : BlockHandle) (firstKey : Bytes)
    (properties : List (Bytes × Bytes)) : Result Bytes := do
  let buf := encodeIndexValue handle firstKey
  if properties.length ≥ 2 ^ 16 then throw (.invalidArgument "too many block properties")
  properties.foldlM appendProperty (buf ++ leBytes 2 properties.length)

/-- `DecodedIndexValue`. -/
structure DecodedIndexValue where
  handle : BlockHandle
  firstKey : Option Bytes
  properties : List (Bytes × Bytes)
  deriving DecidableEq, Repr

/-- The property loop of `decode_index_value_with_props`: `count` properties from `offset`, and
the offset after them. -/
def decodeProperties (data : Bytes) : Nat → Nat → Result (List (Bytes × Bytes) × Nat)
  | 0, offset => .ok ([], offset)
  | count + 1, offset => do
    if data.length < offset + 2 then throw (.corruption "truncated block property name length")
    let nameLen := leValue (data.slice offset 2)
    let offset := offset + 2
    if data.length < offset + nameLen then throw (.corruption "truncated block property name")
    let name := data.slice offset nameLen
    let offset := offset + nameLen
    if data.length < offset + 2 then throw (.corruption "truncated block property data length")
    let dataLen := leValue (data.slice offset 2)
    let offset := offset + 2
    if data.length < offset + dataLen then throw (.corruption "truncated block property data")
    let propData := data.slice offset dataLen
    let (properties, offset) ← decodeProperties data count (offset + dataLen)
    pure ((name, propData) :: properties, offset)

/-- `decode_index_value_with_props`. -/
def decodeIndexValueWithProps (data : Bytes) : Result DecodedIndexValue := do
  let handle ← BlockHandle.decode data
  if data.length ≤ 16 then return ⟨handle, none, []⟩
  -- the first key; the shorter inputs were answered above, so the last branch is not taken
  let (firstKey, offset) ←
    if data.length ≥ 16 + 4 then do
      let fkLen := leValue (data.slice 16 4)
      if data.length < 16 + 4 + fkLen then throw (.corruption "truncated index first_key")
      pure (if fkLen > 0 then some (data.slice (16 + 4) fkLen) else none, 16 + 4 + fkLen)
    else if data.length > 16 then throw (.corruption "truncated index first_key length")
    else pure (none, 16)
  -- the properties, if present
  if data.length ≥ offset + 2 then
    let numProps := leValue (data.slice offset 2)
    let (properties, offset) ← decodeProperties data numProps (offset + 2)
    if offset ≠ data.length then throw (.corruption "trailing bytes after block properties")
    return ⟨handle, firstKey, properties⟩
  else if data.length > offset then throw (.corruption "truncated block property count")
  else return ⟨handle, firstKey, []⟩

/-- The lengths of a property fit the `u16`s they are written in. -/
def PropertyFits (property : Bytes × Bytes) : Prop :=
  property.1.length < 2 ^ 16 ∧ property.2.length < 2 ^ 16

section IndexValue

variable {handle : BlockHandle} {firstKey : Bytes} {properties : List (Bytes × Bytes)}

theorem appendProperty_eq_ok {buf : Bytes} {property : Bytes × Bytes} (hfit : PropertyFits property) :
    appendProperty buf property = .ok (buf ++ encodeProperty property) := by
  simp only [appendProperty, if_neg (Nat.not_le.mpr hfit.1), if_neg (Nat.not_le.mpr hfit.2),
    Except.pure_eq_ok]

theorem foldlM_appendProperty (hfit : ∀ p ∈ properties, PropertyFits p) (buf : Bytes) :
    properties.foldlM appendProperty buf = .ok (buf ++ properties.flatMap encodeProperty) := by
  induction properties generalizing buf with
  | nil => simp
  | cons property properties ih =>
    rw [List.foldlM_cons, appendProperty_eq_ok (hfit property (by simp)), Except.ok_bind,
      ih (fun p hp => hfit p (by simp [hp]))]
    simp

/-- What `encode_index_value_with_props` writes when it accepts its input. -/
theorem encodeIndexValueWithProps_eq_ok (hcount : properties.length < 2 ^ 16)
    (hfit : ∀ p ∈ properties, PropertyFits p) :
    encodeIndexValueWithProps handle firstKey properties =
      .ok (encodeIndexValue handle firstKey ++ leBytes 2 properties.length ++
        properties.flatMap encodeProperty) := by
  simp only [encodeIndexValueWithProps, if_neg (Nat.not_le.mpr hcount),
    foldlM_appendProperty hfit]

theorem propertyFits_of_appendProperty {buf out : Bytes} {property : Bytes × Bytes}
    (h : appendProperty buf property = .ok out) : PropertyFits property := by
  unfold appendProperty at h
  by_cases hname : property.1.length ≥ 2 ^ 16
  · rw [if_pos hname] at h
    cases h
  by_cases hvalue : property.2.length ≥ 2 ^ 16
  · rw [if_neg hname, if_pos hvalue] at h
    cases h
  exact ⟨by omega, by omega⟩

/-- What `encode_index_value_with_props` accepts: fewer than `2^16` properties, each of whose
lengths fits. -/
theorem fits_of_encodeIndexValueWithProps {bytes : Bytes}
    (h : encodeIndexValueWithProps handle firstKey properties = .ok bytes) :
    properties.length < 2 ^ 16 ∧ ∀ p ∈ properties, PropertyFits p := by
  unfold encodeIndexValueWithProps at h
  by_cases hcount : properties.length ≥ 2 ^ 16
  · rw [if_pos hcount] at h
    cases h
  simp only [if_neg hcount] at h
  refine ⟨by omega, ?_⟩
  generalize encodeIndexValue handle firstKey ++ leBytes 2 properties.length = buf at h
  induction properties generalizing buf with
  | nil => simp
  | cons property properties ih =>
    obtain ⟨buf', hstep, hrest⟩ := Except.foldlM_cons_eq_ok.mp h
    intro p hp
    rcases List.mem_cons.mp hp with rfl | hp
    · exact propertyFits_of_appendProperty hstep
    · exact ih (by simp at hcount; omega) buf' hrest p hp

/-- The property loop reads back the properties written at `offset`. -/
theorem decodeProperties_of_eq {data rest : Bytes} (hfit : ∀ p ∈ properties, PropertyFits p)
    {offset : Nat} (h : data.drop offset = properties.flatMap encodeProperty ++ rest) :
    decodeProperties data properties.length offset =
      .ok (properties, offset + (properties.flatMap encodeProperty).length) := by
  induction properties generalizing offset with
  | nil => simp [decodeProperties]
  | cons property properties ih =>
    obtain ⟨name, value⟩ := property
    obtain ⟨hname, hvalue⟩ := hfit (name, value) (by simp)
    simp only [List.flatMap_cons, encodeProperty, List.append_assoc] at h
    obtain ⟨hb1, hnameLen, h⟩ := read_le (by decide) (by simpa using hname) h
    obtain ⟨hb2, hnameBytes, h⟩ := read_field h (by omega)
    obtain ⟨hb3, hvalueLen, h⟩ := read_le (by decide) (by simpa using hvalue) h
    obtain ⟨hb4, hvalueBytes, h⟩ := read_field h (by omega)
    have hrest := ih (fun p hp => hfit p (by simp [hp])) h
    simp only [decodeProperties, List.length_cons, if_neg hb1, hnameLen, if_neg hb2, hnameBytes,
      if_neg hb3, hvalueLen, if_neg hb4, hvalueBytes, hrest, Except.ok_bind, Except.pure_eq_ok]
    simp only [List.flatMap_cons, encodeProperty, List.length_append, length_leBytes]
    congr 2
    omega

/-- The handle and first key written at the start of the input read back, and the input goes on
after them. -/
theorem read_firstKey {data rest : Bytes} (hkey : firstKey.length < 2 ^ 32)
    (h : data = encodeIndexValue handle firstKey ++ rest) :
    BlockHandle.decode data = .ok handle ∧ ¬ data.length ≤ 16 ∧ data.length ≥ 16 + 4 ∧
      leValue (data.slice 16 4) = firstKey.length ∧
      ¬ data.length < 16 + 4 + firstKey.length ∧ data.slice (16 + 4) firstKey.length = firstKey ∧
      data.drop (16 + 4 + firstKey.length) = rest := by
  have h16 : data.drop 16 = leBytes 4 firstKey.length ++ (firstKey ++ rest) := by
    simp [h, encodeIndexValue]
  obtain ⟨hb, hlen, h20⟩ := read_le (by decide) (by simpa using hkey) h16
  obtain ⟨hb', hkeyBytes, hrest⟩ := read_field h20 (by omega)
  refine ⟨by rw [h, encodeIndexValue, List.append_assoc, List.append_assoc,
    BlockHandle.decode_encode_append], by omega, by omega, hlen, by omega, hkeyBytes, hrest⟩

theorem firstKey_of_length (firstKey : Bytes) :
    (if firstKey.length > 0 then some firstKey else none) =
      if firstKey = [] then none else some firstKey := by
  cases firstKey <;> simp

/-- **The index value round trip.** A first key shorter than `2^32` and properties that
`encode_index_value_with_props` accepts read back. -/
theorem decodeIndexValueWithProps_encode (hkey : firstKey.length < 2 ^ 32)
    (hcount : properties.length < 2 ^ 16) (hfit : ∀ p ∈ properties, PropertyFits p) :
    decodeIndexValueWithProps (encodeIndexValue handle firstKey ++ leBytes 2 properties.length ++
      properties.flatMap encodeProperty) = .ok ⟨handle, if firstKey = [] then none else some firstKey,
        properties⟩ := by
  generalize hdata : encodeIndexValue handle firstKey ++ leBytes 2 properties.length ++
    properties.flatMap encodeProperty = data
  have hd : data = encodeIndexValue handle firstKey ++
      (leBytes 2 properties.length ++ (properties.flatMap encodeProperty ++ [])) := by
    rw [← hdata, List.append_nil, List.append_assoc]
  obtain ⟨hhandle, hshort, hlong, hlen, hb, hkeyBytes, hrest⟩ := read_firstKey hkey hd
  have hcount' : properties.length < 256 ^ 2 := hcount
  obtain ⟨hb', hcountLen, hprops⟩ := read_le (by decide) hcount' hrest
  have hend := decodeProperties_of_eq hfit hprops
  have htotal : data.length = 16 + 4 + firstKey.length + 2 +
      (properties.flatMap encodeProperty).length := by
    rw [← hdata]
    simp [encodeIndexValue]
    omega
  simp only [decodeIndexValueWithProps, hhandle, Except.ok_bind, if_neg hshort, if_pos hlong, hlen,
    if_neg hb, hkeyBytes, Except.pure_eq_ok, firstKey_of_length,
    if_pos (show data.length ≥ 16 + 4 + firstKey.length + 2 by omega), hcountLen, hend,
    if_neg (show ¬ 16 + 4 + firstKey.length + 2 + (properties.flatMap encodeProperty).length ≠
      data.length by omega)]

/-- A handle and a first key without properties, as `encode_index_value` writes them, read back
with no properties. -/
theorem decodeIndexValueWithProps_encodeIndexValue (hkey : firstKey.length < 2 ^ 32) :
    decodeIndexValueWithProps (encodeIndexValue handle firstKey) =
      .ok ⟨handle, if firstKey = [] then none else some firstKey, []⟩ := by
  generalize hdata : encodeIndexValue handle firstKey = data
  obtain ⟨hhandle, hshort, hlong, hlen, hb, hkeyBytes, -⟩ :=
    read_firstKey hkey (by rw [← hdata, List.append_nil] : data = encodeIndexValue handle firstKey ++ [])
  have htotal : data.length = 16 + 4 + firstKey.length := by
    rw [← hdata]
    simp [encodeIndexValue]
    omega
  simp only [decodeIndexValueWithProps, hhandle, Except.ok_bind, if_neg hshort, if_pos hlong, hlen,
    if_neg hb, hkeyBytes, Except.pure_eq_ok, firstKey_of_length,
    if_neg (show ¬ data.length ≥ 16 + 4 + firstKey.length + 2 by omega),
    if_neg (show ¬ data.length > 16 + 4 + firstKey.length by omega)]

/-- A handle alone, the oldest index value, reads back with neither first key nor properties. -/
theorem decodeIndexValueWithProps_handle (handle : BlockHandle) :
    decodeIndexValueWithProps handle.encode = .ok ⟨handle, none, []⟩ := by
  simp [decodeIndexValueWithProps, BlockHandle.decode_encode]

end IndexValue

/-- A first key whose length is `2^32` is written with length `0`: the decoder takes no first
key, reads the key's first two bytes as the property count and, when they are zero, refuses the
bytes after them. -/
theorem decodeIndexValueWithProps_of_length_wrap (handle : BlockHandle) {firstKey : Bytes}
    (hlen : firstKey.length = 2 ^ 32) (hkey : firstKey.take 2 = [0, 0]) :
    decodeIndexValueWithProps (encodeIndexValue handle firstKey ++ [0, 0]) =
      .error (.corruption "trailing bytes after block properties") := by
  generalize hdata : encodeIndexValue handle firstKey ++ [0, 0] = data
  have h16 : data.drop 16 = leBytes 4 firstKey.length ++ (firstKey ++ [0, 0]) := by
    simp [← hdata, encodeIndexValue]
  -- the length `2^32` is written as `0`
  have hwrapped : leValue (data.slice 16 4) = 0 := by
    have := slice_of_eq_append h16
    rw [length_leBytes] at this
    rw [this, leValue_leBytes, hlen]
    rfl
  have h20 := drop_add_of_eq_append h16
  have htotal : data.length = 16 + 4 + 2 ^ 32 + 2 := by
    rw [← hdata]
    simp [encodeIndexValue, hlen]
  -- the key's first two bytes are read as the property count
  have hnum : leValue (data.slice (16 + 4 + 0) 2) = 0 := by
    rw [length_leBytes] at h20
    rw [List.slice, h20, List.take_append_of_le_length (by omega), hkey]
    rfl
  have hhandle : BlockHandle.decode data = .ok handle := by
    rw [← hdata, encodeIndexValue, List.append_assoc, List.append_assoc,
      BlockHandle.decode_encode_append]
  simp only [decodeIndexValueWithProps, hhandle, Except.ok_bind,
    if_neg (show ¬ data.length ≤ 16 by omega), if_pos (show data.length ≥ 16 + 4 by omega),
    hwrapped, if_neg (show ¬ data.length < 16 + 4 + 0 by omega), Except.pure_eq_ok,
    if_pos (show data.length ≥ 16 + 4 + 0 + 2 by omega), hnum, decodeProperties,
    if_pos (show 16 + 4 + 0 + 2 ≠ data.length by omega)]
  rfl

/-- A first key of `2^32` zero bytes and no properties: `encode_index_value_with_props` accepts
them, and the decoder refuses what it wrote. -/
theorem decodeIndexValueWithProps_long_first_key :
    encodeIndexValueWithProps ⟨0, 0⟩ (List.replicate (2 ^ 32) 0) [] =
        .ok (encodeIndexValue ⟨0, 0⟩ (List.replicate (2 ^ 32) 0) ++ [0, 0]) ∧
      decodeIndexValueWithProps (encodeIndexValue ⟨0, 0⟩ (List.replicate (2 ^ 32) 0) ++ [0, 0]) =
        .error (.corruption "trailing bytes after block properties") := by
  have hkey : (List.replicate (2 ^ 32) (0 : UInt8)).take 2 = [0, 0] := by
    rw [List.take_replicate]
    rfl
  have henc : encodeIndexValueWithProps ⟨0, 0⟩ (List.replicate (2 ^ 32) 0) [] =
      .ok (encodeIndexValue ⟨0, 0⟩ (List.replicate (2 ^ 32) 0) ++ leBytes 2 0 ++ []) :=
    encodeIndexValueWithProps_eq_ok (by decide) (by simp)
  have hcount : leBytes 2 0 = [0, 0] := by decide
  exact ⟨by rw [henc, hcount, List.append_nil],
    decodeIndexValueWithProps_of_length_wrap ⟨0, 0⟩ List.length_replicate hkey⟩

/-- **The metadata codecs round-trip**: a version edit whose numbers fit their Rust types; an
index value with properties, whenever its first key is shorter than `2^32` and the encoder
accepts it; an index value without properties, and a handle alone; a block handle; a footer. -/
theorem metadata_codecs_roundtrip :
    (∀ e : VersionEdit, e.Fits → VersionEdit.decode e.encode = .ok e) ∧
    (∀ (handle : BlockHandle) (firstKey : Bytes) (properties : List (Bytes × Bytes)) (bytes : Bytes),
      firstKey.length < 2 ^ 32 → encodeIndexValueWithProps handle firstKey properties = .ok bytes →
      decodeIndexValueWithProps bytes =
        .ok ⟨handle, if firstKey = [] then none else some firstKey, properties⟩) ∧
    (∀ (handle : BlockHandle) (firstKey : Bytes), firstKey.length < 2 ^ 32 →
      decodeIndexValueWithProps (encodeIndexValue handle firstKey) =
        .ok ⟨handle, if firstKey = [] then none else some firstKey, []⟩) ∧
    (∀ handle : BlockHandle, decodeIndexValueWithProps handle.encode = .ok ⟨handle, none, []⟩) ∧
    (∀ handle : BlockHandle, BlockHandle.decode handle.encode = .ok handle) ∧
    (∀ metaindexHandle indexHandle : BlockHandle,
      decodeFooter (encodeFooter metaindexHandle indexHandle) = .ok (metaindexHandle, indexHandle)) := by
  refine ⟨VersionEdit.decode_encode, ?_, fun _ _ hkey => decodeIndexValueWithProps_encodeIndexValue hkey,
    decodeIndexValueWithProps_handle, BlockHandle.decode_encode, decodeFooter_encodeFooter⟩
  intro handle firstKey properties bytes hkey h
  obtain ⟨hcount, hfit⟩ := fits_of_encodeIndexValueWithProps h
  rw [encodeIndexValueWithProps_eq_ok hcount hfit, Except.ok.injEq] at h
  rw [← h]
  exact decodeIndexValueWithProps_encode hkey hcount hfit

theorem metadata_codecs_roundtrip_sample :
    VersionEdit.decode (VersionEdit.encode
        ⟨some 3, none, some 7, [(0, ⟨5, 100, [0x61], [0x62], true⟩)], [(1, 4)]⟩) =
      .ok ⟨some 3, none, some 7, [(0, ⟨5, 100, [0x61], [0x62], true⟩)], [(1, 4)]⟩ ∧
    decodeIndexValueWithProps (encodeIndexValue ⟨1, 2⟩ [0x61] ++ [1, 0] ++
        encodeProperty ([0x6E], [0x76])) =
      .ok ⟨⟨1, 2⟩, some [0x61], [([0x6E], [0x76])]⟩ ∧
    decodeIndexValueWithProps (encodeIndexValue ⟨1, 2⟩ []) = .ok ⟨⟨1, 2⟩, none, []⟩ :=
  ⟨metadata_codecs_roundtrip.1 _ ⟨by simp, by simp, by simp, by simp, by simp⟩,
    metadata_codecs_roundtrip.2.1 ⟨1, 2⟩ [0x61] [([0x6E], [0x76])] _ (by decide) (by rfl),
    metadata_codecs_roundtrip.2.2.1 ⟨1, 2⟩ [] (by decide)⟩

end Mmdb
