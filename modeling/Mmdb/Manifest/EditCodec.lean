import Mmdb.Manifest.Version
import Mmdb.Lib.LittleEndian

/-!
# The MANIFEST encoding of a version edit

`VersionEdit::encode` and `VersionEdit::decode` of `src/manifest/version_edit.rs`. An edit is a
run of tagged records: `1`, `2`, `3` carry the log number, the next file number and the last
sequence as `u64` little-endian; `6` a new file (level `u32`, number and size `u64`, both keys
with a `u32` length, then the range-deletion flag as a byte); `5` a deleted file (level `u32`,
number `u64`). The decoder also accepts the legacy new-file tag `4`, without the flag. It keeps
a position into the input, as the source does, and checks the bounds before every field.

**The round trip** (`decode_encode`): an edit whose numbers fit their Rust types decodes to
itself, field by field and list order included. The proof reads one record at a time
(`decodeRecord_logNumber` and its siblings, one for each tag the encoder writes), stating where
the record sits in the input, then a run of records of one kind (`decodeLoop_flatMap`); an
optional counter is a run of at most one record.
-/

namespace Mmdb

/-- `VersionEdit::new`. -/
def VersionEdit.new : VersionEdit := ⟨none, none, none, [], []⟩

namespace VersionEdit

/-- The record of a new file, tag `6`. Key lengths are written as `u32`. -/
def encodeNewFile (entry : Nat × FileMetaData) : Bytes :=
  6 :: leBytes 4 entry.1 ++ leBytes 8 entry.2.number ++ leBytes 8 entry.2.fileSize ++
    leBytes 4 entry.2.smallestKey.length ++ entry.2.smallestKey ++
    leBytes 4 entry.2.largestKey.length ++ entry.2.largestKey ++
    [if entry.2.hasRangeDeletions then 1 else 0]

/-- The record of a deleted file, tag `5`. -/
def encodeDeletedFile (entry : Nat × Nat) : Bytes :=
  5 :: leBytes 4 entry.1 ++ leBytes 8 entry.2

/-- A counter's record: its tag, then the `u64`. -/
def encodeCounter (tag : UInt8) : Option Nat → Bytes
  | some n => tag :: leBytes 8 n
  | none => []

/-- `VersionEdit::encode`. -/
def encode (e : VersionEdit) : Bytes :=
  encodeCounter 1 e.logNumber ++ encodeCounter 2 e.nextFileNumber ++
    encodeCounter 3 e.lastSequence ++ e.newFiles.flatMap encodeNewFile ++
    e.deletedFiles.flatMap encodeDeletedFile

/-- The new-file record after its tag, at `pos`: the file and the position after it. The
legacy tag `4` has no range-deletion flag. -/
def decodeNewFile (data : Bytes) (tag : UInt8) (pos : Nat) :
    Result ((Nat × FileMetaData) × Nat) :=
  if pos + 4 + 8 + 8 > data.length then .error (.corruption "truncated new_file header")
  else
    let level := leValue (data.slice pos 4)
    let number := leValue (data.slice (pos + 4) 8)
    let fileSize := leValue (data.slice (pos + 12) 8)
    let pos := pos + 20
    if pos + 4 > data.length then .error (.corruption "truncated smallest_key_len")
    else
      let skLen := leValue (data.slice pos 4)
      let pos := pos + 4
      if pos + skLen > data.length then .error (.corruption "truncated smallest_key")
      else
        let smallestKey := data.slice pos skLen
        let pos := pos + skLen
        if pos + 4 > data.length then .error (.corruption "truncated largest_key_len")
        else
          let lkLen := leValue (data.slice pos 4)
          let pos := pos + 4
          if pos + lkLen > data.length then .error (.corruption "truncated largest_key")
          else
            let largestKey := data.slice pos lkLen
            let pos := pos + lkLen
            let file (hasRangeDeletions : Bool) :=
              (level, FileMetaData.mk number fileSize smallestKey largestKey hasRangeDeletions)
            if tag = 6 then
              if pos ≥ data.length then .error (.corruption "truncated has_range_deletions")
              else .ok (file (data.getD pos 0 != 0), pos + 1)
            else .ok (file false, pos)

/-- One pass of the loop of `VersionEdit::decode`: the record whose tag is at `pos`, applied to
the edit, and the position after it. -/
def decodeRecord (data : Bytes) (edit : VersionEdit) (pos : Nat) : Result (VersionEdit × Nat) :=
  let tag := data.getD pos 0
  let pos := pos + 1
  if tag = 1 then
    if pos + 8 > data.length then .error (.corruption "truncated log_number")
    else .ok ({ edit with logNumber := some (leValue (data.slice pos 8)) }, pos + 8)
  else if tag = 2 then
    if pos + 8 > data.length then .error (.corruption "truncated next_file_number")
    else .ok ({ edit with nextFileNumber := some (leValue (data.slice pos 8)) }, pos + 8)
  else if tag = 3 then
    if pos + 8 > data.length then .error (.corruption "truncated last_sequence")
    else .ok ({ edit with lastSequence := some (leValue (data.slice pos 8)) }, pos + 8)
  else if tag = 4 ∨ tag = 6 then
    (decodeNewFile data tag pos).map fun (entry, pos) =>
      ({ edit with newFiles := edit.newFiles ++ [entry] }, pos)
  else if tag = 5 then
    if pos + 4 + 8 > data.length then .error (.corruption "truncated deleted_file")
    else
      let level := leValue (data.slice pos 4)
      let number := leValue (data.slice (pos + 4) 8)
      .ok ({ edit with deletedFiles := edit.deletedFiles ++ [(level, number)] }, pos + 12)
  else .error (.corruption s!"unknown tag: {tag}")

theorem decodeNewFile_advance {data : Bytes} {tag : UInt8} {pos : Nat}
    {entry : Nat × FileMetaData} {pos' : Nat} (h : decodeNewFile data tag pos = .ok (entry, pos')) :
    pos < pos' := by
  unfold decodeNewFile at h
  dsimp only at h
  split_ifs at h <;> simp only [Except.ok.injEq, Prod.mk.injEq] at h <;> omega

/-- Every record the loop reads moves it forward. -/
theorem decodeRecord_advance {data : Bytes} {edit edit' : VersionEdit} {pos pos' : Nat}
    (h : decodeRecord data edit pos = .ok (edit', pos')) : pos < pos' := by
  unfold decodeRecord at h
  dsimp only at h
  generalize data.getD pos 0 = tag at h
  split_ifs at h
  all_goals first
    | (simp only [Except.ok.injEq, Prod.mk.injEq] at h; omega)
    | skip
  -- the new-file records
  cases hfile : decodeNewFile data tag (pos + 1) with
  | error err =>
    rw [hfile] at h
    cases h
  | ok r =>
    obtain ⟨entry, pos''⟩ := r
    rw [hfile] at h
    simp only [Except.map, Except.ok.injEq, Prod.mk.injEq] at h
    have := decodeNewFile_advance hfile
    omega

/-- The loop of `VersionEdit::decode` from `pos`, while input is left. -/
def decodeLoop (data : Bytes) (edit : VersionEdit) (pos : Nat) : Result VersionEdit :=
  if pos < data.length then
    match hrecord : decodeRecord data edit pos with
    | .error err => .error err
    | .ok (edit', pos') =>
      have := decodeRecord_advance hrecord
      decodeLoop data edit' pos'
  else .ok edit
termination_by data.length - pos

/-- `VersionEdit::decode`. -/
def decode (data : Bytes) : Result VersionEdit := decodeLoop data .new 0

/-- The numbers of an edit fit their Rust types: counters, file numbers and sizes `u64`, levels
and key lengths `u32`. -/
structure Fits (e : VersionEdit) : Prop where
  logNumber : ∀ n ∈ e.logNumber, n < 2 ^ 64
  nextFileNumber : ∀ n ∈ e.nextFileNumber, n < 2 ^ 64
  lastSequence : ∀ n ∈ e.lastSequence, n < 2 ^ 64
  newFiles : ∀ entry ∈ e.newFiles, entry.1 < 2 ^ 32 ∧ entry.2.number < 2 ^ 64 ∧
    entry.2.fileSize < 2 ^ 64 ∧ entry.2.smallestKey.length < 2 ^ 32 ∧
    entry.2.largestKey.length < 2 ^ 32
  deletedFiles : ∀ entry ∈ e.deletedFiles, entry.1 < 2 ^ 32 ∧ entry.2 < 2 ^ 64

/-! ## Reading one record -/

section Records

variable {data rest : Bytes} {pos : Nat} {edit : VersionEdit}

theorem decodeRecord_logNumber {n : Nat} (hn : n < 2 ^ 64)
    (h : data.drop pos = 1 :: leBytes 8 n ++ rest) :
    decodeRecord data edit pos = .ok ({ edit with logNumber := some n }, pos + 9) := by
  obtain ⟨htag, hdrop, -⟩ := tag_of_eq_cons 0 h
  obtain ⟨hbound, hval, -⟩ := read_le (by decide) (by simpa using hn) hdrop
  simp only [decodeRecord, htag, if_pos, if_neg hbound, hval]

theorem decodeRecord_nextFileNumber {n : Nat} (hn : n < 2 ^ 64)
    (h : data.drop pos = 2 :: leBytes 8 n ++ rest) :
    decodeRecord data edit pos = .ok ({ edit with nextFileNumber := some n }, pos + 9) := by
  obtain ⟨htag, hdrop, -⟩ := tag_of_eq_cons 0 h
  obtain ⟨hbound, hval, -⟩ := read_le (by decide) (by simpa using hn) hdrop
  simp only [decodeRecord, htag, if_neg (show (2 : UInt8) ≠ 1 by decide), if_pos, if_neg hbound,
    hval]

theorem decodeRecord_lastSequence {n : Nat} (hn : n < 2 ^ 64)
    (h : data.drop pos = 3 :: leBytes 8 n ++ rest) :
    decodeRecord data edit pos = .ok ({ edit with lastSequence := some n }, pos + 9) := by
  obtain ⟨htag, hdrop, -⟩ := tag_of_eq_cons 0 h
  obtain ⟨hbound, hval, -⟩ := read_le (by decide) (by simpa using hn) hdrop
  simp only [decodeRecord, htag, if_neg (show (3 : UInt8) ≠ 1 by decide),
    if_neg (show (3 : UInt8) ≠ 2 by decide), if_pos, if_neg hbound, hval]

/-- The flag byte reads back as the flag. -/
theorem flag_ne_zero (b : Bool) : ((if b then 1 else 0 : UInt8) != 0) = b := by
  cases b <;> decide

/-- The fields of a new-file record after its tag read back. -/
theorem decodeNewFile_of_eq {entry : Nat × FileMetaData}
    (hfit : entry.1 < 2 ^ 32 ∧ entry.2.number < 2 ^ 64 ∧ entry.2.fileSize < 2 ^ 64 ∧
      entry.2.smallestKey.length < 2 ^ 32 ∧ entry.2.largestKey.length < 2 ^ 32)
    (h : data.drop pos = (encodeNewFile entry).tail ++ rest) :
    decodeNewFile data 6 pos = .ok (entry, pos + (encodeNewFile entry).tail.length) := by
  obtain ⟨level, number, fileSize, sk, lk, flag⟩ := entry
  simp only at hfit
  obtain ⟨hlevel, hnumber, hsize, hsk, hlk⟩ := hfit
  simp only [encodeNewFile, List.cons_append, List.tail_cons, List.append_assoc] at h ⊢
  obtain ⟨-, hlevel', h⟩ := read_le (by decide) (by simpa using hlevel) h
  obtain ⟨-, hnumber', h⟩ := read_le (by decide) (by simpa using hnumber) h
  obtain ⟨-, hsize', h⟩ := read_le (by decide) (by simpa using hsize) h
  obtain ⟨hb1, hsk', h⟩ := read_le (by decide) (by simpa using hsk) h
  obtain ⟨hb2, hskBytes, h⟩ := read_field h (by omega)
  obtain ⟨hb3, hlk', h⟩ := read_le (by decide) (by simpa using hlk) h
  obtain ⟨hb4, hlkBytes, h⟩ := read_field h (by omega)
  obtain ⟨hflag, -, hpos⟩ := tag_of_eq_cons 0 h
  have hheader : ¬ pos + 4 + 8 + 8 > data.length := by omega
  unfold decodeNewFile
  simp only [if_neg hheader, show pos + 4 + 8 = pos + 12 by omega, hlevel', hnumber', hsize',
    if_neg hb1, hsk', if_neg hb2, hskBytes, if_neg hb3, hlk', if_neg hb4, hlkBytes, if_pos,
    if_neg (show ¬ pos + 20 + 4 + sk.length + 4 + lk.length ≥ data.length by omega), hflag,
    flag_ne_zero]
  simp only [List.length_append, length_leBytes, List.length_cons, List.length_nil]
  congr 2
  omega

theorem encodeNewFile_eq_cons (entry : Nat × FileMetaData) :
    encodeNewFile entry = 6 :: (encodeNewFile entry).tail := by
  simp [encodeNewFile]

theorem decodeRecord_newFile {entry : Nat × FileMetaData}
    (hfit : entry.1 < 2 ^ 32 ∧ entry.2.number < 2 ^ 64 ∧ entry.2.fileSize < 2 ^ 64 ∧
      entry.2.smallestKey.length < 2 ^ 32 ∧ entry.2.largestKey.length < 2 ^ 32)
    (h : data.drop pos = encodeNewFile entry ++ rest) :
    decodeRecord data edit pos =
      .ok ({ edit with newFiles := edit.newFiles ++ [entry] }, pos + (encodeNewFile entry).length) := by
  rw [encodeNewFile_eq_cons] at h
  obtain ⟨htag, hdrop, -⟩ := tag_of_eq_cons 0 h
  have hlen : pos + (encodeNewFile entry).length = pos + 1 + (encodeNewFile entry).tail.length := by
    conv_lhs => rw [encodeNewFile_eq_cons]
    simp only [List.length_cons]
    omega
  simp only [decodeRecord, htag, if_neg (show (6 : UInt8) ≠ 1 by decide),
    if_neg (show (6 : UInt8) ≠ 2 by decide), if_neg (show (6 : UInt8) ≠ 3 by decide),
    or_true, ↓reduceIte, decodeNewFile_of_eq hfit hdrop, Except.map, hlen]

theorem decodeRecord_deletedFile {entry : Nat × Nat} (hfit : entry.1 < 2 ^ 32 ∧ entry.2 < 2 ^ 64)
    (h : data.drop pos = encodeDeletedFile entry ++ rest) :
    decodeRecord data edit pos =
      .ok ({ edit with deletedFiles := edit.deletedFiles ++ [entry] }, pos + 13) := by
  obtain ⟨level, number⟩ := entry
  obtain ⟨hlevel, hnumber⟩ := hfit
  simp only [encodeDeletedFile, List.cons_append, List.append_assoc] at h
  obtain ⟨htag, hdrop, -⟩ := tag_of_eq_cons 0 h
  obtain ⟨-, hlevel', hdrop⟩ := read_le (by decide) (by simpa using hlevel) hdrop
  obtain ⟨hbound, hnumber', -⟩ := read_le (by decide) (by simpa using hnumber) hdrop
  simp only [decodeRecord, htag, if_neg (show (5 : UInt8) ≠ 1 by decide),
    if_neg (show (5 : UInt8) ≠ 2 by decide), if_neg (show (5 : UInt8) ≠ 3 by decide),
    if_neg (show ¬ ((5 : UInt8) = 4 ∨ (5 : UInt8) = 6) by decide), if_pos,
    if_neg hbound, hlevel', hnumber']

end Records

/-! ## Reading the whole edit -/

section Loop

variable {data rest : Bytes}

/-- The loop goes on from the end of a record it read. -/
theorem decodeLoop_of_record {edit edit' : VersionEdit} {pos pos' : Nat} (hpos : pos < data.length)
    (h : decodeRecord data edit pos = .ok (edit', pos')) :
    decodeLoop data edit pos = decodeLoop data edit' pos' := by
  rw [decodeLoop, if_pos hpos]
  split <;> simp_all

/-- A record that fails ends the loop with its error. -/
theorem decodeLoop_of_error {edit : VersionEdit} {pos : Nat} {err : Error} (hpos : pos < data.length)
    (h : decodeRecord data edit pos = .error err) : decodeLoop data edit pos = .error err := by
  rw [decodeLoop, if_pos hpos]
  split <;> simp_all

theorem decodeLoop_done {edit : VersionEdit} {pos : Nat} (h : data.length ≤ pos) :
    decodeLoop data edit pos = .ok edit := by
  rw [decodeLoop, if_neg (by omega)]

/-- A run of records of one kind, each of which reads back, folds into the edit one record at
a time. -/
theorem decodeLoop_flatMap {β : Type} (enc : β → Bytes) (add : VersionEdit → β → VersionEdit)
    (fits : β → Prop) (hne : ∀ x, enc x ≠ [])
    (hrecord : ∀ x edit pos rest, fits x → data.drop pos = enc x ++ rest →
      decodeRecord data edit pos = .ok (add edit x, pos + (enc x).length))
    (xs : List β) (hfit : ∀ x ∈ xs, fits x) (edit : VersionEdit) (pos : Nat)
    (h : data.drop pos = xs.flatMap enc ++ rest) :
    decodeLoop data edit pos =
      decodeLoop data (xs.foldl add edit) (pos + (xs.flatMap enc).length) := by
  induction xs generalizing edit pos with
  | nil => simp
  | cons x xs ih =>
    rw [List.flatMap_cons, List.append_assoc] at h
    have hpos : pos < data.length := by
      have := length_eq_of_eq_append h (le_length_of_eq_append h (by simp [hne x]))
      have := List.length_pos_iff.mpr (hne x)
      omega
    rw [decodeLoop_of_record hpos (hrecord x edit pos _ (hfit x (by simp)) h),
      ih (fun y hy => hfit y (by simp [hy])) _ _ (drop_add_of_eq_append h)]
    simp only [List.foldl_cons, List.flatMap_cons, List.length_append, Nat.add_assoc]

/-- An optional counter is a run of at most one record. -/
theorem encodeCounter_eq_flatMap (tag : UInt8) (o : Option Nat) :
    encodeCounter tag o = o.toList.flatMap fun n => tag :: leBytes 8 n := by
  cases o <;> simp [encodeCounter]

theorem foldl_addNewFile (files : List (Nat × FileMetaData)) (edit : VersionEdit) :
    files.foldl (fun edit entry => { edit with newFiles := edit.newFiles ++ [entry] }) edit =
      { edit with newFiles := edit.newFiles ++ files } := by
  induction files generalizing edit with
  | nil => simp
  | cons entry files ih => simp [ih]

theorem foldl_addDeletedFile (files : List (Nat × Nat)) (edit : VersionEdit) :
    files.foldl (fun edit entry => { edit with deletedFiles := edit.deletedFiles ++ [entry] })
      edit = { edit with deletedFiles := edit.deletedFiles ++ files } := by
  induction files generalizing edit with
  | nil => simp
  | cons entry files ih => simp [ih]

end Loop

/-- **The round trip.** An edit whose numbers fit their Rust types decodes to itself. -/
theorem decode_encode (e : VersionEdit) (hfit : e.Fits) : decode e.encode = .ok e := by
  obtain ⟨logNumber, nextFileNumber, lastSequence, newFiles, deletedFiles⟩ := e
  obtain ⟨hlog, hnext, hlast, hnew, hdel⟩ := hfit
  generalize hdata : encode ⟨logNumber, nextFileNumber, lastSequence, newFiles, deletedFiles⟩ = data
  -- the input is five runs of records, one after another
  have h0 : data.drop 0 = (logNumber.toList.flatMap fun n => 1 :: leBytes 8 n) ++
      ((nextFileNumber.toList.flatMap fun n => 2 :: leBytes 8 n) ++
      ((lastSequence.toList.flatMap fun n => 3 :: leBytes 8 n) ++
      (newFiles.flatMap encodeNewFile ++ (deletedFiles.flatMap encodeDeletedFile ++ [])))) := by
    simp [← hdata, encode, encodeCounter_eq_flatMap]
  have h1 := drop_add_of_eq_append h0
  have h2 := drop_add_of_eq_append h1
  have h3 := drop_add_of_eq_append h2
  have h4 := drop_add_of_eq_append h3
  have h5 := drop_add_of_eq_append h4
  unfold decode
  rw [decodeLoop_flatMap _ (fun edit n => { edit with logNumber := some n }) (· < 2 ^ 64)
      (fun _ => List.cons_ne_nil _ _)
      (fun _ _ _ _ hn h => (decodeRecord_logNumber hn h).trans (by simp)) _
      (fun n hn => hlog n (Option.mem_toList.mp hn)) _ _ h0,
    decodeLoop_flatMap _ (fun edit n => { edit with nextFileNumber := some n }) (· < 2 ^ 64)
      (fun _ => List.cons_ne_nil _ _)
      (fun _ _ _ _ hn h => (decodeRecord_nextFileNumber hn h).trans (by simp)) _
      (fun n hn => hnext n (Option.mem_toList.mp hn)) _ _ h1,
    decodeLoop_flatMap _ (fun edit n => { edit with lastSequence := some n }) (· < 2 ^ 64)
      (fun _ => List.cons_ne_nil _ _)
      (fun _ _ _ _ hn h => (decodeRecord_lastSequence hn h).trans (by simp)) _
      (fun n hn => hlast n (Option.mem_toList.mp hn)) _ _ h2,
    decodeLoop_flatMap encodeNewFile
      (fun edit entry => { edit with newFiles := edit.newFiles ++ [entry] }) _
      (fun _ => by simp [encodeNewFile]) (fun _ _ _ _ hx h => decodeRecord_newFile hx h) newFiles
      hnew _ _ h3,
    decodeLoop_flatMap encodeDeletedFile
      (fun edit entry => { edit with deletedFiles := edit.deletedFiles ++ [entry] }) _
      (fun _ => by simp [encodeDeletedFile])
      (fun _ _ _ _ hx h => (decodeRecord_deletedFile hx h).trans (by simp [encodeDeletedFile]))
      deletedFiles hdel _ _ h4,
    decodeLoop_done (List.drop_eq_nil_iff.mp h5)]
  -- what the runs built is the edit
  cases logNumber <;> cases nextFileNumber <;> cases lastSequence <;>
    simp [VersionEdit.new, foldl_addNewFile, foldl_addDeletedFile]

end VersionEdit

end Mmdb
