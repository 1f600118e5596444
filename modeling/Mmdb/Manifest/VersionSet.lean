import Mmdb.Manifest.Version

/-!
# Applying an edit, and replaying it

`src/manifest/version_set.rs`. `VersionSet.logAndApply` builds the next version from the current
one and an edit: it inserts every new file (at the front of level 0, newest first; appended to
any other level, which is then re-sorted by smallest key), then removes every deleted file from
its level, and checks the levels; only then does it write the edit to the MANIFEST and install
the version.

Recovery replays the MANIFEST's edits another way. `Replay.replayEdit` keeps a map from file
number to level and metadata, applies an edit's deletions before its additions, and rejects the
deletion of a file that is not live at that level and the addition of a number that is live.
`recoverVersion` then builds the version from the map, in whatever order the map yields its
entries, sorting level 0 by descending number and every other level by smallest key.

The file system is a parameter (`ManifestIo`): whether an SST opens, whether the directory sync
and the MANIFEST append succeed.
-/

namespace Mmdb

/-- What the file system answers `log_and_apply` and recovery. -/
structure ManifestIo where
  /-- Open SST `number` through the table cache or `TableReader::open`; the error's text. -/
  openTable : Nat → Except String Unit
  /-- The path of SST `number`, as an error message prints it. -/
  sstPath : Nat → String
  /-- Whether SST `number` exists, probed after a failed open. -/
  sstExists : Nat → Bool
  /-- `fsync_directory` of the database directory. -/
  fsyncDirectory : Result Unit
  /-- The MANIFEST writer's `add_record` of the encoded edit. -/
  appendEdit : VersionEdit → Result Unit

/-- The part of `VersionSet` that `log_and_apply` reads and writes. -/
structure VersionSet where
  numLevels : Nat
  current : Version
  nextFileNumber : Nat
  logNumber : Nat
  lastSequence : SequenceNumber
  /-- The MANIFEST writer is open (not a read-only recovery). -/
  writable : Bool
  poisoned : Bool
  deriving DecidableEq, Repr

/-- The order of `sort_by(|a, b| compare_internal_key(&a.smallest_key, &b.smallest_key))`. -/
def bySmallestKey (a b : FileMetaData) : Bool :=
  (compareInternalKey a.smallestKey b.smallestKey).isLE

theorem bySmallestKey_trans {a b c : FileMetaData} (hab : bySmallestKey a b)
    (hbc : bySmallestKey b c) : bySmallestKey a c :=
  Std.TransCmp.isLE_trans hab hbc

theorem bySmallestKey_total (a b : FileMetaData) : bySmallestKey a b || bySmallestKey b a :=
  compareInternalKey_isLE_total _ _

/-! ## `log_and_apply` -/

/-- The insertion of one new file: at the front of level 0, or appended to its level and the
level re-sorted by smallest key. -/
def Version.addFile (v : Version) (level : Nat) (file : FileMetaData) : Version :=
  if level = 0 then v.modifyLevel 0 (file :: ·)
  else v.modifyLevel level fun files => (files ++ [file]).mergeSort bySmallestKey

/-- One new file of an edit: its level must exist and the file must open. -/
def applyNewFile (io : ManifestIo) (numLevels : Nat) (v : Version) :
    Nat × FileMetaData → Result Version
  | (level, file) =>
    let number := file.number
    if numLevels ≤ level then
      .error (.corruption
        s!"VersionEdit adds SST {number} at out-of-range level {level} (num_levels {numLevels})")
    else
      match io.openTable number with
      | .error e =>
        let path := io.sstPath number
        let existsNow := io.sstExists number
        .error (.corruption
          s!"failed to open new SST {number} (path {path}, exists_now={existsNow}): {e}")
      | .ok () => .ok (v.addFile level file)

/-- One deletion of an edit: it must remove a file of that number from that level. -/
def applyDeletion (numLevels : Nat) (v : Version) : Nat × Nat → Result Version
  | (level, number) =>
    if numLevels ≤ level then
      .error (.corruption
        s!"VersionEdit deletes SST {number} at out-of-range level {level} (num_levels {numLevels})")
    else
      let v' := v.modifyLevel level (List.filter (·.number != number))
      if (v'.levelFiles level).length = (v.levelFiles level).length then
        .error (.corruption
          s!"VersionEdit deletes SST {number} at level {level} but no such live file exists there")
      else .ok v'

/-- The new version of `log_and_apply`: additions, then deletions, then the level check. -/
def applyEdit (io : ManifestIo) (numLevels : Nat) (v : Version) (edit : VersionEdit) :
    Result Version := do
  let v ← edit.newFiles.foldlM (applyNewFile io numLevels) v
  let v ← edit.deletedFiles.foldlM (applyDeletion numLevels) v
  validateLevelDisjointness v
  pure v

/-- `VersionSet::log_and_apply`. A failed directory sync or MANIFEST append poisons the
writer; any other failure leaves the state as it was. -/
def VersionSet.logAndApply (io : ManifestIo) (vs : VersionSet) (edit : VersionEdit) :
    Result Unit × VersionSet :=
  if !vs.writable then (.error Error.readOnly, vs)
  else if vs.poisoned then
    (.error (.corruption
      "MANIFEST writer poisoned by an earlier write failure; reopen the database to recover"), vs)
  else
    match applyEdit io vs.numLevels vs.current edit with
    | .error e => (.error e, vs)
    | .ok v =>
      match (if edit.newFiles.isEmpty then .ok () else io.fsyncDirectory) with
      | .error e => (.error e, { vs with poisoned := true })
      | .ok () =>
        match io.appendEdit edit with
        | .error e => (.error e, { vs with poisoned := true })
        | .ok () =>
          -- the counters only move forward; the log number is taken as it is
          (.ok (), { vs with
            current := v
            nextFileNumber := (edit.nextFileNumber.map (max vs.nextFileNumber)).getD vs.nextFileNumber
            logNumber := edit.logNumber.getD vs.logNumber
            lastSequence := (edit.lastSequence.map (max vs.lastSequence)).getD vs.lastSequence })

/-! ## Recovery -/

/-- Recovery's `HashMap` from live file number to level and metadata. -/
abbrev LiveFiles := List (Nat × Nat × FileMetaData)

def LiveFiles.find (live : LiveFiles) (number : Nat) : Option (Nat × FileMetaData) :=
  (live.find? (·.1 == number)).map (·.2)

def LiveFiles.remove (live : LiveFiles) (number : Nat) : LiveFiles :=
  live.filter (·.1 != number)

/-- The bookkeeping of recovery's first pass. -/
structure Replay where
  nextFileNumber : Nat
  logNumber : Nat
  lastSequence : SequenceNumber
  liveFiles : LiveFiles
  deriving DecidableEq, Repr

/-- The bookkeeping before the first MANIFEST record. -/
def Replay.initial : Replay := ⟨2, 0, 0, []⟩

/-- A replayed deletion: the file must be live at exactly that level. -/
def replayDeletion (live : LiveFiles) : Nat × Nat → Result LiveFiles
  | (level, number) =>
    match live.find number with
    | some (liveLevel, _) =>
      if liveLevel = level then .ok (live.remove number)
      else .error (.corruption
        s!"MANIFEST deletes SST {number} at level {level} but it is live at level {liveLevel}")
    | none => .error (.corruption
        s!"MANIFEST deletes SST {number} at level {level} but it is not live")

/-- A replayed addition: the level must exist and the number must not be live. -/
def replayAddition (numLevels : Nat) (live : LiveFiles) : Nat × FileMetaData → Result LiveFiles
  | (level, file) =>
    let number := file.number
    if numLevels ≤ level then
      .error (.corruption
        s!"MANIFEST references SST {number} at level {level} but the database is configured with num_levels {numLevels}; reopen with num_levels >= {level + 1}")
    else
      match live.find number with
      | some (prevLevel, _) => .error (.corruption
          s!"MANIFEST adds SST {number} at level {level} but it is already live at level {prevLevel}")
      | none => .ok ((number, level, file) :: live)

/-- One MANIFEST record of `recover_with_cache_mode`'s first pass: the counters (the sequence
checked against the 56-bit limit), then the deletions, then the additions. -/
def Replay.replayEdit (numLevels : Nat) (st : Replay) (edit : VersionEdit) : Result Replay := do
  let lastSequence ← match edit.lastSequence with
    | some s =>
      if s > maxSequenceNumber then
        .error (.corruption s!"MANIFEST last_sequence {s} exceeds maximum {maxSequenceNumber}")
      else pure (max st.lastSequence s)
    | none => pure st.lastSequence
  let live ← edit.deletedFiles.foldlM replayDeletion st.liveFiles
  let live ← edit.newFiles.foldlM (replayAddition numLevels) live
  pure { nextFileNumber := (edit.nextFileNumber.map (max st.nextFileNumber)).getD st.nextFileNumber
         logNumber := edit.logNumber.getD st.logNumber
         lastSequence := lastSequence
         liveFiles := live }

/-- Recovery's first pass over the decoded edits of a MANIFEST. -/
def Replay.replayEdits (numLevels : Nat) (edits : List VersionEdit) : Result Replay :=
  edits.foldlM (Replay.replayEdit numLevels) Replay.initial

/-- Recovery's second pass puts each live file at the end of its level. -/
def Version.pushFile (v : Version) (level : Nat) (file : FileMetaData) : Version :=
  v.modifyLevel level (· ++ [file])

/-- The sort of one level after recovery: level 0 by descending file number
(`sort_by_key(Reverse(number))`), every other level by smallest key; both sorts are stable. -/
def sortLevel (level : Nat) (files : List FileMetaData) : List FileMetaData :=
  if level = 0 then files.mergeSort fun a b => decide (b.number ≤ a.number)
  else files.mergeSort bySmallestKey

def Version.sortLevels (v : Version) : Version := ⟨v.files.mapIdx sortLevel⟩

/-- One live file of recovery's second pass: open it and put it at the end of its level. -/
def recoverFile (io : ManifestIo) (v : Version) (entry : Nat × FileMetaData) : Result Version :=
  match io.openTable entry.2.number with
  | .error e =>
    let number := entry.2.number
    .error (.corruption s!"cannot open SST {number} during recovery: {e}")
  | .ok () => .ok (v.pushFile entry.1 entry.2)

/-- Recovery's second pass over the live files, in the order the map yields them: open each,
put it at its level, sort the levels, check them. -/
def recoverVersion (io : ManifestIo) (numLevels : Nat) (values : List (Nat × FileMetaData)) :
    Result Version := do
  let v ← values.foldlM (recoverFile io) (Version.new numLevels)
  let v := v.sortLevels
  validateLevelDisjointness v
  pure v

end Mmdb
