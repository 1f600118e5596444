import Mmdb.Manifest.VersionSet

/-!
# Leveled compaction: picking, the trivial move, installing, and draining level 0

`src/compaction/leveled.rs` and `DB::drain_l0` of `src/db.rs`.

A file's metadata bounds are the smallest and largest internal keys written to it; a range
tombstone enters them with its begin key only, so its end can reach past the file's largest key.
The module keeps the three notions of overlap the source has: the metadata-only one of
`overlapping_files`, which `pick_l0_compaction` uses for the L1 inputs when no L0 input carries a
range deletion; the tombstone-aware `file_overlaps_extent`; and its transitive closure
`overlapping_files_for_inputs`, which `pick_level_compaction` uses. The install check
`outputs_overlap_unexpected_current_files` uses the tombstone-aware one.

Not modelled: the merge itself (`execute_sub_compaction_io`), a parameter `merge` here; the
estimate of output files (`max_output_files`, from table properties), a parameter `outputBudget`;
the table and block caches; and the MANIFEST sync after an install. Table readers answer
`get_range_tombstones` through `TableReaders`, by file number, as user-key extents.
-/

namespace Mmdb

/-- `get_range_tombstones` of the table reader of each SST, by number: its range tombstones as
user-key extents `[begin, end)`, or the read error. -/
structure TableReaders where
  rangeTombstones : Nat → Except String (List (Bytes × Bytes))

/-- The options the pickers read. `max_bytes_for_level_multiplier` is an `f64` in the source. -/
structure CompactionOptions where
  numLevels : Nat
  l0CompactionTrigger : Nat
  maxBytesForLevelBase : Nat
  maxBytesForLevelMultiplier : Float
  /-- `compaction_filter.as_ref().is_none_or(|f| f.is_noop())`. -/
  compactionFilterIsNoop : Bool

/-- `CompactionTask`. -/
structure CompactionTask where
  level : Nat
  inputFilesLevel : List FileMetaData
  inputFilesNext : List FileMetaData
  deriving DecidableEq, Repr

/-- `CompactionOutput`; `output_tombstones` maps an output file number to the user-key extents of
the range tombstones written to it. -/
structure CompactionOutput where
  edit : VersionEdit
  inputFiles : List (Nat × FileMetaData)
  inputFileNumbers : List Nat
  nextFileNumberHint : Nat
  outputTombstones : List (Nat × List (Bytes × Bytes))
  deriving DecidableEq, Repr

/-- `VersionEdit::new()`. -/
def VersionEdit.empty : VersionEdit := ⟨none, none, none, [], []⟩

/-- `Version::l0_file_count`. -/
def Version.l0FileCount (v : Version) : Nat := (v.levelFiles 0).length

/-! ## Overlap -/

/-- `UserKeyRange`: an inclusive file range or a half-open tombstone extent. -/
inductive UserKeyRange where
  | file (smallest largest : Bytes)
  | tombstone (begin «end» : Bytes)
  deriving DecidableEq, Repr

/-- `file_metadata_overlaps_extent`. -/
def fileMetadataOverlapsExtent (f : FileMetaData) : UserKeyRange → Bool
  | .file smallest largest =>
    decide (userKey f.largestKey ≥ smallest) && decide (userKey f.smallestKey ≤ largest)
  | .tombstone begin «end» =>
    decide (userKey f.largestKey ≥ begin) && decide (userKey f.smallestKey < «end»)

/-- `tombstone_overlaps_extent`. -/
def tombstoneOverlapsExtent (begin «end» : Bytes) : UserKeyRange → Bool
  | .file smallest largest => decide («end» > smallest) && decide (begin ≤ largest)
  | .tombstone otherBegin otherEnd => decide («end» > otherBegin) && decide (begin < otherEnd)

/-- `file_overlaps_extent`: by metadata, or by one of the file's range tombstones. A file whose
tombstones cannot be read counts as overlapping. -/
def fileOverlapsExtent (readers : TableReaders) (f : FileMetaData) (extent : UserKeyRange) : Bool :=
  if fileMetadataOverlapsExtent f extent then true
  else if !f.hasRangeDeletions then false
  else
    match readers.rangeTombstones f.number with
    | .ok tombstones => tombstones.any fun t => tombstoneOverlapsExtent t.1 t.2 extent
    | .error _ => true

/-- `add_file_extents`: the file's metadata range when both bounds are present, then its range
tombstones; `none` (the source's `false`) when its tombstones cannot be read. -/
def addFileExtents (readers : TableReaders) (extents : List UserKeyRange) (f : FileMetaData) :
    Option (List UserKeyRange) :=
  let extents :=
    if !f.smallestKey.isEmpty && !f.largestKey.isEmpty then
      extents ++ [.file (userKey f.smallestKey) (userKey f.largestKey)]
    else extents
  if f.hasRangeDeletions then
    match readers.rangeTombstones f.number with
    | .ok tombstones => some (extents ++ tombstones.map fun t => .tombstone t.1 t.2)
    | .error _ => none
  else some extents

/-- The aggregate `[min smallest, max largest]` user-key range of the inputs whose bounds are
both present. -/
def aggregateRange (inputs : List FileMetaData) : Option (Bytes × Bytes) :=
  inputs.foldl (fun acc f =>
    if f.smallestKey.isEmpty || f.largestKey.isEmpty then acc
    else
      let s := userKey f.smallestKey
      let l := userKey f.largestKey
      match acc with
      | none => some (s, l)
      | some (smallest, largest) =>
        some (if s < smallest then s else smallest, if l > largest then l else largest))
    none

/-- One pass of the closure loop of `overlapping_files_for_inputs`: every file not yet selected
that overlaps an extent is selected and its extents join, in file order; `none` when a selected
file's tombstones cannot be read. The flag records whether the pass selected anything. -/
def closurePass (readers : TableReaders) :
    List FileMetaData → List FileMetaData × List UserKeyRange × Bool →
      Option (List FileMetaData × List UserKeyRange × Bool)
  | [], acc => some acc
  | f :: files, (selected, extents, changed) =>
    if selected.any (·.number == f.number) then closurePass readers files (selected, extents, changed)
    else if extents.any (fileOverlapsExtent readers f) then
      match addFileExtents readers extents f with
      | none => none
      | some extents => closurePass readers files (selected ++ [f], extents, true)
    else closurePass readers files (selected, extents, changed)

/-- The closure loop, repeated until a pass selects nothing; each productive pass selects a new
file, so `files.length + 1` passes suffice. -/
def closureLoop (readers : TableReaders) (files : List FileMetaData) :
    Nat → List FileMetaData → List UserKeyRange → List FileMetaData
  | 0, selected, _ => selected
  | fuel + 1, selected, extents =>
    match closurePass readers files (selected, extents, false) with
    | none => files
    | some (selected, extents, changed) =>
      if changed then closureLoop readers files fuel selected extents else selected

/-- `overlapping_files_for_inputs`: the files of a level that overlap the inputs' extents or their
aggregate range, closed transitively over the extents of the files selected. -/
def overlappingFilesForInputs (readers : TableReaders) (files inputs : List FileMetaData) :
    List FileMetaData :=
  match inputs.foldlM (addFileExtents readers) [] with
  | none => files
  | some extents =>
    let extents := match aggregateRange inputs with
      | some (s, l) => extents ++ [.file s l]
      | none => extents
    closureLoop readers files (files.length + 1) [] extents

/-- `overlapping_files`: the files whose metadata user-key range meets `[smallest, largest]`. -/
def overlappingFiles (files : List FileMetaData) (smallest largest : Bytes) : List FileMetaData :=
  files.filter fun f =>
    decide (userKey f.largestKey ≥ userKey smallest) && decide (userKey f.smallestKey ≤ userKey largest)

/-- `total_key_range`: the smallest and largest internal keys of the files. -/
def totalKeyRange (files : List FileMetaData) : Bytes × Bytes :=
  files.foldl (fun (smallest, largest) f =>
    (if smallest.isEmpty || compareInternalKey f.smallestKey smallest = .lt then f.smallestKey
      else smallest,
     if largest.isEmpty || compareInternalKey f.largestKey largest = .gt then f.largestKey
      else largest))
    ([], [])

/-- `max_bytes_for_level`: the base, times the multiplier once per level past the first, each
product truncated to a `u64` (`as u64` saturates). -/
def maxBytesForLevel (options : CompactionOptions) (level : Nat) : Nat :=
  (List.range (level - 1)).foldl
    (fun result _ => (result.toFloat * options.maxBytesForLevelMultiplier).toUInt64.toNat)
    options.maxBytesForLevelBase

/-! ## Picking -/

/-- `pick_l0_compaction`: all of level 0, and the level-1 files overlapping it: all of level 1
when an L0 file carries range deletions, the metadata-overlapping ones otherwise. -/
def pickL0Compaction (v : Version) (inFlight : List Nat) : Option CompactionTask :=
  let l0Files := v.levelFiles 0
  if l0Files.isEmpty || l0Files.any (fun f => inFlight.contains f.number) then none
  else
    let (smallest, largest) := totalKeyRange l0Files
    let inputL1 :=
      if l0Files.any (·.hasRangeDeletions) then v.levelFiles 1
      else overlappingFiles (v.levelFiles 1) smallest largest
    if inputL1.any (fun f => inFlight.contains f.number) then none
    else some ⟨0, l0Files, inputL1⟩

/-- The largest file, the last of several of one size (`Iterator::max_by_key`). -/
def largestFile : List FileMetaData → Option FileMetaData
  | [] => none
  | f :: files => some (files.foldl (fun best g => if g.fileSize ≥ best.fileSize then g else best) f)

/-- `pick_level_compaction`: the largest unclaimed file of the level, closed over the level's
overlapping files, and the files of the next level overlapping them. -/
def pickLevelCompaction (readers : TableReaders) (v : Version) (level : Nat) (inFlight : List Nat) :
    Option CompactionTask := do
  let files := v.levelFiles level
  if files.isEmpty then none
  let target ← largestFile (files.filter fun f => !inFlight.contains f.number)
  let inputLevel := overlappingFilesForInputs readers files [target]
  if inputLevel.any (fun f => inFlight.contains f.number) then none
  let nextLevel := level + 1
  let inputNext :=
    if nextLevel < v.numLevels then overlappingFilesForInputs readers (v.levelFiles nextLevel) inputLevel
    else []
  if inputNext.any (fun f => inFlight.contains f.number) then none
  pure ⟨level, inputLevel, inputNext⟩

/-- `pick_compaction`: level 0 when it holds at least the trigger's number of files, then the
first level from 1 on (the last excepted) that exceeds its size target. -/
def pickCompaction (readers : TableReaders) (v : Version) (options : CompactionOptions)
    (inFlight : List Nat) : Option CompactionTask :=
  let l0 := if v.l0FileCount ≥ options.l0CompactionTrigger then pickL0Compaction v inFlight
    else none
  match l0 with
  | some task => some task
  | none =>
    (List.range' 1 (v.numLevels - 2)).findSome? fun level =>
      let levelSize := ((v.levelFiles level).map (·.fileSize)).sum
      if levelSize > maxBytesForLevel options level then pickLevelCompaction readers v level inFlight
      else none

/-- `is_bottommost_level`: no file outside the inputs, from the first checked level down,
overlaps an extent of the inputs. -/
def isBottommostLevel (readers : TableReaders) (v : Version) (firstCheckedLevel numLevels : Nat)
    (allInputs : List FileMetaData) : Bool :=
  match allInputs.foldlM (addFileExtents readers) [] with
  | none => false
  | some extents =>
    if extents.isEmpty then true
    else
      let inputNumbers := allInputs.map (·.number)
      (List.range' firstCheckedLevel (numLevels - firstCheckedLevel)).all fun level =>
        (v.levelFiles level).all fun f =>
          inputNumbers.contains f.number || !(extents.any (fileOverlapsExtent readers f))

/-! ## The I/O phase and the install -/

/-- The trivial move of `execute_compaction_io`: the one input file relabelled to the next level,
no file written. -/
def trivialMove (task : CompactionTask) (f : FileMetaData) (fileNumberStart : Nat) :
    CompactionOutput where
  edit := { VersionEdit.empty with
    newFiles := [(task.level + 1, f)]
    deletedFiles := [(task.level, f.number)] }
  inputFiles := [(task.level, f)]
  inputFileNumbers := []
  nextFileNumberHint := fileNumberStart
  outputTombstones := []

/-- `execute_compaction_io`: the trivial move when the task has one input and nothing to merge it
with and no compaction filter must see the entries; the merge otherwise. -/
def executeCompactionIo (options : CompactionOptions)
    (merge : CompactionTask → Nat → Nat → Bool → Result CompactionOutput) (task : CompactionTask)
    (fileNumberStart fileNumberLimit : Nat) (isBottommost : Bool) : Result CompactionOutput :=
  match task.inputFilesLevel, task.inputFilesNext with
  | [f], [] =>
    if options.compactionFilterIsNoop then .ok (trivialMove task f fileNumberStart)
    else merge task fileNumberStart fileNumberLimit isBottommost
  | _, _ => merge task fileNumberStart fileNumberLimit isBottommost

/-- The extents of one output file for the install check: its metadata range, then the tombstone
extents written to it. -/
def outputExtents (output : CompactionOutput) (file : FileMetaData) : List UserKeyRange :=
  (if !file.smallestKey.isEmpty && !file.largestKey.isEmpty then
    [.file (userKey file.smallestKey) (userKey file.largestKey)] else []) ++
  ((output.outputTombstones.lookup file.number).getD []).map fun t => .tombstone t.1 t.2

/-- `outputs_overlap_unexpected_current_files`: an output file at a level from 1 on overlaps a
current file of that level that the edit does not delete. -/
def outputsOverlapUnexpectedCurrentFiles (readers : TableReaders) (output : CompactionOutput)
    (v : Version) : Bool :=
  output.edit.newFiles.any fun (level, file) =>
    if level = 0 || v.numLevels ≤ level then false
    else
      let extents := outputExtents output file
      if extents.isEmpty then false
      else
        (v.levelFiles level).any fun current =>
          !output.edit.deletedFiles.contains (level, current.number) &&
            extents.any (fileOverlapsExtent readers current)

/-- The stale-input check of `install_compaction`: an input is no longer live at its level. -/
def CompactionOutput.stale (output : CompactionOutput) (v : Version) : Bool :=
  output.inputFiles.any fun (level, expected) =>
    v.numLevels ≤ level || !(v.levelFiles level).contains expected

/-- `VersionSet::ensure_file_number_at_least`. -/
def VersionSet.ensureFileNumberAtLeast (vs : VersionSet) (minNext : Nat) : VersionSet :=
  if minNext > vs.nextFileNumber then { vs with nextFileNumber := minNext } else vs

/-- `VersionSet::reserve_file_numbers`: the first reserved number, and the set past the range. -/
def VersionSet.reserveFileNumbers (vs : VersionSet) (count : Nat) : Nat × VersionSet :=
  (vs.nextFileNumber, { vs with nextFileNumber := vs.nextFileNumber + count })

/-- `install_compaction`: a stale or unexpectedly overlapping output is discarded (nothing to
delete, the version set untouched); otherwise its edit goes through `log_and_apply`, and the input
files are to be deleted. -/
def installCompaction (io : ManifestIo) (readers : TableReaders) (output : CompactionOutput)
    (vs : VersionSet) : Result (List Nat) × VersionSet :=
  if output.stale vs.current || outputsOverlapUnexpectedCurrentFiles readers output vs.current then
    (.ok [], vs)
  else
    let vs := vs.ensureFileNumberAtLeast output.nextFileNumberHint
    let edit := { output.edit with nextFileNumber := some vs.nextFileNumber }
    match vs.logAndApply io edit with
    | (.error e, vs) => (.error e, vs)
    | (.ok (), vs) => (.ok output.inputFileNumbers, vs)

/-! ## Draining level 0 -/

/-- What `drain_l0` runs with: the file system, the table readers, the options, the merge, and
the number of output files reserved for a task. -/
structure DrainContext where
  io : ManifestIo
  readers : TableReaders
  options : CompactionOptions
  merge : CompactionTask → Nat → Nat → Bool → Result CompactionOutput
  outputBudget : CompactionTask → Nat

/-- One iteration of `drain_l0` with no other compaction in flight: pick with trigger 1, reserve
output numbers, run the I/O phase, install. `none` when the pick finds nothing and the loop
breaks; `some (.error e)` when a phase fails. -/
def DrainContext.drainStep (ctx : DrainContext) (vs : VersionSet) :
    Option (Result VersionSet) :=
  let forceOptions := { ctx.options with l0CompactionTrigger := 1 }
  match pickCompaction ctx.readers vs.current forceOptions [] with
  | none => none
  | some task =>
    let (fileStart, vs) := vs.reserveFileNumbers (ctx.outputBudget task)
    let fileLimit := fileStart + ctx.outputBudget task
    let allInputs := task.inputFilesLevel ++ task.inputFilesNext
    let isBottom := isBottommostLevel ctx.readers vs.current task.level forceOptions.numLevels allInputs
    match executeCompactionIo forceOptions ctx.merge task fileStart fileLimit isBottom with
    | .error e => some (.error e)
    | .ok output =>
      match installCompaction ctx.io ctx.readers output vs with
      | (.error e, _) => some (.error e)
      | (.ok _, vs) => some (.ok vs)

/-- `DB::drain_l0` with `fuel` iterations: `none` when the loop is still running after them,
otherwise what it returns. With nothing in flight a pick that finds no task means level 0 is
empty, and the loop breaks. -/
def DrainContext.drainL0 (ctx : DrainContext) : Nat → VersionSet → Option (Result VersionSet)
  | 0, _ => none
  | fuel + 1, vs =>
    match ctx.drainStep vs with
    | none => some (.ok vs)
    | some (.error e) => some (.error e)
    | some (.ok vs) => ctx.drainL0 fuel vs

end Mmdb
