import Mmdb.Compaction.Leveled
import Mmdb.Iterator.Keys
import Mmdb.Iterator.RangeTracker
import Mmdb.Sst.TableBuilder
import Mmdb.Lib.Scan

/-!
# The merge of a sub-compaction

`execute_sub_compaction_io` of `src/compaction/leveled.rs`: merge the input tables and the range
tombstones that start in the sub-task's range, and write what survives into new tables at the
target level. The loop decides for each entry whether to keep it: a range deletion seen twice in
a row, or one below the oldest snapshot at the bottommost level, is dropped; of the versions of a
user key, the newest is kept, and an older one only when a snapshot sees it and none of the
versions kept since; a deletion below the oldest snapshot at the bottommost level, and a value a
range tombstone visible at the oldest snapshot shadows, are dropped. At the bottommost level a
value below the oldest snapshot has its sequence zeroed. A file is cut, once it is large enough,
only where the user key changes.

The loop's locals are split by the part of the body that uses them: `KeepState` for the choice of
what to keep, `OutputState` for the tables being written. The choice alone is `keepStep`, and
`survivors` runs it over a stream; `executeSubCompactionIo_tables` shows that the tables the loop
writes hold exactly the survivors of the entries it took.

Not modelled: the file system (a table written is the `TableBuilder` that was finished, and the
cleanup of orphan files on an error is not modelled), the rate limiter and the statistics. The
file-number counter is shared by the sub-compactions of one compaction through an atomic; one
sub-compaction sees it as a counter it owns.
-/

namespace Mmdb

open RangeDel

/-- `Error::background`. -/
def Error.background (msg : String) : Error := ⟨.background, msg⟩

/-- `META_BLOCK_SPLIT_THRESHOLD`. -/
def metaBlockSplitThreshold : Nat := 32 * 1024 * 1024

/-- `CompactionFilterDecision`. -/
inductive CompactionFilterDecision where
  | keep
  | remove
  | changeValue (newVal : Bytes)

/-- What the merge reads of `CompactionContext`: the active snapshots, sorted, and of the options
the compaction filter, as `filter(level, user_key, value)`, and the target file size. -/
structure CompactionContext where
  activeSnapshots : List SequenceNumber
  compactionFilter : Option (Nat → Bytes → Bytes → CompactionFilterDecision)
  targetFileSizeBase : Nat

/-- An input table: its metadata, the entries its `TableIterator` yields, in order, and the error
the iterator stopped on, if any. -/
structure TableFile where
  «meta» : FileMetaData
  entries : List (Bytes × Bytes)
  iterError : Option String

/-- `SubCompactionTask`: the user-key range `[lower_bound, upper_bound)` and the input tables. -/
structure SubCompactionTask where
  lowerBound : Option Bytes
  upperBound : Option Bytes
  inputFilesLevel : List TableFile
  inputFilesNext : List TableFile

/-- `SubCompactionParams`; the file-number counter is passed on its own. -/
structure SubCompactionParams where
  targetLevel : Nat
  isBottommost : Bool
  buildOpts : TableBuildOptions
  oldestSnapshotSeq : SequenceNumber
  fileNumberLimit : Nat
  allRangeDelEntries : List (Bytes × Bytes)
  allRawTombstones : List (Bytes × Bytes × SequenceNumber)

namespace SubCompactionTask

variable (sub : SubCompactionTask) (params : SubCompactionParams)

/-- The sources of the merge: every input table, then the range tombstones that start in the
range, if there are any. -/
def sources : List IterSource :=
  let entries := params.allRangeDelEntries.filter fun (ikey, _) =>
    (sub.lowerBound.all fun lo => decide (lo ≤ userKey ikey)) &&
      (sub.upperBound.all fun hi => decide (userKey ikey < hi))
  ((sub.inputFilesLevel ++ sub.inputFilesNext).map fun tf => ⟨none, tf.entries⟩) ++
    if entries.isEmpty then [] else [⟨none, entries⟩]

/-- The merged stream the loop reads: past the lower bound when there is one. -/
def merger : MergingIterator :=
  match sub.lowerBound with
  | some lo => (MergingIterator.new (sub.sources params)).seek
      (InternalKey.new lo maxSequenceNumber .value).asBytes
  | none => MergingIterator.new (sub.sources params)

/-- The tracker before the loop: every tombstone that overlaps the range, then `reset`. -/
def initialTracker : RangeTombstoneTracker :=
  (RangeTombstoneTracker.new.addAll
    ((params.allRawTombstones.filter fun (begin, «end», _) =>
      tombstoneOverlapsBounds begin «end» sub.lowerBound sub.upperBound).map
        fun (begin, «end», seq) => ⟨begin, «end», seq⟩)).reset

/-- `merger.error()`: the first error of a table source. -/
def mergeError : Option String := (sub.inputFilesLevel ++ sub.inputFilesNext).findSome? (·.iterError)

end SubCompactionTask

/-! ## What to keep -/

/-- The locals the choice of what to keep reads and writes. -/
structure KeepState where
  lastPointKey : Option Bytes
  lastRangeDelKey : Option Bytes
  lastWrittenSeq : SequenceNumber
  snapshotIdx : Nat
  rangeTombstones : RangeTombstoneTracker

/-- The `while` loop that moves `snapshot_idx` down past the snapshots at or above
`last_written_seq`. The index stays at most the number of snapshots, so the read is in bounds. -/
def popSnapshots (snapshots : List SequenceNumber) (lastWrittenSeq : SequenceNumber) : Nat → Nat
  | 0 => 0
  | idx + 1 =>
    if lastWrittenSeq ≤ snapshots.getD idx 0 then popSnapshots snapshots lastWrittenSeq idx
    else idx + 1

namespace KeepState

/-- The check both point branches make: a value shadowed by a range tombstone visible at the
oldest snapshot is dropped. `is_deleted` is asked only of a value, and only when the tracker holds
a tombstone. `false` for `continue`. -/
def dropShadowed (params : SubCompactionParams) (ks : KeepState) (userKey : Bytes)
    (entrySeq : SequenceNumber) (vt : ValueType) : KeepState × Bool :=
  if vt = .value ∧ ks.rangeTombstones.isEmpty = false then
    let query := ks.rangeTombstones.isDeleted userKey entrySeq params.oldestSnapshotSeq
    ({ ks with rangeTombstones := query.2 }, !query.1)
  else (ks, true)

/-- The three branches of the loop body that choose what to keep: a range deletion, an older
version of the last point key, and a point entry of a new user key. `false` for `continue`. -/
def keep (snapshots : List SequenceNumber) (params : SubCompactionParams) (ks : KeepState)
    (ikey userKey : Bytes) (entrySeq : SequenceNumber) (vt : ValueType) : KeepState × Bool :=
  if vt = .rangeDeletion then
    if ks.lastRangeDelKey = some ikey then (ks, false)
    else ({ ks with lastRangeDelKey := some ikey },
      !(params.isBottommost && decide (entrySeq < params.oldestSnapshotSeq)))
  else if ks.lastPointKey = some userKey then
    let snapshotIdx := popSnapshots snapshots ks.lastWrittenSeq ks.snapshotIdx
    if 0 < snapshotIdx ∧ entrySeq ≤ snapshots.getD (snapshotIdx - 1) 0 then
      { ks with snapshotIdx, lastWrittenSeq := entrySeq }.dropShadowed params userKey entrySeq vt
    else ({ ks with snapshotIdx }, false)
  else
    let ks := { ks with
      lastPointKey := some userKey
      lastWrittenSeq := entrySeq
      snapshotIdx := snapshots.length }
    if params.isBottommost ∧ entrySeq < params.oldestSnapshotSeq ∧ vt = .deletion then (ks, false)
    else ks.dropShadowed params userKey entrySeq vt

end KeepState

/-- The compaction filter: at the bottommost level with no snapshot, on a value. `none` when it
removes the entry. -/
def applyCompactionFilter (ctx : CompactionContext) (params : SubCompactionParams)
    (userKey : Bytes) (vt : ValueType) (value : Bytes) : Option Bytes :=
  match ctx.compactionFilter with
  | some filter =>
    if params.isBottommost ∧ ctx.activeSnapshots = [] ∧ vt = .value then
      match filter params.targetLevel userKey value with
      | .keep => some value
      | .remove => none
      | .changeValue newVal => some newVal
    else some value
  | none => some value

/-- The key written: at the bottommost level a value below the oldest snapshot has its sequence
zeroed. -/
def outputKey (params : SubCompactionParams) (ikey userKey : Bytes) (entrySeq : SequenceNumber)
    (vt : ValueType) : Bytes :=
  if params.isBottommost ∧ 0 < entrySeq ∧ entrySeq < params.oldestSnapshotSeq ∧ vt = .value then
    (InternalKey.new userKey 0 vt).asBytes
  else ikey

/-- The choice for one entry of the stream, and the entry written for it if it is kept. -/
def keepStep (ctx : CompactionContext) (params : SubCompactionParams) (ks : KeepState)
    (e : Entry) : KeepState × Option Entry :=
  let kept := ks.keep ctx.activeSnapshots params e.key e.userKey e.seq e.valueType
  (kept.1, if kept.2 then
      (applyCompactionFilter ctx params e.userKey e.valueType e.value).map fun value =>
        ⟨outputKey params e.key e.userKey e.seq e.valueType, value, none⟩
    else none)

/-- What survives of a stream, from a state of the choice. -/
def survivors (ctx : CompactionContext) (params : SubCompactionParams) (ks : KeepState)
    (es : List Entry) : KeepState × List Entry :=
  es.scanFilter (keepStep ctx params) ks

/-! ## Writing the tables -/

/-- The locals that build the output tables, and the file-number counter. `tables` are the tables
finished so far, one for each of `new_files`: what the files written hold. `output_tombstones` is
a map from file number to extents, here a list of pairs. -/
structure OutputState where
  newFiles : List (Nat × FileMetaData)
  outputTombstones : List (Nat × List (Bytes × Bytes))
  tables : List TableBuilder
  builder : Option TableBuilder
  currentFileNumber : Nat
  currentSize : Nat
  currentFileUserKey : Bytes
  pendingCut : Bool
  fileNumberCounter : Nat

/-- `allocate_output_file_number`: the counter's value, which the caller then moves past. -/
def allocateOutputFileNumber (params : SubCompactionParams) (current : Nat) : Result Nat :=
  let limit := params.fileNumberLimit
  if limit ≤ current then
    .error (.background
      s!"reserved compaction output file numbers exhausted: next={current}, limit={limit}")
  else if u64Max < current + 1 then .error (.background "compaction output file number overflow")
  else .ok current

namespace OutputState

variable (ctx : CompactionContext) (io : TableIo) (params : SubCompactionParams)

/-- `finish` the table being built and enter it in `new_files`, with its tombstones. -/
def finishTable (os : OutputState) (b : TableBuilder) : Result OutputState := do
  let result ← b.finish io
  pure { os with
    builder := none
    outputTombstones := if result.hasRangeDeletions then
        os.outputTombstones ++ [(os.currentFileNumber, result.rangeTombstones)]
      else os.outputTombstones
    newFiles := os.newFiles ++ [(params.targetLevel,
      { number := os.currentFileNumber
        fileSize := result.fileSize
        smallestKey := result.smallestKey.getD []
        largestKey := result.largestKey.getD []
        hasRangeDeletions := result.hasRangeDeletions })]
    tables := os.tables ++ [b] }

/-- The deferred cut: a table large enough is finished where the user key changes. -/
def cutIfPending (os : OutputState) (userKey : Bytes) : Result OutputState :=
  match os.builder with
  | some b =>
    if os.pendingCut ∧ userKey ≠ os.currentFileUserKey then do
      let os ← os.finishTable io params b
      pure { os with currentSize := 0, pendingCut := false }
    else .ok os
  | none => .ok os

/-- A new table when there is none: a file number, then `TableBuilder::new`. -/
def openTable (os : OutputState) : Result (OutputState × TableBuilder) :=
  match os.builder with
  | some b => .ok (os, b)
  | none => do
    let number ← allocateOutputFileNumber params os.fileNumberCounter
    io.create number
    let b := TableBuilder.new params.buildOpts
    pure ({ os with
      fileNumberCounter := number + 1
      currentFileNumber := number
      builder := some b
      currentSize := 0 }, b)

/-- `builder.add`, then the size kept and the cut it may ask for. `none` when `add` panics. -/
def write (os : OutputState) (b : TableBuilder) (key value userKey : Bytes) :
    Option (Result OutputState) :=
  (b.add io key value).map fun
    | .error e => .error e
    | .ok b =>
      let currentSize := os.currentSize + (key.length + value.length)
      .ok { os with
        builder := some b
        currentSize
        currentFileUserKey := userKey
        pendingCut := os.pendingCut || decide (ctx.targetFileSizeBase ≤ currentSize) ||
          decide (metaBlockSplitThreshold ≤ io.projectedMetaSize b) }

end OutputState

/-! ## The loop -/

/-- How one iteration of the loop ends: on to the next entry, at the `break` of the upper bound,
or with an error. -/
inductive LoopStep where
  | next (ks : KeepState) (os : OutputState)
  | stop
  | fail (e : Error)

variable (ctx : CompactionContext) (io : TableIo) (sub : SubCompactionTask)
  (params : SubCompactionParams)

/-- The body of the loop for one entry. `none` when it panics. -/
def mergeStep (ks : KeepState) (os : OutputState) (entry : Entry) : Option LoopStep :=
  match decodeInternalKey entry.key with
  | .error e => some (.fail e)
  | .ok (userKey, entrySeq, vt) =>
    if sub.upperBound.any fun hi => decide (hi ≤ userKey) then some .stop
    else
      match os.cutIfPending io params userKey with
      | .error e => some (.fail e)
      | .ok os =>
        let kept := ks.keep ctx.activeSnapshots params entry.key userKey entrySeq vt
        if kept.2 then
          match applyCompactionFilter ctx params userKey vt entry.value with
          | none => some (.next kept.1 os)
          | some value =>
            match os.openTable io params with
            | .error e => some (.fail e)
            | .ok (os, b) =>
              (os.write ctx io b (outputKey params entry.key userKey entrySeq vt) value userKey).map
                fun
                  | .error e => .fail e
                  | .ok os => .next kept.1 os
        else some (.next kept.1 os)

/-- The loop over the entries `next_entry` returns, in turn. -/
def mergeLoop : KeepState → OutputState → List Entry → Option (Result OutputState)
  | _, os, [] => some (.ok os)
  | ks, os, entry :: rest =>
    match mergeStep ctx io sub params ks os entry with
    | none => none
    | some .stop => some (.ok os)
    | some (.fail e) => some (.error e)
    | some (.next ks os) => mergeLoop ks os rest

/-- The state of the choice before the loop. -/
def initialKeepState : KeepState :=
  ⟨none, none, 0, ctx.activeSnapshots.length, sub.initialTracker params⟩

/-- The output locals before the loop, with the counter's value. -/
def initialOutputState (fileNumberCounter : Nat) : OutputState where
  newFiles := []
  outputTombstones := []
  tables := []
  builder := none
  currentFileNumber := 0
  currentSize := 0
  currentFileUserKey := []
  pendingCut := false
  fileNumberCounter := fileNumberCounter

/-- `execute_sub_compaction_io`: the loop, the table left open finished, then the merger's error.
The result's `newFiles` and `outputTombstones` are `SubCompactionOutput`; `none` when it panics. -/
def executeSubCompactionIo (fileNumberCounter : Nat) : Option (Result OutputState) :=
  (mergeLoop ctx io sub params (initialKeepState ctx sub params)
      (initialOutputState fileNumberCounter) (sub.merger params).future).map fun r => do
    let os ← r
    let os ← match os.builder with
      | some b => os.finishTable io params b
      | none => pure os
    match sub.mergeError with
    | some e => throw (.background s!"sub-compaction merge error: {e}")
    | none => pure os

end Mmdb
