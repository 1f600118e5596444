import Mmdb.Compaction.Leveled

/-!
# Draining level 0: the picker against the install check

`DB::drain_l0` repeats pick, I/O phase and install until the pick finds nothing. It ends only if
every install it runs makes progress; a discarded install leaves the version as it was, and
the next pick, made on the same version with nothing in flight, picks the same task again.

The picker and the install check see overlap differently. `pick_l0_compaction` takes the L1
inputs by metadata alone when no L0 input carries a range deletion, while
`outputs_overlap_unexpected_current_files` also counts the range tombstones of the L1 files left
out, and a tombstone reaches past its file's largest key. `outputsOverlap_trivialMove` says
what the install check of a trivial move amounts to, and `drainL0_diverges_of_tombstone_reach`
turns an L1 tombstone reaching a single L0 file that no L1 file overlaps by metadata into a
drain that never returns.
-/

namespace Mmdb

/-! ## The install -/

/-- A stale or overlapping output is dropped: nothing to delete, the version set untouched. -/
theorem installCompaction_of_discard {io : ManifestIo} {readers : TableReaders}
    {output : CompactionOutput} {vs : VersionSet}
    (discard : (output.stale vs.current ||
      outputsOverlapUnexpectedCurrentFiles readers output vs.current) = true) :
    installCompaction io readers output vs = (.ok [], vs) := by
  unfold installCompaction
  rw [if_pos discard]

@[simp] theorem VersionSet.current_reserveFileNumbers (vs : VersionSet) (count : Nat) :
    (vs.reserveFileNumbers count).2.current = vs.current := rfl

/-! ## The trivial move -/

theorem executeCompactionIo_single {options : CompactionOptions}
    {merge : CompactionTask → Nat → Nat → Bool → Result CompactionOutput} {level : Nat}
    {f : FileMetaData} {fileNumberStart fileNumberLimit : Nat} {isBottommost : Bool}
    (noFilter : options.compactionFilterIsNoop = true) :
    executeCompactionIo options merge ⟨level, [f], []⟩ fileNumberStart fileNumberLimit isBottommost =
      .ok (trivialMove ⟨level, [f], []⟩ f fileNumberStart) := by
  simp [executeCompactionIo, noFilter]

/-- The install check of a trivial move: the moved file's range against every file of the
target level, by metadata or by tombstone. The edit deletes at the source level only, so it
excuses no file of the target level. -/
theorem outputsOverlap_trivialMove {readers : TableReaders} {v : Version} {task : CompactionTask}
    {f : FileMetaData} {fileNumberStart : Nat} (levels : task.level + 1 < v.numLevels)
    (wf : f.WellFormed) :
    outputsOverlapUnexpectedCurrentFiles readers (trivialMove task f fileNumberStart) v =
      (v.levelFiles (task.level + 1)).any
        (fileOverlapsExtent readers · (.file (userKey f.smallestKey) (userKey f.largestKey))) := by
  have outside : ¬v.numLevels ≤ task.level + 1 := by omega
  simp [outputsOverlapUnexpectedCurrentFiles, trivialMove, outputExtents, VersionEdit.empty,
    wf.smallestKey_ne_nil, wf.largestKey_ne_nil, outside]

/-! ## Picking a single L0 file -/

/-- `overlapping_files` is `file_metadata_overlaps_extent` against the range as a file extent. -/
theorem overlappingFiles_eq_filter (files : List FileMetaData) (smallest largest : Bytes) :
    overlappingFiles files smallest largest =
      files.filter (fileMetadataOverlapsExtent · (.file (userKey smallest) (userKey largest))) :=
  rfl

@[simp] theorem totalKeyRange_singleton (f : FileMetaData) :
    totalKeyRange [f] = (f.smallestKey, f.largestKey) := by
  simp [totalKeyRange]

/-- A lone L0 file without range deletions is picked alone when no L1 file overlaps its
metadata range, whatever the L1 files' tombstones reach. -/
theorem pickL0Compaction_single {v : Version} {f : FileMetaData}
    (l0 : v.levelFiles 0 = [f]) (noRangeDeletions : f.hasRangeDeletions = false)
    (apart : ∀ g ∈ v.levelFiles 1,
      fileMetadataOverlapsExtent g (.file (userKey f.smallestKey) (userKey f.largestKey)) = false) :
    pickL0Compaction v [] = some ⟨0, [f], []⟩ := by
  have inputL1 : overlappingFiles (v.levelFiles 1) f.smallestKey f.largestKey = [] := by
    rw [overlappingFiles_eq_filter, List.filter_eq_nil_iff]
    intro g hg
    simp [apart g hg]
  simp [pickL0Compaction, l0, noRangeDeletions, inputL1]

/-- Level 0 comes first: a pick of level 0 at or over the trigger is the pick. -/
theorem pickCompaction_of_pickL0 {readers : TableReaders} {v : Version}
    {options : CompactionOptions} {inFlight : List Nat} {task : CompactionTask}
    (trigger : options.l0CompactionTrigger ≤ v.l0FileCount)
    (picked : pickL0Compaction v inFlight = some task) :
    pickCompaction readers v options inFlight = some task := by
  simp [pickCompaction, trigger, picked]

/-! ## The loop -/

/-- A drain step that picks a task and installs its output. The output may depend on the first
reserved file number; the reservation moves the file counter only. -/
theorem DrainContext.drainStep_of_install {ctx : DrainContext} {vs vs' : VersionSet}
    {task : CompactionTask} {output : Nat → CompactionOutput} {deleted : List Nat}
    (picked : pickCompaction ctx.readers vs.current { ctx.options with l0CompactionTrigger := 1 } []
      = some task)
    (executed : ∀ fileStart fileLimit isBottom,
      executeCompactionIo { ctx.options with l0CompactionTrigger := 1 } ctx.merge task fileStart
        fileLimit isBottom = .ok (output fileStart))
    (installed : installCompaction ctx.io ctx.readers (output vs.nextFileNumber)
      (vs.reserveFileNumbers (ctx.outputBudget task)).2 = (.ok deleted, vs')) :
    ctx.drainStep vs = some (.ok vs') := by
  unfold DrainContext.drainStep
  simp only [VersionSet.reserveFileNumbers] at installed ⊢
  simp only [picked, executed, installed]

/-- When the pick finds nothing the loop breaks. -/
theorem DrainContext.drainStep_of_pick_none {ctx : DrainContext} {vs : VersionSet}
    (picked : pickCompaction ctx.readers vs.current { ctx.options with l0CompactionTrigger := 1 } []
      = none) :
    ctx.drainStep vs = none := by
  unfold DrainContext.drainStep
  simp only [picked]

/-- A drain step that picks a task whose output the install discards leaves the version as it
was. -/
theorem DrainContext.drainStep_of_discard {ctx : DrainContext} {vs : VersionSet}
    {task : CompactionTask} {output : Nat → CompactionOutput}
    (picked : pickCompaction ctx.readers vs.current { ctx.options with l0CompactionTrigger := 1 } []
      = some task)
    (executed : ∀ fileStart fileLimit isBottom,
      executeCompactionIo { ctx.options with l0CompactionTrigger := 1 } ctx.merge task fileStart
        fileLimit isBottom = .ok (output fileStart))
    (discard : ∀ fileStart, ((output fileStart).stale vs.current ||
        outputsOverlapUnexpectedCurrentFiles ctx.readers (output fileStart) vs.current) = true) :
    ∃ vs', ctx.drainStep vs = some (.ok vs') ∧ vs'.current = vs.current :=
  ⟨_, DrainContext.drainStep_of_install picked executed
    (installCompaction_of_discard (discard vs.nextFileNumber)), rfl⟩

/-- The run lemma: when every step from a version leaves it as it was, no number of iterations
ends the loop. -/
theorem DrainContext.drainL0_eq_none_of_stuck {ctx : DrainContext} {v : Version}
    (stuck : ∀ vs : VersionSet, vs.current = v →
      ∃ vs', ctx.drainStep vs = some (.ok vs') ∧ vs'.current = v) :
    ∀ fuel (vs : VersionSet), vs.current = v → ctx.drainL0 fuel vs = none
  | 0, _, _ => rfl
  | fuel + 1, vs, hv => by
    obtain ⟨vs', step, hv'⟩ := stuck vs hv
    simp only [DrainContext.drainL0, step]
    exact DrainContext.drainL0_eq_none_of_stuck stuck fuel vs' hv'

/-- A single L0 file without range deletions, that no L1 file overlaps by metadata but one L1
file reaches by a range tombstone, is picked for a trivial move whose output the install
discards, every time: `drain_l0` never returns. -/
theorem DrainContext.drainL0_diverges_of_tombstone_reach {ctx : DrainContext} {v : Version}
    {f : FileMetaData} (noFilter : ctx.options.compactionFilterIsNoop = true)
    (levels : 1 < v.numLevels) (l0 : v.levelFiles 0 = [f]) (wf : f.WellFormed)
    (noRangeDeletions : f.hasRangeDeletions = false)
    (apart : ∀ g ∈ v.levelFiles 1,
      fileMetadataOverlapsExtent g (.file (userKey f.smallestKey) (userKey f.largestKey)) = false)
    (reach : ∃ g ∈ v.levelFiles 1,
      fileOverlapsExtent ctx.readers g (.file (userKey f.smallestKey) (userKey f.largestKey))) :
    ∀ fuel (vs : VersionSet), vs.current = v → ctx.drainL0 fuel vs = none := by
  apply DrainContext.drainL0_eq_none_of_stuck
  intro vs hv
  have picked : pickCompaction ctx.readers vs.current { ctx.options with l0CompactionTrigger := 1 }
      [] = some ⟨0, [f], []⟩ := by
    rw [hv]
    exact pickCompaction_of_pickL0 (by simp [Version.l0FileCount, l0])
      (pickL0Compaction_single l0 noRangeDeletions apart)
  have overlaps : ∀ fileStart, outputsOverlapUnexpectedCurrentFiles ctx.readers
      (trivialMove ⟨0, [f], []⟩ f fileStart) vs.current = true := by
    intro fileStart
    rw [hv, outputsOverlap_trivialMove levels wf, List.any_eq_true]
    exact reach
  obtain ⟨vs', step, hv'⟩ := DrainContext.drainStep_of_discard picked
    (fun _ _ _ => executeCompactionIo_single noFilter) (fun fileStart => by simp [overlaps])
  exact ⟨vs', step, hv'.trans hv⟩

/-- A database with three levels and no compaction in flight. `delete_range(a, c)` alone in the
memtable, flushed, makes SST 5: both its bounds are the tombstone's begin key, its tombstone
reaches to `c`. The drain after the flush moves it to L1. `put(b)`, flushed, makes SST 26 at L0;
no L1 file overlaps `b` by metadata, so the drain after that flush picks SST 26 alone, and the
install discards its move for SST 5's tombstone, every time. -/
theorem drainL0_livelock_after_range_delete
    (merge : CompactionTask → Nat → Nat → Bool → Result CompactionOutput) :
    let io : ManifestIo := ⟨fun _ => .ok (), fun _ => "", fun _ => true, .ok (), fun _ => .ok ()⟩
    let tombstoneKey := (InternalKey.new [0x61] 1 .rangeDeletion).encoded
    let valueKey := (InternalKey.new [0x62] 2 .value).encoded
    let tombstoned : FileMetaData := ⟨5, 1024, tombstoneKey, tombstoneKey, true⟩
    let valued : FileMetaData := ⟨26, 1024, valueKey, valueKey, false⟩
    let readers : TableReaders :=
      ⟨fun number => if number = 5 then .ok [([0x61], [0x63])] else .ok []⟩
    let ctx : DrainContext := ⟨io, readers, ⟨3, 1, 10485760, 10.0, true⟩, merge, fun _ => 19⟩
    let flushTombstone : VersionEdit := ⟨some 6, some 7, some 1, [(0, tombstoned)], []⟩
    let flushValue : VersionEdit := ⟨some 27, some 28, some 2, [(0, valued)], []⟩
    let vs₀ : VersionSet := ⟨3, Version.new 3, 5, 4, 0, true, false⟩
    let vs₁ := (vs₀.logAndApply io flushTombstone).2
    let vs₂ : VersionSet := ⟨3, ⟨[[], [tombstoned], []]⟩, 26, 6, 1, true, false⟩
    let vs₃ := (vs₂.logAndApply io flushValue).2
    (vs₀.logAndApply io flushTombstone).1 = .ok () ∧
      ctx.drainL0 2 vs₁ = some (.ok vs₂) ∧
      (vs₂.logAndApply io flushValue).1 = .ok () ∧
      vs₃.current = ⟨[[valued], [tombstoned], []]⟩ ∧ vs₃.current.Invariant 3 ∧
      ∀ fuel, ctx.drainL0 fuel vs₃ = none := by
  intro io tombstoneKey valueKey tombstoned valued readers ctx flushTombstone flushValue vs₀ vs₁
    vs₂ vs₃
  have installed : vs₃.current = ⟨[[valued], [tombstoned], []]⟩ := rfl
  -- the drain after the first flush: SST 5 moves to L1, then nothing is left to pick
  have moved : ctx.drainStep vs₁ = some (.ok vs₂) :=
    DrainContext.drainStep_of_install
      (show pickCompaction readers vs₁.current ⟨3, 1, 10485760, 10.0, true⟩ [] =
        some ⟨0, [tombstoned], []⟩ by decide +kernel)
      (fun _ _ _ => executeCompactionIo_single rfl)
      (show installCompaction io readers (trivialMove ⟨0, [tombstoned], []⟩ tombstoned
        vs₁.nextFileNumber) (vs₁.reserveFileNumbers 19).2 = (.ok [], vs₂) by decide +kernel)
  have drained : ctx.drainStep vs₂ = none :=
    DrainContext.drainStep_of_pick_none
      (show pickCompaction readers vs₂.current ⟨3, 1, 10485760, 10.0, true⟩ [] = none by decide)
  refine ⟨rfl, by simp only [DrainContext.drainL0, moved, drained], rfl, installed,
    by rw [installed]; decide, ?_⟩
  -- the drain after the second flush
  intro fuel
  exact DrainContext.drainL0_diverges_of_tombstone_reach (f := valued) rfl (by decide) rfl
    (by decide) rfl (by decide)
    ⟨tombstoned, by decide, show fileOverlapsExtent readers tombstoned _ = true by decide⟩
    fuel vs₃ installed

end Mmdb
