import Mmdb.Iterator.MergeDrain
import Mmdb.Compaction.MergeLoop

/-!
# The merger of a sub-compaction and the range it writes

`execute_sub_compaction_io` reads its input through a `MergingIterator` over the input tables and
the range tombstones of its range, seeked past the lower bound. The loop is modelled over the merged
stream of `Mmdb.MergingIterator` (`SubCompactionTask.merger`); `heapMerger` is the heap the code
builds, each table read as a `Vec` source of the entries its `TableIterator` yields.

**The heap reads the stream** (`drain_heapMerger`): when the input tables are sorted and no internal
key occurs twice among the sources, `next_entry` on `heapMerger` returns the stream the loop is
modelled over, so what `Mmdb.Compaction.MergeLoop` proves of the loop holds of the code's merge. The
hypotheses are what the proof needs: with a key twice, the heap and the stream may order its
versions differently.

**The files stay in the range** (`executeSubCompactionIo_files_in_range`): the merged stream starts at
the lower bound, the loop stops before the upper bound, and every file's bounds are keys the loop
wrote, so the user keys of every file a sub-compaction records lie in `[lower_bound, upper_bound)`.
The sub-compactions of one compaction have disjoint ranges, so this is why their files do not
overlap.
-/

namespace Mmdb

namespace SubCompactionTask

variable (sub : SubCompactionTask) (params : SubCompactionParams)

/-- The merger `execute_sub_compaction_io` builds, heap and all: a source for each input table,
read here as a `Vec` source of the entries its `TableIterator` yields, and one for the range
tombstones of the range; then `seek` past the lower bound when there is one. -/
def heapMerger : Heap.MergingIterator :=
  let merger := Heap.MergingIterator.new ((sub.sources params).map fun s => Heap.IterSource.new s.entries)
  match sub.lowerBound with
  | some lo => merger.seek (InternalKey.new lo maxSequenceNumber .value).asBytes
  | none => merger

/-- Every source of the merge is tagged with no level. -/
theorem sources_eq_map_entries :
    ((sub.sources params).map (·.entries)).map (IterSource.mk none) = sub.sources params := by
  unfold sources
  dsimp only
  split <;> simp [Function.comp_def]

/-- **The heap the compaction runs reads the stream the loop is modelled over**: when the input
tables are sorted and no internal key occurs twice among the sources, `next_entry` on the merger
`execute_sub_compaction_io` builds returns the model's merged stream, past the lower bound when
there is one. -/
theorem drain_heapMerger
    (hsorted : ∀ s ∈ sub.sources params, s.entries.Pairwise Heap.KeyLe)
    (hkeys : (((sub.sources params).map (·.entries)).flatten.map Prod.fst).Nodup) {fuel : Nat}
    (hfuel : ((sub.sources params).map (·.entries)).flatten.length < fuel) :
    BinaryHeap.drain Heap.MergingIterator.nextEntry fuel (sub.heapMerger params) =
      (sub.merger params).future.map fun e => (e.key, e.value) := by
  have hsorted' : ∀ es ∈ (sub.sources params).map (·.entries), es.Pairwise Heap.KeyLe := by
    intro es hes
    obtain ⟨s, hs, rfl⟩ := List.mem_map.mp hes
    exact hsorted s hs
  have hheap : (sub.sources params).map (fun s => Heap.IterSource.new s.entries) =
      ((sub.sources params).map (·.entries)).map Heap.IterSource.new := by
    rw [List.map_map]
    rfl
  unfold heapMerger merger
  dsimp only
  rw [hheap]
  conv_rhs => rw [← sources_eq_map_entries sub params]
  cases sub.lowerBound with
  | some lo => exact Heap.MergingIterator.drain_seek _ hsorted' hkeys _ hfuel
  | none => exact Heap.MergingIterator.drain_new _ hsorted' hkeys hfuel

/-- Two input tables and a range tombstone of the range, past the lower bound `a`. -/
def heapMergerSample : SubCompactionTask :=
  ⟨some [97], none,
    [⟨⟨3, 0, [], [], false⟩, [((InternalKey.new [97] 5 .value).asBytes, [120]),
      ((InternalKey.new [99] 4 .value).asBytes, [121])], none⟩],
    [⟨⟨4, 0, [], [], false⟩, [((InternalKey.new [97] 2 .value).asBytes, [122]),
      ((InternalKey.new [98] 3 .value).asBytes, [123])], none⟩]⟩

def heapMergerSampleParams : SubCompactionParams :=
  ⟨1, false, ⟨10, 0, true⟩, 0, 20, [((InternalKey.new [98] 6 .rangeDeletion).asBytes, [99])], []⟩

theorem drain_heapMerger_two_tables :
    (∀ s ∈ heapMergerSample.sources heapMergerSampleParams, s.entries.Pairwise Heap.KeyLe) ∧
      (((heapMergerSample.sources heapMergerSampleParams).map (·.entries)).flatten.map
        Prod.fst).Nodup ∧
      ((heapMergerSample.sources heapMergerSampleParams).map (·.entries)).flatten.length < 6 ∧
      BinaryHeap.drain Heap.MergingIterator.nextEntry 6
          (heapMergerSample.heapMerger heapMergerSampleParams) =
        (heapMergerSample.merger heapMergerSampleParams).future.map fun e => (e.key, e.value) :=
  ⟨by decide, by decide, by decide,
    drain_heapMerger heapMergerSample heapMergerSampleParams (by decide) (by decide) (by decide)⟩

/-! ## The range of the files -/

/-- Past the `seek`, the merged stream starts at the lower bound: the user key of every entry that
decodes is at or above it. -/
theorem lowerBound_le_of_mem_merger {e : Entry} (he : e ∈ (sub.merger params).future)
    (hdec : e.Decodes) : ∀ lo ∈ sub.lowerBound, lo ≤ e.userKey := by
  intro lo hlo
  set target := (InternalKey.new lo maxSequenceNumber .value).asBytes
  have hdown : ∀ a b, Entry.le a b → (compareInternalKey b.key target == .lt) = true →
      (compareInternalKey a.key target == .lt) = true := by
    intro a b hab hb
    simp only [beq_iff_eq] at hb ⊢
    exact Std.TransCmp.lt_of_isLE_of_lt (Ordering.isLE_iff_ne_gt.mpr hab) hb
  have hfuture : ((MergingIterator.new (sub.sources params)).seek target).future =
      (MergingIterator.new (sub.sources params)).future.dropWhile
        fun e => compareInternalKey e.key target == .lt := rfl
  unfold merger at he
  rw [Option.mem_def.mp hlo] at he
  dsimp only at he
  -- the entries past the seek are those not before the seek key
  have hnot : compareInternalKey e.key target ≠ .lt := by
    rw [hfuture, (MergingIterator.pairwise_new _).dropWhile_eq_filter hdown, List.mem_filter] at he
    simpa using he.2
  have hle : compareInternalKey target e.key ≠ .gt := fun hgt =>
    hnot (Std.OrientedCmp.gt_iff_lt.mp hgt)
  have hlen : 8 ≤ target.length := by simp [target, InternalKey.asBytes]
  have hkey := userKey_le_of_compare_ne_gt hlen hdec.1 hle
  rw [show userKey target = lo by simp [target, InternalKey.asBytes]] at hkey
  exact hkey

end SubCompactionTask

section Execute

variable {ctx : CompactionContext} {io : TableIo} {sub : SubCompactionTask}
  {params : SubCompactionParams}

/-- A survivor has the user key of an entry it came from. -/
theorem exists_userKey_of_mem_survivors {ks : KeepState} {es : List Entry}
    (hdec : ∀ e ∈ es, e.Decodes) {o : Entry} (ho : o ∈ (survivors ctx params ks es).2) :
    ∃ e ∈ es, o.userKey = e.userKey := by
  obtain ⟨pre, e, rest, hes, hkeep⟩ := mem_survivors ho
  have he : e ∈ es := by simp [hes]
  exact ⟨e, he, (Entry.decodes_of_outputKey (hdec e he) (keepStep_eq_some hkeep).2).2.1⟩

/-- **The files of a sub-compaction stay inside its range**: when it succeeds, the user keys of
every file it records are at or above the lower bound and below the upper bound. -/
theorem executeSubCompactionIo_files_in_range (hmode : params.buildOpts.internalKeys = true)
    (hold : ∀ t ∈ ctx.activeSnapshots, params.oldestSnapshotSeq ≤ t) {counter : Nat}
    {os : OutputState} (h : executeSubCompactionIo ctx io sub params counter = some (.ok os)) :
    ∀ f ∈ os.newFiles, (∀ lo ∈ sub.lowerBound, lo ≤ userKey f.2.smallestKey) ∧
      ∀ hi ∈ sub.upperBound, userKey f.2.largestKey < hi := by
  obtain ⟨taken, left, hsplit, hdec, hbelow, -, hout⟩ :=
    (executeSubCompactionIo_output hmode hold counter).2 os h
  intro f hf
  -- each bound of the file is the key of a survivor, which has the user key of an entry taken
  obtain ⟨⟨o₁, ho₁, hkey₁⟩, ⟨o₂, ho₂, hkey₂⟩⟩ := hout.keys f hf
  obtain ⟨e₁, he₁, huser₁⟩ := exists_userKey_of_mem_survivors hdec ho₁
  obtain ⟨e₂, he₂, huser₂⟩ := exists_userKey_of_mem_survivors hdec ho₂
  have hmem₁ : e₁ ∈ (sub.merger params).future := by rw [hsplit]; exact List.mem_append_left _ he₁
  refine ⟨fun lo hlo => ?_, fun hi hhi => ?_⟩
  · have hsmall : userKey f.2.smallestKey = e₁.userKey := by rw [← hkey₁, ← huser₁]; rfl
    rw [hsmall]
    exact sub.lowerBound_le_of_mem_merger params hmem₁ (hdec e₁ he₁) lo hlo
  · have hlarge : userKey f.2.largestKey = e₂.userKey := by rw [← hkey₂, ← huser₂]; rfl
    rw [hlarge]
    exact hbelow e₂ he₂ hi hhi

theorem executeSubCompactionIo_files_in_range_two_tables :
    ∃ os, executeSubCompactionIo ⟨[2], none, 64⟩ sampleIo SubCompactionTask.heapMergerSample
        SubCompactionTask.heapMergerSampleParams 7 = some (.ok os) ∧
      os.newFiles.map (·.2.number) = [7] ∧
      ∀ f ∈ os.newFiles, (∀ lo ∈ some [97], lo ≤ userKey f.2.smallestKey) ∧
        ∀ hi ∈ (none : Option Bytes), userKey f.2.largestKey < hi :=
  ⟨_, rfl, rfl, @executeSubCompactionIo_files_in_range ⟨[2], none, 64⟩ sampleIo
    SubCompactionTask.heapMergerSample SubCompactionTask.heapMergerSampleParams rfl (by decide) 7 _
    rfl⟩

end Execute

end Mmdb
