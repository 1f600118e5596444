import Mmdb.Compaction.MergeLoop

/-!
# What a sub-compaction keeps answers every read as its input does

The choice of `execute_sub_compaction_io` against what a read of the database returns. A read of a
user key at a sequence sees the newest point entry of the key at or below the sequence, and
returns its value unless it is a deletion or a range deletion visible at the sequence deletes it
(`readAt`). A compaction may drop and rewrite entries only where no read at an active snapshot, nor
at the latest sequence, can tell.

The loop decides from its locals; `KeepSpec` decides from the entries taken before, read off the
stream: the last range deletion, the last point entry, the snapshots and the tombstones the
tracker was given. `KeepState.Tracks` says what the locals hold about the entries taken, and one step keeps
it while deciding as `KeepSpec` does (`KeepState.Tracks.step`); so at every position of the stream the loop
decides as the specification does (`keepStep_survivors`).

**Every read is preserved** (`readAt_survivors`): over a stream in internal-key order, with sorted
snapshots, the oldest at or below all of them, no compaction filter, the tracker given exactly the
stream's range deletions and one end key for each range deletion key, the survivors answer every
read at an active snapshot or at a sequence at or above the whole stream as the stream does.
-/

namespace Mmdb

open RangeDel

/-! ## Reads of a run of entries -/

/-- Whether a read of `k` at `r` can see the entry: a point entry of `k` at or below `r`. -/
def Entry.seenBy (k : Bytes) (r : SequenceNumber) (e : Entry) : Bool :=
  e.userKey == k && decide (e.seq ≤ r) && e.valueType != .rangeDeletion

/-- The version of `k` a read at `r` sees in a run in internal-key order: the first point entry of
`k` at or below `r`, which is the newest. -/
def visibleVersion (S : List Entry) (k : Bytes) (r : SequenceNumber) : Option Entry :=
  S.find? (Entry.seenBy k r)

/-- Whether a range deletion of the run, visible at `r`, deletes `k` at sequence `s`. -/
def covered (S : List Entry) (k : Bytes) (s r : SequenceNumber) : Bool :=
  S.any fun t => t.valueType == .rangeDeletion && decide (t.userKey ≤ k) && decide (k < t.value) &&
    decide (s < t.seq) && decide (t.seq ≤ r)

/-- What a read of `k` at `r` returns from the run. -/
def readAt (S : List Entry) (k : Bytes) (r : SequenceNumber) : Option Bytes :=
  (visibleVersion S k r).bind fun e =>
    if e.valueType = .value ∧ covered S k e.seq r = false then some e.value else none

theorem seenBy_eq_true_iff {k : Bytes} {r : SequenceNumber} {e : Entry} :
    e.seenBy k r = true ↔ e.userKey = k ∧ e.seq ≤ r ∧ e.valueType ≠ .rangeDeletion := by
  simp [Entry.seenBy, and_assoc]

theorem covered_eq_true_iff {S : List Entry} {k : Bytes} {s r : SequenceNumber} :
    covered S k s r = true ↔ ∃ t ∈ S, t.valueType = .rangeDeletion ∧ t.userKey ≤ k ∧
      k < t.value ∧ s < t.seq ∧ t.seq ≤ r := by
  simp [covered, and_assoc]

/-! ## The choice read off the stream -/

/-- The last point entry of a run. -/
def lastPoint (pre : List Entry) : Option Entry :=
  (pre.filter fun e => e.valueType != .rangeDeletion).getLast?

/-- The last range deletion of a run. -/
def lastRangeDel (pre : List Entry) : Option Entry :=
  (pre.filter fun e => e.valueType == .rangeDeletion).getLast?

/-- A value that a range tombstone of `T` visible at the oldest snapshot deletes. -/
def Shadowed (params : SubCompactionParams) (T : List RangeDel.RangeTombstone) (e : Entry) : Prop :=
  e.valueType = .value ∧ ∃ rt ∈ T, rt.begin ≤ e.userKey ∧ e.userKey < rt.«end» ∧ e.seq < rt.seq ∧
    rt.seq ≤ params.oldestSnapshotSeq

/-- Whether the entry `e` is kept after the entries `pre`: a range deletion unless it repeats the
last one or is below the oldest snapshot at the bottommost level; an older version of the last
point key when a snapshot sees it, that is when one lies at or above it and below the version
before; the newest version of a key unless it is a deletion below the oldest snapshot at the
bottommost level. A value shadowed at the oldest snapshot is dropped. -/
def KeepSpec (snapshots : List SequenceNumber) (params : SubCompactionParams)
    (T : List RangeDel.RangeTombstone) (pre : List Entry) (e : Entry) : Prop :=
  if e.valueType = .rangeDeletion then
    (lastRangeDel pre).map (·.key) ≠ some e.key ∧
      ¬ (params.isBottommost = true ∧ e.seq < params.oldestSnapshotSeq)
  else if (lastPoint pre).map (·.userKey) = some e.userKey then
    (∃ p ∈ lastPoint pre, ∃ s ∈ snapshots, e.seq ≤ s ∧ s < p.seq) ∧ ¬ Shadowed params T e
  else
    ¬ (params.isBottommost = true ∧ e.seq < params.oldestSnapshotSeq ∧ e.valueType = .deletion) ∧
      ¬ Shadowed params T e

instance (snapshots : List SequenceNumber) (params : SubCompactionParams)
    (T : List RangeDel.RangeTombstone) (pre : List Entry) (e : Entry) :
    Decidable (KeepSpec snapshots params T pre e) := by
  unfold KeepSpec Shadowed
  infer_instance

/-- The entry the loop writes for an entry it keeps, with no compaction filter. -/
def outputEntry (params : SubCompactionParams) (e : Entry) : Entry :=
  ⟨outputKey params e.key e.userKey e.seq e.valueType, e.value, none⟩

section Runs

variable {pre : List Entry} {e p : Entry}

@[simp] theorem lastPoint_nil : lastPoint [] = none := rfl

@[simp] theorem lastRangeDel_nil : lastRangeDel [] = none := rfl

theorem lastPoint_concat_of_rangeDeletion (h : e.valueType = .rangeDeletion) :
    lastPoint (pre ++ [e]) = lastPoint pre := by
  simp [lastPoint, List.filter_append, h]

theorem lastPoint_concat_of_ne (h : e.valueType ≠ .rangeDeletion) :
    lastPoint (pre ++ [e]) = some e := by
  simp [lastPoint, List.filter_append, h]

theorem lastRangeDel_concat_of_rangeDeletion (h : e.valueType = .rangeDeletion) :
    lastRangeDel (pre ++ [e]) = some e := by
  simp [lastRangeDel, List.filter_append, h]

theorem lastRangeDel_concat_of_ne (h : e.valueType ≠ .rangeDeletion) :
    lastRangeDel (pre ++ [e]) = lastRangeDel pre := by
  simp [lastRangeDel, List.filter_append, h]

theorem mem_of_lastPoint (h : p ∈ lastPoint pre) : p ∈ pre ∧ p.valueType ≠ .rangeDeletion := by
  have hmem := List.mem_of_getLast? h
  simpa using hmem

theorem mem_of_lastRangeDel (h : p ∈ lastRangeDel pre) :
    p ∈ pre ∧ p.valueType = .rangeDeletion := by
  have hmem := List.mem_of_getLast? h
  simpa using hmem

/-- A point entry in the second part of a run puts the last point entry there. -/
theorem lastPoint_append_of_mem {l₁ l₂ : List Entry} {x : Entry} (hx : x ∈ l₂)
    (hvt : x.valueType ≠ .rangeDeletion) : ∃ p ∈ lastPoint (l₁ ++ l₂), p ∈ l₂ := by
  have hne : (l₂.filter fun e => e.valueType != .rangeDeletion) ≠ [] :=
    List.ne_nil_of_mem (List.mem_filter.mpr ⟨hx, by simpa using hvt⟩)
  obtain ⟨p, hp⟩ := Option.isSome_iff_exists.mp (List.getLast?_isSome.mpr hne)
  refine ⟨p, ?_, (List.mem_filter.mp (List.mem_of_getLast? hp)).1⟩
  rw [lastPoint, List.filter_append, List.getLast?_append_of_ne_nil _ hne]
  exact hp

end Runs

/-! ## The snapshot test read off the snapshots -/

section Snapshots

variable {snapshots : List SequenceNumber} {ks : KeepState}

/-- After the `while` loop, every snapshot from the index on is at or above
`last_written_seq`, given that every one from the old index on was. -/
theorem le_getElem_of_popSnapshots_le (habove : ∀ j (hj : j < snapshots.length), ks.snapshotIdx ≤ j →
      ks.lastWrittenSeq ≤ snapshots[j]) {j : Nat} (hj : j < snapshots.length)
    (hpop : popSnapshots snapshots ks.lastWrittenSeq ks.snapshotIdx ≤ j) :
    ks.lastWrittenSeq ≤ snapshots[j] := by
  rcases Nat.lt_or_ge j ks.snapshotIdx with hlt | hge
  · have hle := le_getD_of_popSnapshots_le snapshots ks.lastWrittenSeq hpop hlt
    rwa [List.getD_eq_getElem _ _ hj] at hle
  · exact habove j hj hge

/-- Over sorted snapshots, with every snapshot from the index on at or above
`last_written_seq`, the snapshot test passes exactly when a snapshot lies at or above the sequence
and below `last_written_seq`. -/
theorem KeepState.passes_iff (hsorted : snapshots.Pairwise (· ≤ ·))
    (hidx : ks.snapshotIdx ≤ snapshots.length)
    (habove : ∀ j (hj : j < snapshots.length), ks.snapshotIdx ≤ j →
      ks.lastWrittenSeq ≤ snapshots[j]) (x : SequenceNumber) :
    ks.Passes snapshots x ↔ ∃ s ∈ snapshots, x ≤ s ∧ s < ks.lastWrittenSeq := by
  have hpop_le := popSnapshots_le snapshots ks.lastWrittenSeq ks.snapshotIdx
  constructor
  · -- the snapshot below the index is the witness
    rintro ⟨hpos, hle⟩
    have hstop := (popSnapshots_stop snapshots ks.lastWrittenSeq ks.snapshotIdx).resolve_left
      (Nat.pos_iff_ne_zero.mp hpos)
    rw [List.getD_eq_getElem _ _ (by omega)] at hle hstop
    exact ⟨_, List.getElem_mem (by omega), hle, hstop⟩
  · rintro ⟨s, hs, hxs, hslw⟩
    obtain ⟨i, hi, rfl⟩ := List.getElem_of_mem hs
    -- a snapshot below `last_written_seq` is below the index
    have hipop : i < popSnapshots snapshots ks.lastWrittenSeq ks.snapshotIdx := by
      by_contra hge
      have := le_getElem_of_popSnapshots_le habove hi (Nat.le_of_not_lt hge)
      unfold SequenceNumber at *
      omega
    refine ⟨by omega, ?_⟩
    rw [List.getD_eq_getElem _ _ (by omega)]
    -- the snapshots are sorted, and the one below the index is at or after snapshot `i`
    rcases Nat.eq_or_lt_of_le (show i ≤ popSnapshots snapshots ks.lastWrittenSeq ks.snapshotIdx - 1
      by omega) with heq | hlt
    · simp only [← heq]
      exact hxs
    · exact le_trans hxs (List.pairwise_iff_getElem.mp hsorted i _ hi (by omega) hlt)

end Snapshots

/-! ## What the locals hold -/

/-- The frontier of the entries taken: the user key of the last one, or the empty key. -/
def frontier (pre : List Entry) : Bytes := (pre.getLast?.map (·.userKey)).getD []

/-- What the locals of the choice hold about the entries `pre` taken, with the tombstones `T`
given to the tracker: the last point key and range deletion are those of `pre`; every snapshot
from the index on is at or above `last_written_seq`, which is at or above the last point entry's
sequence with no snapshot in between; and the tracker answers from `T` ahead of the frontier. -/
structure KeepState.Tracks (snapshots : List SequenceNumber) (T : List RangeDel.RangeTombstone) (pre : List Entry)
    (ks : KeepState) : Prop where
  lastPointKey : ks.lastPointKey = (lastPoint pre).map (·.userKey)
  lastRangeDelKey : ks.lastRangeDelKey = (lastRangeDel pre).map (·.key)
  snapshotIdx_le : ks.snapshotIdx ≤ snapshots.length
  above : ∀ j (hj : j < snapshots.length), ks.snapshotIdx ≤ j → ks.lastWrittenSeq ≤ snapshots[j]
  written : ∀ p ∈ lastPoint pre, p.seq ≤ ks.lastWrittenSeq ∧
    ∀ s ∈ snapshots, p.seq ≤ s → ks.lastWrittenSeq ≤ s
  tracker : RangeTombstoneTracker.Answers T ks.rangeTombstones (frontier pre)

section Step

variable {snapshots : List SequenceNumber} {params : SubCompactionParams}
  {T : List RangeDel.RangeTombstone} {pre : List Entry} {ks : KeepState} {e : Entry}

/-- `drop_shadowed`, asked at or above the tracker's key, drops exactly a shadowed value. -/
theorem KeepState.dropShadowed_iff {k : Bytes}
    (h : RangeTombstoneTracker.Answers T ks.rangeTombstones k)
    (hk : k ≤ e.userKey) :
    ((ks.dropShadowed params e.userKey e.seq e.valueType).2 = true ↔ ¬ Shadowed params T e) ∧
      RangeTombstoneTracker.Answers T
        (ks.dropShadowed params e.userKey e.seq e.valueType).1.rangeTombstones e.userKey := by
  unfold KeepState.dropShadowed Shadowed
  by_cases hq : e.valueType = .value ∧ ks.rangeTombstones.isEmpty = false
  · rw [if_pos hq]
    obtain ⟨hans, hnext⟩ := h.isDeleted hk e.seq params.oldestSnapshotSeq
    refine ⟨?_, hnext⟩
    rw [Bool.not_eq_true', ← Bool.not_eq_true, hans]
    simp [hq.1]
  · rw [if_neg hq]
    refine ⟨?_, h.mono hk⟩
    -- no query: either not a value, or no tombstone at all
    simp only [true_iff]
    rintro ⟨hval, rt, hrt, -⟩
    have hempty : ks.rangeTombstones.isEmpty = true := by
      cases hb : ks.rangeTombstones.isEmpty
      · exact absurd ⟨hval, hb⟩ hq
      · rfl
    rw [h.eq_nil_of_isEmpty hempty] at hrt
    cases hrt

@[simp] theorem frontier_concat : frontier (pre ++ [e]) = e.userKey := by
  simp [frontier]

/-- After a point entry, the locals hold it as the last point entry once they say so field by
field. -/
theorem KeepState.Tracks.concat_point {ks' : KeepState} (inv : KeepState.Tracks snapshots T pre ks)
    (hrd : e.valueType ≠ .rangeDeletion) (hpoint : ks'.lastPointKey = some e.userKey)
    (hrdKey : ks'.lastRangeDelKey = ks.lastRangeDelKey) (hidx : ks'.snapshotIdx ≤ snapshots.length)
    (habove : ∀ j (hj : j < snapshots.length), ks'.snapshotIdx ≤ j →
      ks'.lastWrittenSeq ≤ snapshots[j])
    (hwritten : e.seq ≤ ks'.lastWrittenSeq ∧ ∀ s ∈ snapshots, e.seq ≤ s → ks'.lastWrittenSeq ≤ s)
    (htracker : RangeTombstoneTracker.Answers T ks'.rangeTombstones e.userKey) :
    KeepState.Tracks snapshots T (pre ++ [e]) ks' where
  lastPointKey := by rw [hpoint, lastPoint_concat_of_ne hrd]; rfl
  lastRangeDelKey := by rw [hrdKey, lastRangeDel_concat_of_ne hrd]; exact inv.lastRangeDelKey
  snapshotIdx_le := hidx
  above := habove
  written p hp := by
    rw [lastPoint_concat_of_ne hrd, Option.mem_some_iff] at hp
    subst hp
    exact hwritten
  tracker := by rw [frontier_concat]; exact htracker

/-- After a range deletion that the locals record, they hold it as the last one. -/
theorem KeepState.Tracks.concat_rangeDeletion (inv : KeepState.Tracks snapshots T pre ks)
    (hk : frontier pre ≤ e.userKey) (hrd : e.valueType = .rangeDeletion) :
    KeepState.Tracks snapshots T (pre ++ [e]) { ks with lastRangeDelKey := some e.key } where
  lastPointKey := by rw [lastPoint_concat_of_rangeDeletion hrd]; exact inv.lastPointKey
  lastRangeDelKey := by rw [lastRangeDel_concat_of_rangeDeletion hrd]; rfl
  snapshotIdx_le := inv.snapshotIdx_le
  above := inv.above
  written := by rw [lastPoint_concat_of_rangeDeletion hrd]; exact inv.written
  tracker := by rw [frontier_concat]; exact inv.tracker.mono hk

/-- The branch of a range deletion decides as the specification does. -/
theorem KeepState.Tracks.step_rangeDeletion (inv : KeepState.Tracks snapshots T pre ks) (hk : frontier pre ≤ e.userKey)
    (hrd : e.valueType = .rangeDeletion) :
    KeepState.Tracks snapshots T (pre ++ [e]) (ks.keep snapshots params e.key e.userKey e.seq e.valueType).1 ∧
      ((ks.keep snapshots params e.key e.userKey e.seq e.valueType).2 = true ↔
        KeepSpec snapshots params T pre e) := by
  unfold KeepState.keep KeepSpec
  rw [if_pos hrd, if_pos hrd, ← inv.lastRangeDelKey]
  by_cases hlast : ks.lastRangeDelKey = some e.key
  · -- a repeat: the locals already hold it
    rw [if_pos hlast]
    have hks : ks = { ks with lastRangeDelKey := some e.key } := by rw [← hlast]
    refine ⟨hks ▸ inv.concat_rangeDeletion hk hrd, ?_⟩
    simp [hlast]
  · rw [if_neg hlast]
    refine ⟨inv.concat_rangeDeletion hk hrd, ?_⟩
    cases params.isBottommost <;> simp [hlast]

/-- The branch of an older version decides as the specification does: the snapshot test over the
locals is the test against the last point entry's sequence. -/
theorem KeepState.Tracks.step_older (hsnap : snapshots.Pairwise (· ≤ ·)) (inv : KeepState.Tracks snapshots T pre ks)
    (hk : frontier pre ≤ e.userKey) (hrd : e.valueType ≠ .rangeDeletion)
    (hlast : ks.lastPointKey = some e.userKey) (hseq : ∀ p ∈ lastPoint pre, e.seq ≤ p.seq) :
    KeepState.Tracks snapshots T (pre ++ [e]) (ks.keep snapshots params e.key e.userKey e.seq e.valueType).1 ∧
      ((ks.keep snapshots params e.key e.userKey e.seq e.valueType).2 = true ↔
        KeepSpec snapshots params T pre e) := by
  have hlast' : (lastPoint pre).map (·.userKey) = some e.userKey := inv.lastPointKey ▸ hlast
  obtain ⟨p, hp, -⟩ := Option.map_eq_some_iff.mp hlast'
  obtain ⟨hplw, hgap⟩ := inv.written p hp
  have hlw : e.seq ≤ ks.lastWrittenSeq := le_trans (hseq p hp) hplw
  -- no snapshot lies between the last point entry and `last_written_seq`
  have hpass : ks.Passes snapshots e.seq ↔ ∃ s ∈ snapshots, e.seq ≤ s ∧ s < p.seq := by
    rw [KeepState.passes_iff hsnap inv.snapshotIdx_le inv.above]
    constructor
    · rintro ⟨s, hs, hes, hslw⟩
      refine ⟨s, hs, hes, Nat.lt_of_not_le fun hps => ?_⟩
      exact absurd (hgap s hs hps) (Nat.not_le_of_lt hslw)
    · rintro ⟨s, hs, hes, hsp⟩
      exact ⟨s, hs, hes, lt_of_lt_of_le hsp hplw⟩
  have habove : ∀ j (hj : j < snapshots.length),
      popSnapshots snapshots ks.lastWrittenSeq ks.snapshotIdx ≤ j → ks.lastWrittenSeq ≤ snapshots[j] :=
    fun j hj hpop => le_getElem_of_popSnapshots_le inv.above hj hpop
  have hidx : popSnapshots snapshots ks.lastWrittenSeq ks.snapshotIdx ≤ snapshots.length :=
    le_trans (popSnapshots_le _ _ _) inv.snapshotIdx_le
  unfold KeepState.keep KeepSpec
  rw [if_neg hrd, if_neg hrd, if_pos hlast, if_pos hlast']
  dsimp only
  by_cases hP : ks.Passes snapshots e.seq
  · -- seen by a snapshot: `last_written_seq` moves to the entry, then the shadow check
    have hP' : 0 < popSnapshots snapshots ks.lastWrittenSeq ks.snapshotIdx ∧
        e.seq ≤ snapshots.getD (popSnapshots snapshots ks.lastWrittenSeq ks.snapshotIdx - 1) 0 := hP
    rw [if_pos hP']
    obtain ⟨hkeep, htracker⟩ := @KeepState.dropShadowed_iff params T
      { ks with
        snapshotIdx := popSnapshots snapshots ks.lastWrittenSeq ks.snapshotIdx
        lastWrittenSeq := e.seq } e _ inv.tracker hk
    refine ⟨inv.concat_point hrd (by simpa using hlast) (by simp) (by simpa using hidx)
      (fun j hj hpop => ?_) (by simp) htracker, ?_⟩
    · simp only [KeepState.dropShadowed_snapshotIdx, KeepState.dropShadowed_lastWrittenSeq] at hpop ⊢
      exact le_trans hlw (habove j hj hpop)
    · rw [hkeep]
      exact ⟨fun h => ⟨⟨p, hp, hpass.mp hP⟩, h⟩, fun h => h.2⟩
  · have hP' : ¬ (0 < popSnapshots snapshots ks.lastWrittenSeq ks.snapshotIdx ∧
        e.seq ≤ snapshots.getD (popSnapshots snapshots ks.lastWrittenSeq ks.snapshotIdx - 1) 0) := hP
    rw [if_neg hP']
    refine ⟨inv.concat_point hrd hlast rfl hidx habove ⟨hlw, fun s hs hes => ?_⟩
      (inv.tracker.mono hk), ?_⟩
    · -- no snapshot in `[e.seq, last_written_seq)`
      by_contra hlt
      exact hP ((KeepState.passes_iff hsnap inv.snapshotIdx_le inv.above e.seq).mpr
        ⟨s, hs, hes, Nat.lt_of_not_le hlt⟩)
    · simp only [Bool.false_eq_true, false_iff, not_and]
      rintro ⟨p', hp', hs⟩
      rw [Option.mem_unique hp' hp] at hs
      exact absurd (hpass.mpr hs) hP

/-- The branch of a new user key decides as the specification does. -/
theorem KeepState.Tracks.step_newest (inv : KeepState.Tracks snapshots T pre ks) (hk : frontier pre ≤ e.userKey)
    (hrd : e.valueType ≠ .rangeDeletion) (hlast : ¬ ks.lastPointKey = some e.userKey) :
    KeepState.Tracks snapshots T (pre ++ [e]) (ks.keep snapshots params e.key e.userKey e.seq e.valueType).1 ∧
      ((ks.keep snapshots params e.key e.userKey e.seq e.valueType).2 = true ↔
        KeepSpec snapshots params T pre e) := by
  have hlast' : ¬ (lastPoint pre).map (·.userKey) = some e.userKey := inv.lastPointKey ▸ hlast
  unfold KeepState.keep KeepSpec
  rw [if_neg hrd, if_neg hrd, if_neg hlast, if_neg hlast']
  dsimp only
  -- the locals restart at the entry: every snapshot index is past the end
  have hnone : ∀ j (hj : j < snapshots.length), snapshots.length ≤ j → e.seq ≤ snapshots[j] :=
    fun j hj hle => absurd hj (Nat.not_lt_of_le hle)
  by_cases hdel : params.isBottommost = true ∧ e.seq < params.oldestSnapshotSeq ∧
      e.valueType = .deletion
  · rw [if_pos hdel]
    refine ⟨inv.concat_point hrd rfl rfl le_rfl hnone ⟨le_rfl, fun _ _ h => h⟩
      (inv.tracker.mono hk), ?_⟩
    simp [hdel]
  · rw [if_neg hdel]
    obtain ⟨hkeep, htracker⟩ := @KeepState.dropShadowed_iff params T
      { ks with
        lastPointKey := some e.userKey
        lastWrittenSeq := e.seq
        snapshotIdx := snapshots.length } e _ inv.tracker hk
    refine ⟨inv.concat_point hrd (by simp) (by simp) (by simp) (by simpa using hnone)
      (by simp) htracker, ?_⟩
    rw [hkeep]
    exact ⟨fun h => ⟨hdel, h⟩, fun h => h.2⟩

end Step

/-! ## The loop decides as the specification does -/

section Stream

variable {ctx : CompactionContext} {params : SubCompactionParams} {T : List RangeDel.RangeTombstone}
  {es pre rest : List Entry} {e : Entry} {ks₀ : KeepState}

/-- One step of the choice over a stream in internal-key order keeps `KeepState.Tracks` and decides as the
specification does. -/
theorem KeepState.Tracks.step (hs : SortedStream ctx params es) (hsnap : ctx.activeSnapshots.Pairwise (· ≤ ·))
    (hes : es = pre ++ e :: rest) {ks : KeepState} (inv : KeepState.Tracks ctx.activeSnapshots T pre ks) :
    KeepState.Tracks ctx.activeSnapshots T (pre ++ [e]) (keepStep ctx params ks e).1 ∧
      ((ks.keep ctx.activeSnapshots params e.key e.userKey e.seq e.valueType).2 = true ↔
        KeepSpec ctx.activeSnapshots params T pre e) := by
  have he : e.Decodes := hs.decodes e (by simp [hes])
  have hsplit := List.pairwise_append.mp (hes ▸ hs.sorted)
  -- every entry taken is at or before `e` in the stream
  have hle : ∀ p ∈ pre, p.userKey ≤ e.userKey ∧ (p.userKey = e.userKey → e.seq ≤ p.seq) := by
    intro p hp
    have hpd : p.Decodes := hs.decodes p (by simp [hes, hp])
    have hpe := hsplit.2.2 p hp e List.mem_cons_self
    exact ⟨Entry.userKey_le_of_le hpd he hpe, Entry.seq_le_of_le hpd he hpe⟩
  have hk : frontier pre ≤ e.userKey := by
    unfold frontier
    cases hlast : pre.getLast? with
    | none => exact List.nil_le _
    | some q => exact (hle q (List.mem_of_getLast? hlast)).1
  rw [keepStep_fst]
  by_cases hrd : e.valueType = .rangeDeletion
  · exact inv.step_rangeDeletion hk hrd
  by_cases hlast : ks.lastPointKey = some e.userKey
  · refine inv.step_older hsnap hk hrd hlast fun p hp => (hle p (mem_of_lastPoint hp).1).2 ?_
    have hmap : (lastPoint pre).map (·.userKey) = some e.userKey := inv.lastPointKey ▸ hlast
    rw [Option.mem_def.mp hp] at hmap
    exact Option.some.inj hmap
  · exact inv.step_newest hk hrd hlast

/-- Over a stream in internal-key order, the locals track every prefix the loop has taken: the run
lemma of `KeepState.Tracks.step`. -/
theorem tracks_survivors (hs : SortedStream ctx params es)
    (hsnap : ctx.activeSnapshots.Pairwise (· ≤ ·)) (h₀ : KeepState.Tracks ctx.activeSnapshots T [] ks₀)
    (hes : es = pre ++ rest) :
    KeepState.Tracks ctx.activeSnapshots T pre (survivors ctx params ks₀ pre).1 :=
  List.scanFilter_induction (keepStep ctx params)
    (fun pre' ks _ => KeepState.Tracks ctx.activeSnapshots T pre' ks) h₀
    (fun pre' a rest' _ _ hpre inv =>
      (inv.step hs hsnap (show es = pre' ++ a :: (rest' ++ rest) by simp [hes, hpre])).1)

/-- With no compaction filter, the loop writes, at every position of the stream, exactly what the
specification keeps. -/
theorem keepStep_survivors (hs : SortedStream ctx params es)
    (hsnap : ctx.activeSnapshots.Pairwise (· ≤ ·)) (hfilter : ctx.compactionFilter = none)
    (h₀ : KeepState.Tracks ctx.activeSnapshots T [] ks₀) (hes : es = pre ++ e :: rest) :
    (keepStep ctx params (survivors ctx params ks₀ pre).1 e).2 =
      if KeepSpec ctx.activeSnapshots params T pre e then some (outputEntry params e) else none := by
  have inv := tracks_survivors hs hsnap h₀ (show es = pre ++ e :: rest from hes)
  have hkeep := (inv.step hs hsnap hes).2
  unfold keepStep
  dsimp only
  simp only [applyCompactionFilter, hfilter, Option.map_some]
  by_cases hspec : KeepSpec ctx.activeSnapshots params T pre e
  · rw [if_pos (hkeep.mpr hspec), if_pos hspec]
    rfl
  · rw [if_neg (mt hkeep.mp hspec), if_neg hspec]

end Stream

/-! ## Reads are preserved -/

/-- The sequences a compaction must answer reads at: an active snapshot, or one at or above every
entry of the stream, as the latest sequence is. -/
def ReadLevel (snapshots : List SequenceNumber) (es : List Entry) (r : SequenceNumber) : Prop :=
  r ∈ snapshots ∨ ∀ e ∈ es, e.seq ≤ r

/-- The setting of the read theorem: a stream in internal-key order whose entries decode, the
oldest snapshot at or below sorted snapshots, no compaction filter, the tracker's tombstones
exactly the stream's range deletions, and one end key for each range deletion key. -/
structure ReadSetting (ctx : CompactionContext) (params : SubCompactionParams)
    (T : List RangeDel.RangeTombstone) (es : List Entry) : Prop where
  stream : SortedStream ctx params es
  snapshots_sorted : ctx.activeSnapshots.Pairwise (· ≤ ·)
  no_filter : ctx.compactionFilter = none
  tombstones : ∀ rt, rt ∈ T ↔
    ∃ t ∈ es, t.valueType = .rangeDeletion ∧ rt = ⟨t.userKey, t.value, t.seq⟩
  ends : ∀ t ∈ es, ∀ t' ∈ es, t.valueType = .rangeDeletion → t.key = t'.key → t.value = t'.value

section Read

variable {ctx : CompactionContext} {params : SubCompactionParams} {T : List RangeDel.RangeTombstone}
  {es : List Entry} {ks₀ : KeepState} {k : Bytes} {r : SequenceNumber} {w : Entry}

/-- An entry of the stream at or below the oldest snapshot is at or below every read level. -/
theorem ReadLevel.le_of_le_oldest (hr : ReadLevel ctx.activeSnapshots es r)
    (hs : SortedStream ctx params es) (hw : w ∈ es) (h : w.seq ≤ params.oldestSnapshotSeq) :
    w.seq ≤ r := by
  rcases hr with hr | hr
  · exact le_trans h (hs.oldest_le r hr)
  · exact hr w hw

/-- What the entry written for a decoded entry keeps of it. -/
theorem outputEntry_fields (params : SubCompactionParams) (hw : w.Decodes) :
    (outputEntry params w).userKey = w.userKey ∧ (outputEntry params w).valueType = w.valueType ∧
      (outputEntry params w).seq = (if Zeroed params w then 0 else w.seq) ∧
      (outputEntry params w).value = w.value :=
  let ⟨_, hu, hvt, hseq⟩ := Entry.decodes_of_outputKey (o := outputEntry params w) hw rfl
  ⟨hu, hvt, hseq, rfl⟩

/-- A read at a read level sees the entry written for an entry of the stream exactly when it sees
the entry: a zeroed sequence was below the oldest snapshot already. -/
theorem seenBy_outputEntry (hs : SortedStream ctx params es) (hr : ReadLevel ctx.activeSnapshots es r)
    (hw : w ∈ es) : (outputEntry params w).seenBy k r = w.seenBy k r := by
  obtain ⟨hu, hvt, hseq, -⟩ := outputEntry_fields params (hs.decodes w hw)
  have hle : (outputEntry params w).seq ≤ r ↔ w.seq ≤ r := by
    rw [hseq]
    split_ifs with hz
    · exact ⟨fun _ => hr.le_of_le_oldest hs hw (le_of_lt hz.2.2.1), fun _ => Nat.zero_le r⟩
    · exact Iff.rfl
  unfold Entry.seenBy
  rw [hu, hvt, decide_eq_decide.mpr hle]

/-- A shadowed value is one a range deletion of the stream visible at the oldest snapshot
deletes. -/
theorem ReadSetting.shadowed_iff (S : ReadSetting ctx params T es) {e : Entry} :
    Shadowed params T e ↔ e.valueType = .value ∧ ∃ t ∈ es, t.valueType = .rangeDeletion ∧
      t.userKey ≤ e.userKey ∧ e.userKey < t.value ∧ e.seq < t.seq ∧
      t.seq ≤ params.oldestSnapshotSeq := by
  unfold Shadowed
  constructor
  · rintro ⟨hval, rt, hrt, hb, he, hs, ho⟩
    obtain ⟨t, ht, hrd, rfl⟩ := (S.tombstones rt).mp hrt
    exact ⟨hval, t, ht, hrd, hb, he, hs, ho⟩
  · rintro ⟨hval, t, ht, hrd, hb, he, hs, ho⟩
    exact ⟨hval, _, (S.tombstones _).mpr ⟨t, ht, hrd, rfl⟩, hb, he, hs, ho⟩

/-- A point entry the specification keeps is not shadowed. -/
theorem KeepSpec.not_shadowed {snapshots : List SequenceNumber} {pre : List Entry} {e : Entry}
    (h : KeepSpec snapshots params T pre e) (hrd : e.valueType ≠ .rangeDeletion) :
    ¬ Shadowed params T e := by
  unfold KeepSpec at h
  rw [if_neg hrd] at h
  split_ifs at h
  · exact h.2
  · exact h.2

/-- The parts of an internal key are those of an entry with the same key. -/
theorem Entry.parts_eq_of_key_eq {a b : Entry} (h : a.key = b.key) :
    a.userKey = b.userKey ∧ a.seq = b.seq ∧ a.valueType = b.valueType := by
  unfold Entry.userKey Entry.seq Entry.valueType Entry.valueType?
  rw [h]
  exact ⟨rfl, rfl, rfl⟩

/-- Between two point entries of one user key in the stream, the last point entry has that key
and is no newer than the first. -/
theorem lastPoint_between (hs : SortedStream ctx params es) {A B₁ R : List Entry} {v : Entry}
    (hes : es = (A ++ v :: B₁) ++ w :: R) (hvrd : v.valueType ≠ .rangeDeletion)
    (hvw : v.userKey = w.userKey) :
    ∃ p ∈ lastPoint (A ++ v :: B₁), p.userKey = w.userKey ∧ p.seq ≤ v.seq := by
  obtain ⟨p, hp, hpmem⟩ :=
    @lastPoint_append_of_mem A (v :: B₁) v List.mem_cons_self hvrd
  have hsplit := List.pairwise_append.mp (hes ▸ hs.sorted)
  have hpes : p ∈ es := by
    rw [hes]
    exact List.mem_append_left _ (List.mem_append_right _ hpmem)
  have hv : v.Decodes := hs.decodes v (by simp [hes])
  have hpd : p.Decodes := hs.decodes p hpes
  have hwd : w.Decodes := hs.decodes w (by simp [hes])
  -- `p` lies between `v` and `w`
  have hvp : Entry.le v p := by
    rcases List.mem_cons.mp hpmem with hpv | hpB
    · rw [hpv]
      exact Entry.le_refl v
    · have hcons := (List.pairwise_append.mp hsplit.1).2.1
      exact (List.pairwise_cons.mp hcons).1 p hpB
  have hpw : Entry.le p w := hsplit.2.2 p (by simp [hpmem]) w List.mem_cons_self
  have hvpu := Entry.userKey_le_of_le hv hpd hvp
  have hpwu := Entry.userKey_le_of_le hpd hwd hpw
  have hpu : p.userKey = w.userKey := le_antisymm hpwu (hvw ▸ hvpu)
  exact ⟨p, hp, hpu, Entry.seq_le_of_le hv hpd hvp (hvw.trans hpu.symm)⟩

/-- Why a version a read sees is dropped: it is shadowed at the oldest snapshot, or it is a
deletion below it at the bottommost level. The snapshot test keeps it, since the read level is a
snapshot between it and the version before, or there is no version before. -/
theorem dropped_reason (hr : ReadLevel ctx.activeSnapshots es r)
    {A B : List Entry} {v : Entry} (hes : es = A ++ v :: B) (hA : ∀ a ∈ A, a.seenBy k r = false)
    (hv : v.seenBy k r = true) (hnot : ¬ KeepSpec ctx.activeSnapshots params T A v) :
    Shadowed params T v ∨ (params.isBottommost = true ∧ v.seq < params.oldestSnapshotSeq ∧
      v.valueType = .deletion) := by
  obtain ⟨hvk, hvr, hvrd⟩ := seenBy_eq_true_iff.mp hv
  unfold KeepSpec at hnot
  rw [if_neg hvrd] at hnot
  split_ifs at hnot with hlast
  · obtain ⟨p, hp, hpu⟩ := Option.map_eq_some_iff.mp hlast
    obtain ⟨hpA, hprd⟩ := mem_of_lastPoint hp
    -- the version before is above the read level, as the read does not see it
    have hrp : r < p.seq := by
      by_contra hle
      have hseen : p.seenBy k r = true :=
        seenBy_eq_true_iff.mpr ⟨hpu.trans hvk, Nat.le_of_not_lt hle, hprd⟩
      rw [hA p hpA] at hseen
      cases hseen
    rcases hr with hr | hr
    · left
      by_contra hsh
      exact hnot ⟨⟨p, hp, r, hr, hvr, hrp⟩, hsh⟩
    · exact absurd (hr p (by simp [hes, hpA])) (Nat.not_le_of_lt hrp)
  · by_contra hno
    obtain ⟨hsh, hdel⟩ := not_or.mp hno
    exact hnot ⟨hdel, hsh⟩

variable (S : ReadSetting ctx params T es)
include S

/-- A version the loop drops is read as nothing from the stream: a deletion, or a value a range
deletion visible at the read level deletes. -/
theorem readAt_of_not_keep (hr : ReadLevel ctx.activeSnapshots es r) {A B : List Entry} {v : Entry}
    (hes : es = A ++ v :: B) (hA : ∀ a ∈ A, a.seenBy k r = false) (hv : v.seenBy k r = true)
    (hnot : ¬ KeepSpec ctx.activeSnapshots params T A v)
    (hvis : visibleVersion es k r = some v) : readAt es k r = none := by
  obtain ⟨hvk, -, -⟩ := seenBy_eq_true_iff.mp hv
  unfold readAt
  rw [hvis, Option.bind_some]
  rcases dropped_reason hr hes hA hv hnot with hsh | ⟨-, -, hdel⟩
  · obtain ⟨-, t, ht, htrd, hb, he, hvt, hto⟩ := S.shadowed_iff.mp hsh
    have hcov : covered es k v.seq r = true := covered_eq_true_iff.mpr
      ⟨t, ht, htrd, hvk ▸ hb, hvk ▸ he, hvt, hr.le_of_le_oldest S.stream ht hto⟩
    simp [hcov]
  · simp [hdel]

variable (h₀ : KeepState.Tracks ctx.activeSnapshots T [] ks₀)
include h₀

/-- The survivors of a stream split around an entry: those of the entries before it, what the
specification keeps of it, and those of the entries after it. -/
theorem survivors_split {A B : List Entry} {v : Entry} (hes : es = A ++ v :: B) :
    (survivors ctx params ks₀ es).2 = (survivors ctx params ks₀ A).2 ++
      ((if KeepSpec ctx.activeSnapshots params T A v then some (outputEntry params v)
        else none).toList ++
        (survivors ctx params (keepStep ctx params (survivors ctx params ks₀ A).1 v).1 B).2) := by
  rw [hes, survivors, List.scanFilter_append, List.scanFilter_cons,
    ← keepStep_survivors S.stream S.snapshots_sorted S.no_filter h₀ hes]
  rfl

/-- What the loop writes for the entries of a prefix of the stream comes from one of them, kept
by the specification. -/
theorem mem_survivors_spec {A B : List Entry} (hes : es = A ++ B) {o : Entry}
    (ho : o ∈ (survivors ctx params ks₀ A).2) :
    ∃ P w R, A = P ++ w :: R ∧ KeepSpec ctx.activeSnapshots params T P w ∧
      o = outputEntry params w := by
  obtain ⟨P, w, R, hA, hkeep⟩ := mem_survivors ho
  rw [keepStep_survivors S.stream S.snapshots_sorted S.no_filter h₀
    (show es = P ++ w :: (R ++ B) by simp [hes, hA])] at hkeep
  split_ifs at hkeep with hspec
  exact ⟨P, w, R, hA, hspec, (Option.some.inj hkeep).symm⟩

/-- An entry the specification keeps is written. -/
theorem outputEntry_mem_survivors {P R : List Entry} (hes : es = P ++ w :: R)
    (hkeep : KeepSpec ctx.activeSnapshots params T P w) :
    outputEntry params w ∈ (survivors ctx params ks₀ es).2 := by
  rw [survivors_split S h₀ hes, if_pos hkeep]
  simp

/-- A range deletion of the stream not dropped at the bottommost level survives: the first copy of
its key is kept. -/
theorem exists_rangeDeletion_survivors {t : Entry} (ht : t ∈ es)
    (hrd : t.valueType = .rangeDeletion)
    (hnb : ¬ (params.isBottommost = true ∧ t.seq < params.oldestSnapshotSeq)) :
    ∃ t' ∈ (survivors ctx params ks₀ es).2, t'.key = t.key ∧ t'.value = t.value := by
  let first := fun x : Entry => x.valueType == .rangeDeletion && x.key == t.key
  obtain ⟨q, hq⟩ := Option.isSome_iff_exists.mp
    (List.find?_isSome.mpr ⟨t, ht, by simp [first, hrd]⟩ : (es.find? first).isSome)
  obtain ⟨hqfirst, A, B, hes, hA⟩ := List.find?_eq_some_iff_append.mp hq
  have hqrd : q.valueType = .rangeDeletion := by simp [first] at hqfirst; exact hqfirst.1
  have hqkey : q.key = t.key := by simp [first] at hqfirst; exact hqfirst.2
  have hqseq : q.seq = t.seq := by unfold Entry.seq; rw [hqkey]
  -- no range deletion of the key comes before the first copy
  have hkeep : KeepSpec ctx.activeSnapshots params T A q := by
    unfold KeepSpec
    rw [if_pos hqrd]
    refine ⟨fun hlast => ?_, hqseq ▸ hnb⟩
    obtain ⟨x, hx, hxkey⟩ := Option.map_eq_some_iff.mp hlast
    obtain ⟨hxA, hxrd⟩ := mem_of_lastRangeDel hx
    have := hA x hxA
    simp [first, hxrd, hxkey, hqkey] at this
  have hnz : ¬ Zeroed params q := fun hz => by
    have hval := hz.2.2.2
    rw [hqrd] at hval
    cases hval
  refine ⟨outputEntry params q, outputEntry_mem_survivors S h₀ hes hkeep, ?_, ?_⟩
  · show outputKey params q.key q.userKey q.seq q.valueType = t.key
    rw [outputKey_of_not_zeroed hnz, hqkey]
  · exact S.ends q (by simp [hes]) t ht hqrd hqkey

/-- A range deletion the loop writes is one of the stream not dropped at the bottommost level. -/
theorem rangeDeletion_of_mem_survivors {t' : Entry} (ht' : t' ∈ (survivors ctx params ks₀ es).2)
    (hrd : t'.valueType = .rangeDeletion) :
    ∃ t ∈ es, t.key = t'.key ∧ t.value = t'.value ∧ t.valueType = .rangeDeletion ∧
      ¬ (params.isBottommost = true ∧ t.seq < params.oldestSnapshotSeq) := by
  obtain ⟨P, t, R, hes, hkeep, rfl⟩ := mem_survivors_spec S h₀ (B := []) (by simp) ht'
  have ht : t ∈ es := by simp [hes]
  obtain ⟨-, hvt, -, -⟩ := outputEntry_fields params (S.stream.decodes t ht)
  have htrd : t.valueType = .rangeDeletion := hvt ▸ hrd
  have hnz : ¬ Zeroed params t := fun hz => by
    have hval := hz.2.2.2
    rw [htrd] at hval
    cases hval
  unfold KeepSpec at hkeep
  rw [if_pos htrd] at hkeep
  refine ⟨t, ht, ?_, rfl, htrd, hkeep.2⟩
  show t.key = outputKey params t.key t.userKey t.seq t.valueType
  rw [outputKey_of_not_zeroed hnz]

/-- A range deletion of the stream not dropped at the bottommost level covers among the survivors
what it covers in the stream. -/
theorem covered_survivors {t : Entry} (ht : t ∈ es) (hrd : t.valueType = .rangeDeletion)
    (hnb : ¬ (params.isBottommost = true ∧ t.seq < params.oldestSnapshotSeq))
    (hbegin : t.userKey ≤ k) (hend : k < t.value) {s : SequenceNumber} (hs : s < t.seq)
    (hr : t.seq ≤ r) : covered (survivors ctx params ks₀ es).2 k s r = true := by
  obtain ⟨t', ht', hkey, hval⟩ := exists_rangeDeletion_survivors S h₀ ht hrd hnb
  obtain ⟨hu, hseq, hvt⟩ := Entry.parts_eq_of_key_eq hkey
  rw [covered_eq_true_iff]
  refine ⟨t', ht', hvt.trans hrd, ?_, ?_, ?_, ?_⟩
  · rw [hu]
    exact hbegin
  · rw [hval]
    exact hend
  · rw [hseq]
    exact hs
  · rw [hseq]
    exact hr

/-- What a range deletion among the survivors covers, one of the stream not dropped at the
bottommost level covers. -/
theorem of_covered_survivors {s : SequenceNumber}
    (h : covered (survivors ctx params ks₀ es).2 k s r = true) :
    ∃ t ∈ es, t.valueType = .rangeDeletion ∧ t.userKey ≤ k ∧ k < t.value ∧ s < t.seq ∧
      t.seq ≤ r ∧ ¬ (params.isBottommost = true ∧ t.seq < params.oldestSnapshotSeq) := by
  obtain ⟨t', ht', hrd', hb, he, hs, hr⟩ := covered_eq_true_iff.mp h
  obtain ⟨t, ht, hkey, hval, hrd, hnb⟩ := rangeDeletion_of_mem_survivors S h₀ ht' hrd'
  obtain ⟨hu, hseq, -⟩ := Entry.parts_eq_of_key_eq hkey
  refine ⟨t, ht, hrd, hu ▸ hb, hval ▸ he, hseq ▸ hs, hseq ▸ hr, hnb⟩

/-- With nothing in the stream seen by the read, nothing written is seen either. -/
theorem visibleVersion_survivors_of_none (hr : ReadLevel ctx.activeSnapshots es r)
    (h : visibleVersion es k r = none) :
    visibleVersion (survivors ctx params ks₀ es).2 k r = none := by
  unfold visibleVersion at h ⊢
  rw [List.find?_eq_none] at h ⊢
  intro o ho hseen
  obtain ⟨P, w, R, hes, -, rfl⟩ := mem_survivors_spec S h₀ (B := []) (by simp) ho
  have hw : w ∈ es := by simp [hes]
  rw [seenBy_outputEntry S.stream hr hw] at hseen
  exact h w hw hseen

/-- A version the read sees and the loop keeps is what the read sees among the survivors: nothing
written before it is seen. -/
theorem visibleVersion_survivors_of_keep (hr : ReadLevel ctx.activeSnapshots es r)
    {A B : List Entry} {v : Entry} (hes : es = A ++ v :: B) (hA : ∀ a ∈ A, a.seenBy k r = false)
    (hv : v.seenBy k r = true) (hkeep : KeepSpec ctx.activeSnapshots params T A v) :
    visibleVersion (survivors ctx params ks₀ es).2 k r = some (outputEntry params v) := by
  have hnone : (survivors ctx params ks₀ A).2.find? (Entry.seenBy k r) = none := by
    rw [List.find?_eq_none]
    intro o ho hseen
    obtain ⟨P, w, R, hA', -, rfl⟩ := mem_survivors_spec S h₀ hes ho
    have hwA : w ∈ A := by simp [hA']
    rw [seenBy_outputEntry S.stream hr (by simp [hes, hwA]), hA w hwA] at hseen
    cases hseen
  unfold visibleVersion
  rw [survivors_split S h₀ hes, if_pos hkeep, List.find?_append, hnone, Option.none_or]
  simp [seenBy_outputEntry S.stream hr (show v ∈ es by simp [hes]), hv]

/-- Of a value the loop keeps, the written entry is covered among the survivors exactly when the
value is covered in the stream: a range deletion at or below the oldest snapshot would have
shadowed it, and one above is not dropped. -/
theorem covered_survivors_iff_of_keep {A B : List Entry} {v : Entry} (hes : es = A ++ v :: B) (hv : v.seenBy k r = true)
    (hkeep : KeepSpec ctx.activeSnapshots params T A v) (hval : v.valueType = .value) :
    covered (survivors ctx params ks₀ es).2 k (outputEntry params v).seq r = covered es k v.seq r := by
  have hvmem : v ∈ es := by simp [hes]
  obtain ⟨hvk, -, hvrd⟩ := seenBy_eq_true_iff.mp hv
  obtain ⟨-, -, hoseq, -⟩ := outputEntry_fields params (S.stream.decodes v hvmem)
  rw [Bool.eq_iff_iff]
  constructor
  · intro h
    obtain ⟨t, ht, htrd, hb, he, hs, htr, hnb⟩ := of_covered_survivors S h₀ h
    refine covered_eq_true_iff.mpr ⟨t, ht, htrd, hb, he, ?_, htr⟩
    rw [hoseq] at hs
    split_ifs at hs with hz
    · -- a zeroed value is below the oldest snapshot, and the range deletion is not
      by_contra hle
      exact hnb ⟨hz.1, lt_of_le_of_lt (Nat.le_of_not_lt hle) hz.2.2.1⟩
    · exact hs
  · intro h
    obtain ⟨t, ht, htrd, hb, he, hs, htr⟩ := covered_eq_true_iff.mp h
    have hto : params.oldestSnapshotSeq < t.seq := by
      by_contra hle
      exact KeepSpec.not_shadowed hkeep hvrd (S.shadowed_iff.mpr
        ⟨hval, t, ht, htrd, hvk ▸ hb, hvk ▸ he, hs, Nat.le_of_not_lt hle⟩)
    have hos : (outputEntry params v).seq ≤ v.seq := by
      rw [hoseq]
      split_ifs
      · exact Nat.zero_le _
      · exact le_rfl
    exact covered_survivors S h₀ ht htrd (fun h => absurd h.2 (Nat.not_lt_of_lt hto)) hb he
      (lt_of_le_of_lt hos hs) htr

/-- A version the read sees and the loop keeps is read the same from the survivors. -/
theorem readAt_survivors_of_keep (hr : ReadLevel ctx.activeSnapshots es r) {A B : List Entry}
    {v : Entry} (hes : es = A ++ v :: B) (hA : ∀ a ∈ A, a.seenBy k r = false)
    (hv : v.seenBy k r = true) (hkeep : KeepSpec ctx.activeSnapshots params T A v)
    (hvis : visibleVersion es k r = some v) :
    readAt (survivors ctx params ks₀ es).2 k r = readAt es k r := by
  obtain ⟨-, hovt, -, hoval⟩ :=
    outputEntry_fields params (S.stream.decodes v (by simp [hes]))
  unfold readAt
  rw [visibleVersion_survivors_of_keep S h₀ hr hes hA hv hkeep, hvis, Option.bind_some,
    Option.bind_some, hovt, hoval]
  by_cases hval : v.valueType = .value
  · rw [covered_survivors_iff_of_keep S h₀ hes hv hkeep hval]
  · simp [hval]

/-- A version the read sees and the loop drops is read as nothing from the survivors: a version
kept after it is a deletion, or a value that a surviving range deletion covers. -/
theorem readAt_survivors_of_not_keep (hr : ReadLevel ctx.activeSnapshots es r) {A B : List Entry}
    {v : Entry} (hes : es = A ++ v :: B) (hA : ∀ a ∈ A, a.seenBy k r = false)
    (hv : v.seenBy k r = true) (hnot : ¬ KeepSpec ctx.activeSnapshots params T A v) :
    readAt (survivors ctx params ks₀ es).2 k r = none := by
  obtain ⟨hvk, -, hvrd⟩ := seenBy_eq_true_iff.mp hv
  have hreason := dropped_reason hr hes hA hv hnot
  unfold readAt
  cases hvis : visibleVersion (survivors ctx params ks₀ es).2 k r with
  | none => rfl
  | some o =>
    obtain ⟨hseen, S₁, S₂, hS, -⟩ := List.find?_eq_some_iff_append.mp hvis
    obtain ⟨P, w, R, hesw, hkeepw, rfl⟩ :=
      mem_survivors_spec S h₀ (B := []) (by simp)
        (show o ∈ (survivors ctx params ks₀ es).2 by rw [hS]; simp)
    have hwmem : w ∈ es := by simp [hesw]
    rw [seenBy_outputEntry S.stream hr hwmem] at hseen
    obtain ⟨hwk, hwr, hwrd⟩ := seenBy_eq_true_iff.mp hseen
    -- the version written comes after `v`
    rcases List.eq_or_exists_of_append_cons hA hseen (hes.symm.trans hesw) with
      ⟨rfl, rfl, -⟩ | ⟨B₁, rfl⟩
    · exact absurd hkeepw hnot
    obtain ⟨p, hp, hpu, hpv⟩ := lastPoint_between S.stream hesw hvrd (hvk.trans hwk.symm)
    -- it is kept for a snapshot below the last point entry, which is no newer than `v`
    obtain ⟨s, hs, hws, hsp⟩ : ∃ s ∈ ctx.activeSnapshots, w.seq ≤ s ∧ s < p.seq := by
      unfold KeepSpec at hkeepw
      rw [if_neg hwrd, if_pos (by rw [Option.mem_def.mp hp, Option.map_some, hpu])] at hkeepw
      obtain ⟨⟨p', hp', hsnap⟩, -⟩ := hkeepw
      rwa [Option.mem_unique hp' hp] at hsnap
    have hso := S.stream.oldest_le s hs
    rcases hreason with hsh | ⟨-, hvo, -⟩
    · obtain ⟨-, t, ht, htrd, hb, he, hvt, hto⟩ := S.shadowed_iff.mp hsh
      -- the range deletion is newer than that snapshot, so it survives and covers the version
      have hnb : ¬ (params.isBottommost = true ∧ t.seq < params.oldestSnapshotSeq) := by
        rintro ⟨-, htlt⟩
        unfold SequenceNumber at *
        omega
      obtain ⟨-, -, hoseq, -⟩ := outputEntry_fields params (S.stream.decodes w hwmem)
      have hos : (outputEntry params w).seq < t.seq := by
        rw [hoseq]
        unfold SequenceNumber at *
        split_ifs <;> omega
      have hcov := covered_survivors S h₀ ht htrd hnb (hvk ▸ hb) (hvk ▸ he) hos
        (hr.le_of_le_oldest S.stream ht hto)
      simp [hcov]
    · -- a deletion below the oldest snapshot leaves no snapshot for an older version
      unfold SequenceNumber at *
      omega

end Read


/-- The locals before the loop track the empty prefix: no key taken, the index past every
snapshot, and the tracker given `T` and reset. -/
theorem tracks_init (snapshots : List SequenceNumber) (T : List RangeDel.RangeTombstone) :
    KeepState.Tracks snapshots T []
      ⟨none, none, 0, snapshots.length, (RangeTombstoneTracker.new.addAll T).reset⟩ where
  lastPointKey := rfl
  lastRangeDelKey := rfl
  snapshotIdx_le := le_rfl
  above _ hj hle := absurd hj (Nat.not_lt_of_le hle)
  written := by simp
  tracker := RangeTombstoneTracker.answers_reset T _

section Preserved

variable {ctx : CompactionContext} {params : SubCompactionParams} {T : List RangeDel.RangeTombstone}
  {es : List Entry} {r : SequenceNumber}

/-- **The entries a sub-compaction keeps answer every read as its input does.** From the locals
the loop starts with, over a stream in internal-key order with sorted snapshots, the oldest at or
below all of them, no compaction filter, the tracker given exactly the stream's range deletions
and one end key for each range deletion key: a read of any user key at an active snapshot, or at a
sequence at or above the whole stream, returns from the survivors what it returns from the
stream. The read sees a version, which the loop either keeps, with what covers it, or drops as
shadowed or as a deletion below the oldest snapshot, when every version kept after it is read as
nothing too. -/
theorem readAt_survivors (S : ReadSetting ctx params T es) (hr : ReadLevel ctx.activeSnapshots es r)
    (k : Bytes) :
    readAt (survivors ctx params
        ⟨none, none, 0, ctx.activeSnapshots.length, (RangeTombstoneTracker.new.addAll T).reset⟩ es).2
        k r = readAt es k r := by
  have h₀ := tracks_init ctx.activeSnapshots T
  cases hvis : visibleVersion es k r with
  | none =>
    unfold readAt
    rw [hvis, visibleVersion_survivors_of_none S h₀ hr hvis, Option.bind_none, Option.bind_none]
  | some v =>
    obtain ⟨hv, A, B, hes, hA⟩ := List.find?_eq_some_iff_append.mp hvis
    have hA' : ∀ a ∈ A, a.seenBy k r = false := fun a ha => by simpa using hA a ha
    by_cases hkeep : KeepSpec ctx.activeSnapshots params T A v
    · exact readAt_survivors_of_keep S h₀ hr hes hA' hv hkeep hvis
    · rw [readAt_survivors_of_not_keep S h₀ hr hes hA' hv hkeep,
        readAt_of_not_keep S hr hes hA' hv hkeep hvis]

/-- A stream to apply the theorem to: a range deletion of `[a, c)` at sequence 3 over a value of
`a` at sequence 2, which the snapshot 4 reads as deleted. -/
def shadowedSample : List Entry :=
  [⟨(InternalKey.new [97] 3 .rangeDeletion).asBytes, [99], none⟩,
    ⟨(InternalKey.new [97] 2 .value).asBytes, [121], none⟩]

theorem readAt_survivors_shadowed_value :
    ReadSetting ⟨[4], none, 64⟩ ⟨1, false, ⟨10, 0, true⟩, 4, 20, [], []⟩ [⟨[97], [99], 3⟩]
        shadowedSample ∧ ReadLevel [4] shadowedSample 4 ∧
      readAt (survivors ⟨[4], none, 64⟩ ⟨1, false, ⟨10, 0, true⟩, 4, 20, [], []⟩
          ⟨none, none, 0, 1, (RangeTombstoneTracker.new.addAll [⟨[97], [99], 3⟩]).reset⟩
          shadowedSample).2 [97] 4 = readAt shadowedSample [97] 4 := by
  have S : ReadSetting ⟨[4], none, 64⟩ ⟨1, false, ⟨10, 0, true⟩, 4, 20, [], []⟩
      [⟨[97], [99], 3⟩] shadowedSample := by
    refine ⟨⟨fun e he => ?_, by decide, by decide⟩, by decide, rfl, fun rt => ?_, by decide⟩
    · simp only [shadowedSample, List.mem_cons, List.not_mem_nil, or_false] at he
      rcases he with rfl | rfl <;> exact ⟨by decide, by decide⟩
    · constructor
      · rintro hrt
        rw [List.mem_singleton.mp hrt]
        exact ⟨_, List.mem_cons_self, by decide, by decide⟩
      · rintro ⟨t, ht, hrd, rfl⟩
        simp only [shadowedSample, List.mem_cons, List.not_mem_nil, or_false] at ht
        rcases ht with rfl | rfl
        · decide
        · exact absurd hrd (by decide)
  exact ⟨S, .inl (by decide), readAt_survivors S (.inl (by decide)) [97]⟩

end Preserved

end Mmdb
