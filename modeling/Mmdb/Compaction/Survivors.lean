import Mmdb.Compaction.SubCompaction

/-!
# What a sub-compaction keeps, in the order it writes it

The choice of `execute_sub_compaction_io` run over a stream in internal-key order
(`survivors`). Each step of it changes only what it reads of the entry: the last point key, the
last range deletion, the last sequence written and the snapshot index (`keep_lastPointKey`,
`keep_lastRangeDelKey`, `keep_lastWrittenSeq`, `keep_snapshotIdx`).

**The keys written increase strictly** (`survivors_increasing`), so the order assertion of
`TableBuilder::add` never fires. Keys of distinct user keys are in order with the stream; within
one user key the newer version sorts first, except where the bottommost level zeroes a sequence,
and the argument is that nothing of that user key is written after a zeroed value: a later
version needs a snapshot below the zeroed sequence, which is below every snapshot, and a later
range deletion is older still and is dropped. A second copy of an entry is dropped: a range
deletion by `last_range_del_key`, a point entry because the snapshot test fails for its own
sequence once the first copy has been seen (`not_passes_keep`). The invariant `Increasing` holds
these facts about the last entry taken and the last entry written.
-/

namespace Mmdb

open RangeDel

/-! ## The snapshot index -/

section Snapshots

variable (snapshots : List SequenceNumber) (lw : SequenceNumber)

theorem popSnapshots_le (idx : Nat) : popSnapshots snapshots lw idx ≤ idx := by
  induction idx with
  | zero => exact Nat.le_refl 0
  | succ idx ih =>
    unfold popSnapshots
    split
    · omega
    · exact Nat.le_refl _

/-- The loop stops at the bottom, or above a snapshot below `last_written_seq`. -/
theorem popSnapshots_stop (idx : Nat) :
    popSnapshots snapshots lw idx = 0 ∨
      snapshots.getD (popSnapshots snapshots lw idx - 1) 0 < lw := by
  induction idx with
  | zero => exact .inl rfl
  | succ idx ih =>
    unfold popSnapshots
    split
    · exact ih
    · rename_i hlt
      right
      rw [Nat.add_sub_cancel]
      exact Nat.lt_of_not_le hlt

/-- Every snapshot the loop moves past is at or above `last_written_seq`. -/
theorem le_getD_of_popSnapshots_le {idx j : Nat} (hj : popSnapshots snapshots lw idx ≤ j)
    (hjidx : j < idx) : lw ≤ snapshots.getD j 0 := by
  induction idx with
  | zero => omega
  | succ idx ih =>
    unfold popSnapshots at hj
    split at hj
    · rcases Nat.lt_or_ge j idx with hlt | hge
      · exact ih hj hlt
      · rwa [show j = idx by omega]
    · omega

/-- Run again from where it stopped, the loop does not move. -/
theorem popSnapshots_popSnapshots (idx : Nat) :
    popSnapshots snapshots lw (popSnapshots snapshots lw idx) = popSnapshots snapshots lw idx := by
  have hstop := popSnapshots_stop snapshots lw idx
  cases hpop : popSnapshots snapshots lw idx with
  | zero => rfl
  | succ k =>
    rw [hpop, Nat.add_sub_cancel] at hstop
    unfold popSnapshots
    rw [if_neg (Nat.not_le_of_lt (hstop.resolve_left (Nat.succ_ne_zero k)))]

end Snapshots

/-! ## One choice -/

namespace KeepState

/-- The test of the branch of an older version: once the `while` loop has moved the index, a
snapshot below it sees `entrySeq`. -/
def Passes (snapshots : List SequenceNumber) (ks : KeepState) (entrySeq : SequenceNumber) : Prop :=
  0 < popSnapshots snapshots ks.lastWrittenSeq ks.snapshotIdx ∧
    entrySeq ≤ snapshots.getD (popSnapshots snapshots ks.lastWrittenSeq ks.snapshotIdx - 1) 0

instance (snapshots : List SequenceNumber) (ks : KeepState) (entrySeq : SequenceNumber) :
    Decidable (ks.Passes snapshots entrySeq) :=
  inferInstanceAs (Decidable (_ ∧ _))

variable {snapshots : List SequenceNumber} {params : SubCompactionParams} {ks : KeepState}
  {ikey u : Bytes} {s x : SequenceNumber} {vt : ValueType}

/-- No snapshot sees a sequence at or above `last_written_seq`. -/
theorem not_passes_of_le (h : ks.lastWrittenSeq ≤ x) : ¬ ks.Passes snapshots x := by
  rintro ⟨hpos, hle⟩
  rcases popSnapshots_stop snapshots ks.lastWrittenSeq ks.snapshotIdx with h0 | hlt <;>
    unfold SequenceNumber at * <;> omega

/-- With `last_written_seq` at or below the oldest snapshot, no snapshot is left below it. -/
theorem not_passes_of_le_oldest {oldest : SequenceNumber} (holdest : ∀ t ∈ snapshots, oldest ≤ t)
    (hidx : ks.snapshotIdx ≤ snapshots.length) (hlw : ks.lastWrittenSeq ≤ oldest) :
    ¬ ks.Passes snapshots x := by
  rintro ⟨hpos, -⟩
  have hle := popSnapshots_le snapshots ks.lastWrittenSeq ks.snapshotIdx
  have hmem : snapshots.getD (popSnapshots snapshots ks.lastWrittenSeq ks.snapshotIdx - 1) 0 ∈
      snapshots := by
    rw [List.getD_eq_getElem _ _ (by omega)]
    exact List.getElem_mem _
  have holder := holdest _ hmem
  rcases popSnapshots_stop snapshots ks.lastWrittenSeq ks.snapshotIdx with h0 | hlt <;>
    unfold SequenceNumber at * <;> omega

@[simp] theorem dropShadowed_lastPointKey :
    (ks.dropShadowed params u s vt).1.lastPointKey = ks.lastPointKey := by
  unfold dropShadowed
  split <;> rfl

@[simp] theorem dropShadowed_lastRangeDelKey :
    (ks.dropShadowed params u s vt).1.lastRangeDelKey = ks.lastRangeDelKey := by
  unfold dropShadowed
  split <;> rfl

@[simp] theorem dropShadowed_lastWrittenSeq :
    (ks.dropShadowed params u s vt).1.lastWrittenSeq = ks.lastWrittenSeq := by
  unfold dropShadowed
  split <;> rfl

@[simp] theorem dropShadowed_snapshotIdx :
    (ks.dropShadowed params u s vt).1.snapshotIdx = ks.snapshotIdx := by
  unfold dropShadowed
  split <;> rfl

theorem keep_lastPointKey :
    (ks.keep snapshots params ikey u s vt).1.lastPointKey =
      if vt = .rangeDeletion then ks.lastPointKey else some u := by
  unfold keep
  dsimp only
  split_ifs <;> simp_all

theorem keep_lastRangeDelKey :
    (ks.keep snapshots params ikey u s vt).1.lastRangeDelKey =
      if vt = .rangeDeletion then some ikey else ks.lastRangeDelKey := by
  unfold keep
  dsimp only
  split_ifs <;> simp_all

theorem keep_snapshotIdx :
    (ks.keep snapshots params ikey u s vt).1.snapshotIdx =
      if vt = .rangeDeletion then ks.snapshotIdx
      else if ks.lastPointKey = some u then popSnapshots snapshots ks.lastWrittenSeq ks.snapshotIdx
      else snapshots.length := by
  unfold keep
  dsimp only
  split_ifs <;> simp_all

/-- `last_written_seq` moves to the entry's sequence, except at a range deletion and at an older
version no snapshot sees. -/
theorem keep_lastWrittenSeq :
    (ks.keep snapshots params ikey u s vt).1.lastWrittenSeq =
      if vt = .rangeDeletion ∨ ks.lastPointKey = some u ∧ ¬ ks.Passes snapshots s then
        ks.lastWrittenSeq
      else s := by
  unfold keep Passes
  dsimp only
  split_ifs <;> simp_all

theorem keep_snapshotIdx_le (h : ks.snapshotIdx ≤ snapshots.length) :
    (ks.keep snapshots params ikey u s vt).1.snapshotIdx ≤ snapshots.length := by
  have := popSnapshots_le snapshots ks.lastWrittenSeq ks.snapshotIdx
  rw [keep_snapshotIdx]
  split_ifs <;> omega

/-- After a point entry the test fails for its own sequence, so a second copy of it is dropped. -/
theorem not_passes_keep (hvt : vt ≠ .rangeDeletion) :
    ¬ (ks.keep snapshots params ikey u s vt).1.Passes snapshots s := by
  by_cases hold : ks.lastPointKey = some u ∧ ¬ ks.Passes snapshots s
  · -- the test failed: the index stops where it is and the test fails again
    obtain ⟨hlast, hfail⟩ := hold
    unfold Passes at hfail ⊢
    rw [keep_lastWrittenSeq, if_pos (.inr ⟨hlast, hfail⟩), keep_snapshotIdx, if_neg hvt,
      if_pos hlast, popSnapshots_popSnapshots]
    exact hfail
  · apply not_passes_of_le
    rw [keep_lastWrittenSeq, if_neg (not_or.mpr ⟨hvt, hold⟩)]

/-- An older version is kept only when a snapshot sees it. -/
theorem passes_of_keep (hvt : vt ≠ .rangeDeletion) (hlast : ks.lastPointKey = some u)
    (h : (ks.keep snapshots params ikey u s vt).2 = true) : ks.Passes snapshots s := by
  unfold keep at h
  rw [if_neg hvt, if_pos hlast] at h
  by_contra hfail
  unfold Passes at hfail
  simp only [if_neg hfail] at h
  cases h

/-- A range deletion is kept when it is not the last one seen again, and not below the oldest
snapshot at the bottommost level. -/
theorem keep_snd_rangeDeletion :
    (ks.keep snapshots params ikey u s .rangeDeletion).2 = true ↔
      ks.lastRangeDelKey ≠ some ikey ∧
        ¬ (params.isBottommost = true ∧ s < params.oldestSnapshotSeq) := by
  unfold keep
  by_cases hlast : ks.lastRangeDelKey = some ikey
  · simp [hlast]
  · cases params.isBottommost <;> simp [hlast]

end KeepState

/-! ## The keys written -/

/-- A value at the bottommost level below the oldest snapshot: it is written with sequence
zero. -/
def Zeroed (params : SubCompactionParams) (e : Entry) : Prop :=
  params.isBottommost = true ∧ 0 < e.seq ∧ e.seq < params.oldestSnapshotSeq ∧ e.valueType = .value

instance (params : SubCompactionParams) (e : Entry) : Decidable (Zeroed params e) :=
  inferInstanceAs (Decidable (_ ∧ _ ∧ _ ∧ _))

section OutputKey

variable {params : SubCompactionParams} {e : Entry}

theorem outputKey_of_zeroed (h : Zeroed params e) :
    outputKey params e.key e.userKey e.seq e.valueType =
      (InternalKey.new e.userKey 0 .value).encoded := by
  have hc : params.isBottommost = true ∧ 0 < e.seq ∧ e.seq < params.oldestSnapshotSeq ∧
      e.valueType = .value := h
  unfold outputKey
  rw [if_pos hc, h.2.2.2]
  rfl

theorem outputKey_of_not_zeroed (h : ¬ Zeroed params e) :
    outputKey params e.key e.userKey e.seq e.valueType = e.key := by
  have hc : ¬ (params.isBottommost = true ∧ 0 < e.seq ∧ e.seq < params.oldestSnapshotSeq ∧
      e.valueType = .value) := h
  unfold outputKey
  rw [if_neg hc]

theorem userKey_outputKey :
    userKey (outputKey params e.key e.userKey e.seq e.valueType) = e.userKey := by
  by_cases hz : Zeroed params e
  · rw [outputKey_of_zeroed hz, userKey_internalKey]
  · rw [outputKey_of_not_zeroed hz]
    rfl

/-- A zeroed key's trailer is `(0 << 8) | Value`. -/
theorem trailerNum_outputKey_of_zeroed (hz : Zeroed params e) :
    trailerNum (outputKey params e.key e.userKey e.seq e.valueType) = 1 := by
  rw [outputKey_of_zeroed hz, trailerNum_internalKey _ (Nat.zero_le _)]
  rfl

variable (he : e.Decodes)
include he

theorem length_outputKey : 8 ≤ (outputKey params e.key e.userKey e.seq e.valueType).length := by
  by_cases hz : Zeroed params e
  · rw [outputKey_of_zeroed hz, length_internalKey]
    omega
  · rw [outputKey_of_not_zeroed hz]
    exact he.1

end OutputKey

/-- Two keys with trailers: the first sorts before the second when its user key is smaller, or
it is the same and its trailer number larger. -/
theorem compareInternalKey_eq_lt_iff {a b : Bytes} (ha : 8 ≤ a.length) (hb : 8 ≤ b.length) :
    compareInternalKey a b = .lt ↔
      userKey a < userKey b ∨ userKey a = userKey b ∧ trailerNum b < trailerNum a := by
  rw [compareInternalKey_of_length ha hb]
  rcases lt_trichotomy (userKey a) (userKey b) with h | h | h
  · simp [compare_lt_iff_lt.mpr h, h]
  · simp [h, compare_lt_iff_lt]
  · simp [compare_gt_iff_gt.mpr h, not_lt.mpr h.le, h.ne']

/-- Two entries in stream order with the same user key and trailer are the same key. -/
theorem Entry.key_eq_of_trailerNum_eq {a b : Entry} (ha : a.Decodes) (hb : b.Decodes)
    (hu : a.userKey = b.userKey) (ht : trailerNum a.key = trailerNum b.key) : a.key = b.key := by
  have hcmp : compareInternalKey a.key b.key = .eq := by
    rw [compareInternalKey_of_length ha.1 hb.1]
    change (compare a.userKey b.userKey).then _ = _
    rw [hu, ht]
    simp
  exact Std.LawfulEqCmp.eq_of_compare hcmp

/-! ## The keys written increase -/

section Increasing

variable {ctx : CompactionContext} {params : SubCompactionParams}

/-- What `keepStep` writes for an entry it keeps. -/
theorem keepStep_eq_some {ks : KeepState} {e o : Entry} (h : (keepStep ctx params ks e).2 = some o) :
    (ks.keep ctx.activeSnapshots params e.key e.userKey e.seq e.valueType).2 = true ∧
      o.key = outputKey params e.key e.userKey e.seq e.valueType := by
  unfold keepStep at h
  dsimp only at h
  split at h
  · obtain ⟨value, -, rfl⟩ := Option.map_eq_some_iff.mp h
    exact ⟨‹_›, rfl⟩
  · cases h

/-- What the choice keeps true along a stream, for the keys it writes to increase. Of the last
entry taken: a point entry is the last point key and fails the snapshot test for its own sequence,
a range deletion is the last one seen. Of the last entry written: it came from an entry taken,
and if that entry was zeroed and the entries taken since share its user key, the user key is the
last point key and `last_written_seq` is at or below the oldest snapshot. -/
structure Increasing (ctx : CompactionContext) (params : SubCompactionParams) (pre : List Entry)
    (ks : KeepState) (out : List Entry) : Prop where
  sorted : out.Pairwise fun a b => compareInternalKey a.key b.key = .lt
  snapshotIdx_le : ks.snapshotIdx ≤ ctx.activeSnapshots.length
  last_point : ∀ q ∈ pre.getLast?, q.valueType ≠ .rangeDeletion →
    ks.lastPointKey = some q.userKey ∧ ¬ ks.Passes ctx.activeSnapshots q.seq
  last_rangeDel : ∀ q ∈ pre.getLast?, q.valueType = .rangeDeletion →
    ks.lastRangeDelKey = some q.key
  last_out : ∀ o ∈ out.getLast?, ∃ p ∈ pre, o.key = outputKey params p.key p.userKey p.seq p.valueType ∧
    (Zeroed params p → (∀ q ∈ pre.getLast?, q.userKey = p.userKey) →
      ks.lastPointKey = some p.userKey ∧ ks.lastWrittenSeq ≤ params.oldestSnapshotSeq)

/-- The setting of the step: a stream in internal-key order whose entries all decode, and the
oldest snapshot at or below every snapshot. -/
structure SortedStream (ctx : CompactionContext) (params : SubCompactionParams)
    (es : List Entry) : Prop where
  decodes : ∀ e ∈ es, e.Decodes
  sorted : es.Pairwise Entry.le
  oldest_le : ∀ t ∈ ctx.activeSnapshots, params.oldestSnapshotSeq ≤ t

theorem Entry.le_refl (a : Entry) : Entry.le a a := by
  have hself : compareInternalKey a.key a.key = .eq := Std.ReflCmp.compare_self
  unfold Entry.le
  rw [hself]
  exact nofun

/-- An entry taken before the last one taken is at or before it. -/
theorem le_of_mem_of_getLast? {pre : List Entry} (hsorted : pre.Pairwise Entry.le) {p q : Entry}
    (hp : p ∈ pre) (hq : q ∈ pre.getLast?) : Entry.le p q := by
  obtain ⟨init, rfl⟩ := List.getLast?_eq_some_iff.mp hq
  rcases List.mem_append.mp hp with hp | hp
  · exact (List.pairwise_append.mp hsorted).2.2 p hp q (List.mem_singleton_self q)
  · rw [List.mem_singleton.mp hp]
    exact Entry.le_refl q

/-- The stream's order read off the user keys and trailers. -/
theorem Entry.userKey_le_and {a b : Entry} (ha : a.Decodes) (hb : b.Decodes) (h : Entry.le a b) :
    a.userKey ≤ b.userKey ∧ (a.userKey = b.userKey → trailerNum b.key ≤ trailerNum a.key) :=
  ⟨Entry.userKey_le_of_le ha hb h, trailerNum_le_of_compare_ne_gt ha.1 hb.1 h⟩

variable {es pre rest : List Entry} {e : Entry} {ks : KeepState} {out : List Entry}

/-- Where an entry taken and the last entry taken stand against the next one. -/
theorem SortedStream.order_of_mem (hs : SortedStream ctx params es) (hes : es = pre ++ e :: rest)
    {p q : Entry} (hp : p ∈ pre) (hq : q ∈ pre.getLast?) :
    p.userKey ≤ q.userKey ∧ q.userKey ≤ e.userKey ∧
      (p.userKey = q.userKey → trailerNum q.key ≤ trailerNum p.key) ∧
      (q.userKey = e.userKey → trailerNum e.key ≤ trailerNum q.key) := by
  have hsplit := List.pairwise_append.mp (hes ▸ hs.sorted)
  have hqmem : q ∈ pre := List.mem_of_getLast? hq
  have hdec : ∀ x ∈ pre, x.Decodes := fun x hx => hs.decodes x (by simp [hes, hx])
  have he : e.Decodes := hs.decodes e (by simp [hes])
  obtain ⟨hpq, hpq_t⟩ := Entry.userKey_le_and (hdec p hp) (hdec q hqmem)
    (le_of_mem_of_getLast? hsplit.1 hp hq)
  obtain ⟨hqe, hqe_t⟩ := Entry.userKey_le_and (hdec q hqmem) he
    (hsplit.2.2 q hqmem e List.mem_cons_self)
  exact ⟨hpq, hqe, hpq_t, hqe_t⟩

/-- An entry taken with the next entry's user key shares it with the last entry taken. -/
theorem SortedStream.userKey_getLast_eq (hs : SortedStream ctx params es)
    (hes : es = pre ++ e :: rest) {p q : Entry} (hp : p ∈ pre) (hq : q ∈ pre.getLast?)
    (hpe : p.userKey = e.userKey) : q.userKey = p.userKey := by
  obtain ⟨hpq, hqe, -, -⟩ := hs.order_of_mem hes hp hq
  exact le_antisymm (hpe ▸ hqe) hpq

/-- The key written for the next entry sorts after the last key written. -/
theorem Increasing.lt_of_keepStep (hs : SortedStream ctx params es) (hes : es = pre ++ e :: rest)
    (inv : Increasing ctx params pre ks out) {o oe : Entry} (ho : o ∈ out.getLast?)
    (hoe : (keepStep ctx params ks e).2 = some oe) : compareInternalKey o.key oe.key = .lt := by
  obtain ⟨hkept, hoe_key⟩ := keepStep_eq_some hoe
  obtain ⟨p, hp, ho_key, hzero⟩ := inv.last_out o ho
  have hpd : p.Decodes := hs.decodes p (by simp [hes, hp])
  have he : e.Decodes := hs.decodes e (by simp [hes])
  obtain ⟨q, hq⟩ := Option.isSome_iff_exists.mp (List.getLast?_isSome.mpr (List.ne_nil_of_mem hp))
  have hqmem : q ∈ pre := List.mem_of_getLast? hq
  obtain ⟨hpq, hqe, hpq_t, hqe_t⟩ := hs.order_of_mem hes hp hq
  rw [ho_key, hoe_key, compareInternalKey_eq_lt_iff (length_outputKey hpd) (length_outputKey he),
    userKey_outputKey, userKey_outputKey]
  rcases lt_or_eq_of_le (le_trans hpq hqe) with hlt | hpe
  · exact .inl hlt
  right
  refine ⟨hpe, ?_⟩
  have hqp := hs.userKey_getLast_eq hes hp hq hpe
  have htp := hpq_t hqp.symm
  have hte := hqe_t (hqp.trans hpe)
  have hpack_e := Entry.trailerNum_eq he
  have hpack_p := Entry.trailerNum_eq hpd
  unfold packSequenceAndType at hpack_e hpack_p
  by_cases hzp : Zeroed params p
  · -- nothing of `p`'s user key is written after a zeroed `p`
    obtain ⟨hlastp, hlw⟩ := hzero hzp fun q' hq' => by
      rw [Option.mem_def.mp hq'] at hq
      cases hq
      exact hqp
    exfalso
    by_cases hrd : e.valueType = .rangeDeletion
    · rw [hrd] at hkept
      have hseq : e.seq < params.oldestSnapshotSeq := by
        rw [hrd] at hpack_e
        rw [hzp.2.2.2] at hpack_p
        have := hzp.2.2.1
        change trailerNum e.key = e.seq * 256 + 2 at hpack_e
        change trailerNum p.key = p.seq * 256 + 1 at hpack_p
        omega
      exact (KeepState.keep_snd_rangeDeletion.mp hkept).2 ⟨hzp.1, hseq⟩
    · have hpasses := KeepState.passes_of_keep hrd (hlastp.trans (congrArg some hpe)) hkept
      exact KeepState.not_passes_of_le_oldest hs.oldest_le inv.snapshotIdx_le hlw hpasses
  · rw [outputKey_of_not_zeroed hzp]
    by_cases hze : Zeroed params e
    · rw [trailerNum_outputKey_of_zeroed hze]
      have hpos := hze.2.1
      rw [hze.2.2.2] at hpack_e
      change trailerNum e.key = e.seq * 256 + 1 at hpack_e
      omega
    · rw [outputKey_of_not_zeroed hze]
      rcases Nat.lt_or_ge (trailerNum e.key) (trailerNum p.key) with hlt | hge
      · exact hlt
      exfalso
      -- the same trailer as the last entry taken: `e` is a second copy of it, which is dropped
      have hkey : e.key = q.key := Entry.key_eq_of_trailerNum_eq he
        (hs.decodes q (by simp [hes, hqmem])) (hqp.trans hpe).symm (by omega)
      have hvt : e.valueType = q.valueType := by
        unfold Entry.valueType Entry.valueType?
        rw [hkey]
      by_cases hrd : e.valueType = .rangeDeletion
      · have hlast := inv.last_rangeDel q hq (hvt ▸ hrd)
        rw [hrd] at hkept
        exact (KeepState.keep_snd_rangeDeletion.mp hkept).1 (hkey ▸ hlast)
      · obtain ⟨hlast, hfail⟩ := inv.last_point q hq (hvt ▸ hrd)
        have hseq : e.seq = q.seq := by
          unfold Entry.seq
          rw [hkey]
        exact hfail (hseq ▸ KeepState.passes_of_keep hrd ((hqp.trans hpe) ▸ hlast) hkept)

theorem keepStep_fst (ks : KeepState) (e : Entry) :
    (keepStep ctx params ks e).1 =
      (ks.keep ctx.activeSnapshots params e.key e.userKey e.seq e.valueType).1 := by
  unfold keepStep
  dsimp only

/-- One step keeps the invariant. -/
theorem Increasing.step (hs : SortedStream ctx params es) (hes : es = pre ++ e :: rest)
    (inv : Increasing ctx params pre ks out) :
    Increasing ctx params (pre ++ [e]) (keepStep ctx params ks e).1
      (out ++ (keepStep ctx params ks e).2.toList) where
  sorted := by
    cases hout : (keepStep ctx params ks e).2 with
    | none => simpa using inv.sorted
    | some oe =>
      rw [Option.toList_some, List.pairwise_append]
      refine ⟨inv.sorted, List.pairwise_singleton _ _, fun a ha b hb => ?_⟩
      rw [List.mem_singleton.mp hb]
      -- below the last key written, which is below the new one
      obtain ⟨o, ho⟩ := Option.isSome_iff_exists.mp (List.getLast?_isSome.mpr (List.ne_nil_of_mem ha))
      have hlt := inv.lt_of_keepStep hs hes ho hout
      obtain ⟨init, hinit⟩ := List.getLast?_eq_some_iff.mp ho
      rw [hinit] at ha
      rcases List.mem_append.mp ha with ha | ha
      · have hao := (List.pairwise_append.mp (hinit ▸ inv.sorted)).2.2 a ha o
          (List.mem_singleton_self o)
        exact Std.TransCmp.lt_trans hao hlt
      · rwa [List.mem_singleton.mp ha]
  snapshotIdx_le := KeepState.keep_snapshotIdx_le inv.snapshotIdx_le
  last_point q hq hvt := by
    rw [List.getLast?_concat, Option.mem_some_iff] at hq
    subst hq
    rw [keepStep_fst, KeepState.keep_lastPointKey, if_neg hvt]
    exact ⟨rfl, KeepState.not_passes_keep hvt⟩
  last_rangeDel q hq hvt := by
    rw [List.getLast?_concat, Option.mem_some_iff] at hq
    subst hq
    rw [keepStep_fst, KeepState.keep_lastRangeDelKey, if_pos hvt]
  last_out o ho := by
    cases hout : (keepStep ctx params ks e).2 with
    | some oe =>
      -- the new last key written comes from `e`
      rw [hout, Option.toList_some, List.getLast?_concat, Option.mem_some_iff] at ho
      subst ho
      obtain ⟨hkept, hkey⟩ := keepStep_eq_some hout
      refine ⟨e, by simp, hkey, fun hz _ => ?_⟩
      have hvt : e.valueType ≠ .rangeDeletion := by rw [hz.2.2.2]; exact nofun
      have hpasses : ks.lastPointKey = some e.userKey → ks.Passes ctx.activeSnapshots e.seq :=
        fun hlast => KeepState.passes_of_keep hvt hlast hkept
      rw [keepStep_fst, KeepState.keep_lastPointKey, if_neg hvt, KeepState.keep_lastWrittenSeq,
        if_neg (by tauto)]
      exact ⟨rfl, le_of_lt hz.2.2.1⟩
    | none =>
      rw [hout, Option.toList_none, List.append_nil] at ho
      obtain ⟨p, hp, hkey, hzero⟩ := inv.last_out o ho
      refine ⟨p, List.mem_append_left _ hp, hkey, fun hz hlast => ?_⟩
      have hpe : p.userKey = e.userKey := by
        have := hlast e (by simp)
        exact this.symm
      -- the last entry taken before `e` shares the user key too
      obtain ⟨hlastp, hlw⟩ := hzero hz fun q hq => hs.userKey_getLast_eq hes hp hq hpe
      rw [keepStep_fst, KeepState.keep_lastPointKey, KeepState.keep_lastWrittenSeq]
      by_cases hrd : e.valueType = .rangeDeletion
      · rw [if_pos hrd, if_pos (.inl hrd)]
        exact ⟨hlastp, hlw⟩
      · have hfail := KeepState.not_passes_of_le_oldest (x := e.seq) hs.oldest_le
          inv.snapshotIdx_le hlw
        rw [if_neg hrd, if_pos (.inr ⟨hpe ▸ hlastp, hfail⟩), hpe]
        exact ⟨rfl, hlw⟩

/-- **The keys written increase strictly**: over a stream in internal-key order whose entries
decode, with the oldest snapshot at or below every snapshot, each key the choice writes sorts
strictly after the one before. -/
theorem survivors_increasing (hs : SortedStream ctx params es) {ks : KeepState}
    (hidx : ks.snapshotIdx ≤ ctx.activeSnapshots.length) :
    (survivors ctx params ks es).2.Pairwise fun a b => compareInternalKey a.key b.key = .lt := by
  have hinit : Increasing ctx params [] ks [] :=
    ⟨.nil, hidx, by simp, by simp, by simp⟩
  exact (List.scanFilter_induction (keepStep ctx params) (Increasing ctx params) hinit
    fun pre e rest _ _ hes inv => inv.step hs hes).sorted

end Increasing

end Mmdb
