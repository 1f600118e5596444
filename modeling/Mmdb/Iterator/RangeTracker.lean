import Mathlib
import Mmdb.Types

/-!
# The sweep of range tombstones during a compaction

`RangeTombstoneTracker` of `src/iterator/range_del.rs`. A compaction adds the range tombstones of
its inputs, calls `reset`, and then asks `is_deleted` for each key it writes, in key order. Up to
four tombstones, `is_deleted` is `linear_check`; above that it sweeps: the tombstones are sorted
by begin key, `next_idx` is the first one not yet activated, and `active` holds the activated
ones whose end is above the last key asked.

**The sweep agrees with the linear check** (`runQueries_reset`): after `reset`, for any queries
whose keys do not decrease, each answer is what `linear_check` answers, whatever the sequences
and snapshots asked. The argument is the invariant `Sweep t k` for the next key `k`: the
activated tombstones are the sorted prefix that begins at or below `k`, and every one of them
that ends above `k` is active. One query keeps it (`Sweep.isDeleted_eq`), since the active
tombstones are then exactly those that cover the key (`Sweep.mem_active_iff`), and a run of
queries keeps it by induction (`Sweep.runQueries_eq`). `reset` starts it (`sweep_reset`).
-/

namespace Mmdb.RangeDel

/-- `RangeTombstone`: keys in `[begin, end)` at sequence `seq` are deleted. -/
structure RangeTombstone where
  begin : Bytes
  «end» : Bytes
  seq : SequenceNumber
  deriving DecidableEq, Repr

/-- `RangeTombstoneTracker`: the tombstones, whether they are sorted by begin key, the next one to
activate and the indices of the active ones. -/
structure RangeTombstoneTracker where
  tombstones : List RangeTombstone
  sorted : Bool
  nextIdx : Nat
  active : List Nat

namespace RangeTombstoneTracker

/-- `RangeTombstoneTracker::new`. -/
def new : RangeTombstoneTracker := ⟨[], false, 0, []⟩

/-- `add`. -/
def add (t : RangeTombstoneTracker) (begin «end» : Bytes) (seq : SequenceNumber) :
    RangeTombstoneTracker :=
  { t with tombstones := t.tombstones ++ [⟨begin, «end», seq⟩], sorted := false }

/-- `reset`: sort by begin key (a stable sort) if not sorted, and restart the sweep. -/
def reset (t : RangeTombstoneTracker) : RangeTombstoneTracker :=
  let t := if !t.sorted then
      { t with
        tombstones := if t.tombstones.length > 1 then
            t.tombstones.mergeSort fun a b => decide (a.begin ≤ b.begin)
          else t.tombstones
        sorted := true }
    else t
  { t with nextIdx := 0, active := [] }

/-- `linear_check`: whether a tombstone visible at `snapshot` and newer than `seq` covers the
key. -/
def linearCheck (t : RangeTombstoneTracker) (userKey : Bytes) (seq snapshot : SequenceNumber) :
    Bool :=
  t.tombstones.any fun rt =>
    decide (rt.seq ≤ snapshot) && decide (userKey ≥ rt.begin) && decide (userKey < rt.«end») &&
      decide (rt.seq > seq)

/-- The activation loop of `is_deleted`: push every tombstone from `nextIdx` on whose begin key is
at or below `userKey`, stopping at the first that is not. -/
def activate (tombstones : List RangeTombstone) (userKey : Bytes) (nextIdx : Nat)
    (active : List Nat) : Nat × List Nat :=
  if h : nextIdx < tombstones.length then
    if tombstones[nextIdx].begin ≤ userKey then
      activate tombstones userKey (nextIdx + 1) (active ++ [nextIdx])
    else (nextIdx, active)
  else (nextIdx, active)
termination_by tombstones.length - nextIdx

/-- `is_deleted`: the answer and the tracker after the query. -/
def isDeleted (t : RangeTombstoneTracker) (userKey : Bytes) (seq snapshot : SequenceNumber) :
    Bool × RangeTombstoneTracker :=
  if t.tombstones.length ≤ 4 then (t.linearCheck userKey seq snapshot, t)
  else
    let t := if !t.sorted then t.reset else t
    let (nextIdx, active) := activate t.tombstones userKey t.nextIdx t.active
    -- prune the tombstones that end at or below the key
    let active := active.filter fun idx => (t.tombstones[idx]?).any fun rt => decide (rt.«end» > userKey)
    let t := { t with nextIdx, active }
    (active.any fun idx => (t.tombstones[idx]?).any fun rt =>
      decide (rt.seq ≤ snapshot) && decide (rt.seq > seq), t)

/-- `is_empty`. -/
def isEmpty (t : RangeTombstoneTracker) : Bool := t.tombstones.isEmpty

/-- The answers to a sequence of queries `(key, seq, snapshot)` asked in turn. -/
def runQueries : RangeTombstoneTracker → List (Bytes × SequenceNumber × SequenceNumber) → List Bool
  | _, [] => []
  | t, (userKey, seq, snapshot) :: queries =>
    (t.isDeleted userKey seq snapshot).1 :: runQueries (t.isDeleted userKey seq snapshot).2 queries

/-! ## The linear check -/

/-- What `linear_check` asks of one tombstone. -/
theorem linearCheck_eq_true_iff (t : RangeTombstoneTracker) (userKey : Bytes)
    (seq snapshot : SequenceNumber) :
    t.linearCheck userKey seq snapshot = true ↔ ∃ rt ∈ t.tombstones,
      rt.begin ≤ userKey ∧ userKey < rt.«end» ∧ seq < rt.seq ∧ rt.seq ≤ snapshot := by
  simp only [linearCheck, List.any_eq_true, Bool.and_eq_true, decide_eq_true_eq]
  constructor
  · rintro ⟨rt, hrt, ⟨⟨hsnap, hbegin⟩, hend⟩, hseq⟩
    exact ⟨rt, hrt, hbegin, hend, hseq, hsnap⟩
  · rintro ⟨rt, hrt, hbegin, hend, hseq, hsnap⟩
    exact ⟨rt, hrt, ⟨⟨hsnap, hbegin⟩, hend⟩, hseq⟩

/-- `linear_check` reads the tombstones as a multiset. -/
theorem linearCheck_congr {t t' : RangeTombstoneTracker} (hperm : t.tombstones.Perm t'.tombstones)
    (userKey : Bytes) (seq snapshot : SequenceNumber) :
    t.linearCheck userKey seq snapshot = t'.linearCheck userKey seq snapshot := by
  rw [Bool.eq_iff_iff, linearCheck_eq_true_iff, linearCheck_eq_true_iff]
  simp only [hperm.mem_iff]

/-! ## Activation -/

/-- Over tombstones sorted by begin key, activation from `n` pushes the indices `n, n + 1, …` up
to the first tombstone beginning above the key. -/
theorem activate_spec {T : List RangeTombstone} (hsorted : T.Pairwise fun a b => a.begin ≤ b.begin)
    (userKey : Bytes) (n : Nat) (active : List Nat) (hn : n ≤ T.length) :
    ∃ n', activate T userKey n active = (n', active ++ List.range' n (n' - n)) ∧ n ≤ n' ∧
      n' ≤ T.length ∧ ∀ i (hi : i < T.length), n ≤ i → (i < n' ↔ T[i].begin ≤ userKey) := by
  fun_induction activate T userKey n active with
  | case1 n active hlt hbegin ih =>
    obtain ⟨n', heq, hle, hlen, hiff⟩ := ih hlt
    refine ⟨n', ?_, by omega, hlen, ?_⟩
    · rw [heq, List.append_assoc, show n' - n = n' - (n + 1) + 1 by omega, List.range'_succ,
        List.singleton_append]
    · intro i hi hni
      by_cases hin : i = n
      · subst hin
        exact ⟨fun _ => hbegin, fun _ => by omega⟩
      · exact hiff i hi (by omega)
  | case2 n active hlt hbegin =>
    refine ⟨n, by simp, le_rfl, le_of_lt hlt, fun i hi hni => ?_⟩
    -- sorted: every tombstone from `n` on begins at or above the one at `n`, which is above the key
    have hle : T[n].begin ≤ T[i].begin := by
      rcases Nat.eq_or_lt_of_le hni with rfl | hlt'
      · exact le_rfl
      · exact List.pairwise_iff_getElem.mp hsorted n i hlt hi hlt'
    exact ⟨fun h => absurd h (by omega), fun h => absurd (le_trans hle h) hbegin⟩
  | case3 n active hge =>
    exact ⟨n, by simp, le_rfl, hn, fun i hi hni => absurd hi (by omega)⟩

/-! ## The sweep invariant -/

/-- The sweep state ahead of a query for a key at or above `k`: the tombstones are sorted by begin
key, those before `next_idx` begin at or below `k`, and each of them that ends above `k` is
active. -/
structure Sweep (t : RangeTombstoneTracker) (k : Bytes) : Prop where
  sorted_flag : t.sorted = true
  sorted : t.tombstones.Pairwise fun a b => a.begin ≤ b.begin
  nextIdx_le : t.nextIdx ≤ t.tombstones.length
  active_lt : ∀ idx ∈ t.active, idx < t.nextIdx
  begin_le : ∀ i (hi : i < t.tombstones.length), i < t.nextIdx → t.tombstones[i].begin ≤ k
  mem_active : ∀ i (hi : i < t.tombstones.length), i < t.nextIdx → k < t.tombstones[i].«end» →
    i ∈ t.active

namespace Sweep

variable {t : RangeTombstoneTracker} {k : Bytes}

/-- A later key keeps the invariant: the keys asked do not decrease. -/
theorem mono (h : Sweep t k) {k' : Bytes} (hk : k ≤ k') : Sweep t k' where
  sorted_flag := h.sorted_flag
  sorted := h.sorted
  nextIdx_le := h.nextIdx_le
  active_lt := h.active_lt
  begin_le i hi hnext := le_trans (h.begin_le i hi hnext) hk
  mem_active i hi hnext hend := h.mem_active i hi hnext (lt_of_le_of_lt hk hend)

/-- After activation and pruning for the key `k`, the active tombstones are those that cover
`k`. -/
theorem mem_active_iff (h : Sweep t k) {n' : Nat} (hn' : t.nextIdx ≤ n')
    (hiff : ∀ i (hi : i < t.tombstones.length), t.nextIdx ≤ i → (i < n' ↔ t.tombstones[i].begin ≤ k))
    (hlen : n' ≤ t.tombstones.length) (idx : Nat) :
    idx ∈ (t.active ++ List.range' t.nextIdx (n' - t.nextIdx)).filter
        (fun idx => (t.tombstones[idx]?).any fun rt => decide (rt.«end» > k)) ↔
      ∃ hidx : idx < t.tombstones.length,
        t.tombstones[idx].begin ≤ k ∧ k < t.tombstones[idx].«end» := by
  -- the pushed indices run from `next_idx` below `n'`; together with the active ones, below `n'`
  have hpushed : ∀ idx ∈ t.active ++ List.range' t.nextIdx (n' - t.nextIdx), idx < n' := by
    intro idx hidx
    rcases List.mem_append.mp hidx with hact | hrange
    · exact lt_of_lt_of_le (h.active_lt idx hact) hn'
    · have := List.mem_range'_1.mp hrange
      omega
  rw [List.mem_filter]
  constructor
  · rintro ⟨hmem, hend⟩
    have hidx : idx < t.tombstones.length := lt_of_lt_of_le (hpushed idx hmem) hlen
    rw [List.getElem?_eq_getElem hidx, Option.any_some, decide_eq_true_eq] at hend
    have hbegin : t.tombstones[idx].begin ≤ k := by
      rcases List.mem_append.mp hmem with hact | hrange
      · exact h.begin_le idx hidx (h.active_lt idx hact)
      · have hlo := (List.mem_range'_1.mp hrange).1
        exact (hiff idx hidx hlo).mp (hpushed idx hmem)
    exact ⟨hidx, hbegin, hend⟩
  · rintro ⟨hidx, hbegin, hend⟩
    rw [List.getElem?_eq_getElem hidx, Option.any_some, decide_eq_true_eq]
    refine ⟨?_, hend⟩
    by_cases hlo : idx < t.nextIdx
    · exact List.mem_append_left _ (h.mem_active idx hidx hlo hend)
    · have hhi := (hiff idx hidx (by omega)).mpr hbegin
      exact List.mem_append_right _ (List.mem_range'_1.mpr ⟨by omega, by omega⟩)

/-- One query of the sweep answers what `linear_check` answers, and leaves the invariant for the
key asked and the tombstones as they were. -/
theorem isDeleted_eq (h : Sweep t k) (hlen : 4 < t.tombstones.length)
    (seq snapshot : SequenceNumber) :
    (t.isDeleted k seq snapshot).1 = t.linearCheck k seq snapshot ∧
      Sweep (t.isDeleted k seq snapshot).2 k ∧
      (t.isDeleted k seq snapshot).2.tombstones = t.tombstones := by
  obtain ⟨n', hact, hn', hlen', hiff⟩ := activate_spec h.sorted k t.nextIdx t.active h.nextIdx_le
  have hmem := h.mem_active_iff hn' hiff hlen'
  -- every index activated so far is below `n'` and begins at or below the key
  have hbelow : ∀ i (hi : i < t.tombstones.length), i < n' → t.tombstones[i].begin ≤ k := by
    intro i hi hin
    by_cases hlo : i < t.nextIdx
    · exact h.begin_le i hi hlo
    · exact (hiff i hi (by omega)).mp hin
  unfold RangeTombstoneTracker.isDeleted
  rw [if_neg (by omega)]
  simp only [h.sorted_flag, Bool.not_true, Bool.false_eq_true, if_false, hact]
  refine ⟨?_, ?_, trivial⟩
  · rw [Bool.eq_iff_iff, linearCheck_eq_true_iff, List.any_eq_true]
    constructor
    · rintro ⟨idx, hidx, hcheck⟩
      obtain ⟨hlt, hbegin, hend⟩ := (hmem idx).mp hidx
      rw [List.getElem?_eq_getElem hlt, Option.any_some, Bool.and_eq_true, decide_eq_true_eq,
        decide_eq_true_eq] at hcheck
      exact ⟨_, List.getElem_mem hlt, hbegin, hend, hcheck.2, hcheck.1⟩
    · rintro ⟨rt, hrt, hbegin, hend, hseq, hsnap⟩
      obtain ⟨idx, hidx, rfl⟩ := List.getElem_of_mem hrt
      refine ⟨idx, (hmem idx).mpr ⟨hidx, hbegin, hend⟩, ?_⟩
      rw [List.getElem?_eq_getElem hidx, Option.any_some, Bool.and_eq_true, decide_eq_true_eq,
        decide_eq_true_eq]
      exact ⟨hsnap, hseq⟩
  · refine ⟨rfl, h.sorted, hlen', ?_, hbelow, ?_⟩
    · intro idx hidx
      obtain ⟨hlt, hbegin, -⟩ := (hmem idx).mp hidx
      show idx < n'
      by_cases hlo : idx < t.nextIdx
      · omega
      · exact (hiff idx hlt (by omega)).mpr hbegin
    · intro i hi hin hend
      exact (hmem i).mpr ⟨hi, hbelow i hi hin, hend⟩

/-- Over a sweep, queries whose keys do not decrease, none below `k`, are answered as
`linear_check` answers them: the run lemma over the step `isDeleted_eq`. -/
theorem runQueries_eq (h : Sweep t k) (hlen : 4 < t.tombstones.length)
    (queries : List (Bytes × SequenceNumber × SequenceNumber)) (hk : ∀ q ∈ queries, k ≤ q.1)
    (hmono : (queries.map (·.1)).Pairwise (· ≤ ·)) :
    t.runQueries queries = queries.map fun q => t.linearCheck q.1 q.2.1 q.2.2 := by
  induction queries generalizing t k with
  | nil => rfl
  | cons q queries ih =>
    obtain ⟨userKey, seq, snapshot⟩ := q
    rw [List.map_cons, List.pairwise_cons] at hmono
    obtain ⟨hans, hsweep, htomb⟩ :=
      (h.mono (hk _ List.mem_cons_self)).isDeleted_eq hlen seq snapshot
    -- the rest is asked of the tracker after the query, whose tombstones are the same
    have hrest := ih hsweep (htomb ▸ hlen)
      (fun q hq => hmono.1 q.1 (List.mem_map_of_mem hq)) hmono.2
    rw [runQueries, List.map_cons, hans, hrest]
    simp only [linearCheck, htomb]

end Sweep

/-- Up to four tombstones every query is `linear_check` and leaves the tracker as it was. -/
theorem runQueries_of_length_le {t : RangeTombstoneTracker} (hlen : t.tombstones.length ≤ 4)
    (queries : List (Bytes × SequenceNumber × SequenceNumber)) :
    t.runQueries queries = queries.map fun q => t.linearCheck q.1 q.2.1 q.2.2 := by
  induction queries with
  | nil => rfl
  | cons q queries ih =>
    obtain ⟨userKey, seq, snapshot⟩ := q
    simp only [runQueries, isDeleted, if_pos hlen, List.map_cons, ih]

/-! ## Adding and resetting -/

/-- The tracker after the tombstones are added in turn, as a compaction fills it. -/
def addAll (t : RangeTombstoneTracker) (adds : List RangeTombstone) : RangeTombstoneTracker :=
  adds.foldl (fun t rt => t.add rt.begin rt.«end» rt.seq) t

theorem tombstones_addAll (t : RangeTombstoneTracker) (adds : List RangeTombstone) :
    (t.addAll adds).tombstones = t.tombstones ++ adds := by
  induction adds generalizing t with
  | nil => simp [addAll]
  | cons rt adds ih =>
    rw [addAll, List.foldl_cons, ← addAll, ih]
    simp [add]

theorem sorted_addAll {t : RangeTombstoneTracker} (hsorted : t.sorted = false)
    (adds : List RangeTombstone) : (t.addAll adds).sorted = false := by
  induction adds generalizing t with
  | nil => exact hsorted
  | cons rt adds ih =>
    rw [addAll, List.foldl_cons, ← addAll]
    exact ih rfl

/-- The sort of `reset` orders the tombstones by begin key. -/
theorem pairwise_mergeSort_begin (tombstones : List RangeTombstone) :
    (tombstones.mergeSort fun a b => decide (a.begin ≤ b.begin)).Pairwise
      fun a b => a.begin ≤ b.begin := by
  have htrans : ∀ a b c : RangeTombstone, decide (a.begin ≤ b.begin) = true →
      decide (b.begin ≤ c.begin) = true → decide (a.begin ≤ c.begin) = true := by
    simp only [decide_eq_true_eq]
    exact fun a b c hab hbc => le_trans hab hbc
  have htotal : ∀ a b : RangeTombstone,
      (decide (a.begin ≤ b.begin) || decide (b.begin ≤ a.begin)) = true := by
    simp only [Bool.or_eq_true, decide_eq_true_eq]
    exact fun a b => le_total _ _
  exact (List.pairwise_mergeSort htrans htotal tombstones).imp fun h => of_decide_eq_true h

/-- `reset` keeps the tombstones, up to their order. -/
theorem tombstones_reset_perm (t : RangeTombstoneTracker) : t.reset.tombstones.Perm t.tombstones := by
  unfold reset
  cases t.sorted <;> simp only [Bool.not_false, Bool.not_true, if_true, Bool.false_eq_true, if_false]
  · split
    · exact List.mergeSort_perm _ _
    · exact List.Perm.refl _
  · exact List.Perm.refl _

/-- `reset` of a tracker not marked sorted starts a sweep ahead of any key: the tombstones sorted
by begin key, none activated. -/
theorem sweep_reset {t : RangeTombstoneTracker} (hsorted : t.sorted = false) (k : Bytes) :
    Sweep t.reset k := by
  -- a list of at most one tombstone is sorted as it stands
  have hshort : t.tombstones.length ≤ 1 → t.tombstones.Pairwise fun a b => a.begin ≤ b.begin := by
    intro hlen
    match ht : t.tombstones, hlen with
    | [], _ => exact List.Pairwise.nil
    | [_], _ => exact List.pairwise_singleton _ _
  unfold reset
  simp only [hsorted, Bool.not_false, if_true]
  refine ⟨rfl, ?_, Nat.zero_le _, fun _ h => absurd h List.not_mem_nil, fun _ _ h => absurd h
    (Nat.not_lt_zero _), fun _ _ h => absurd h (Nat.not_lt_zero _)⟩
  split
  · exact pairwise_mergeSort_begin _
  · exact hshort (by omega)

/-- **The sweep agrees with the linear check.** Tombstones added to a new tracker and `reset`,
then queries asked in order of their keys, whatever their sequences and snapshots: every answer
is `linear_check`, which holds when some tombstone covers the key, is newer than the entry and
is visible at the snapshot. -/
theorem runQueries_reset (adds : List RangeTombstone)
    (queries : List (Bytes × SequenceNumber × SequenceNumber))
    (hmono : (queries.map (·.1)).Pairwise (· ≤ ·)) :
    (new.addAll adds).reset.runQueries queries =
        queries.map (fun q => (new.addAll adds).linearCheck q.1 q.2.1 q.2.2) ∧
      ∀ (userKey : Bytes) (seq snapshot : SequenceNumber),
        (new.addAll adds).linearCheck userKey seq snapshot = true ↔ ∃ rt ∈ adds,
          rt.begin ≤ userKey ∧ userKey < rt.«end» ∧ seq < rt.seq ∧ rt.seq ≤ snapshot := by
  have htomb : (new.addAll adds).tombstones = adds := by
    rw [tombstones_addAll]
    rfl
  have hperm := tombstones_reset_perm (new.addAll adds)
  refine ⟨?_, fun userKey seq snapshot => by rw [linearCheck_eq_true_iff, htomb]⟩
  -- both paths of the query answer `linear_check` of the reset tracker, which reads the same
  -- tombstones
  have hanswers : (new.addAll adds).reset.runQueries queries =
      queries.map (fun q => (new.addAll adds).reset.linearCheck q.1 q.2.1 q.2.2) := by
    by_cases hlen : (new.addAll adds).reset.tombstones.length ≤ 4
    · exact runQueries_of_length_le hlen queries
    · have hsweep := sweep_reset (sorted_addAll (t := new) rfl adds) []
      exact hsweep.runQueries_eq (by omega) queries (fun q _ => List.nil_le q.1) hmono
  rw [hanswers]
  simp only [linearCheck_congr hperm]

/-- Five tombstones, so the sweep runs: two start at the same key with different sequences and
one ends exactly at a key asked. -/
theorem runQueries_reset_five :
    (new.addAll [⟨[3], [9], 5⟩, ⟨[1], [4], 7⟩, ⟨[1], [2], 3⟩, ⟨[6], [7], 9⟩, ⟨[8], [8], 4⟩]).reset.runQueries
        [([1], 2, 9), ([2], 6, 9), ([4], 4, 9), ([4], 6, 9), ([6], 8, 8)] =
      [true, true, true, false, false] := by
  rw [(runQueries_reset _ _ (by decide)).1]
  decide

/-! ## Answering from any point of a sweep -/

/-- The tracker answers every query at or above `k` from the tombstones `T`: it holds them, and
above four it is a sweep ahead of `k`. This is what a compaction's tracker keeps between the
queries it asks in key order. -/
structure Answers (T : List RangeTombstone) (t : RangeTombstoneTracker) (k : Bytes) : Prop where
  perm : t.tombstones.Perm T
  sweep : 4 < t.tombstones.length → Sweep t k

namespace Answers

variable {T : List RangeTombstone} {t : RangeTombstoneTracker} {k : Bytes}

theorem mono (h : Answers T t k) {k' : Bytes} (hk : k ≤ k') : Answers T t k' :=
  ⟨h.perm, fun hlen => (h.sweep hlen).mono hk⟩

/-- A query at or above `k` is answered from `T`, and the tracker then answers from the key
asked. -/
theorem isDeleted (h : Answers T t k) {k' : Bytes} (hk : k ≤ k') (seq snapshot : SequenceNumber) :
    ((t.isDeleted k' seq snapshot).1 = true ↔ ∃ rt ∈ T,
        rt.begin ≤ k' ∧ k' < rt.«end» ∧ seq < rt.seq ∧ rt.seq ≤ snapshot) ∧
      Answers T (t.isDeleted k' seq snapshot).2 k' := by
  by_cases hlen : t.tombstones.length ≤ 4
  · -- the linear check, and the tracker as it was
    have heq : t.isDeleted k' seq snapshot = (t.linearCheck k' seq snapshot, t) := by
      unfold RangeTombstoneTracker.isDeleted
      rw [if_pos hlen]
    rw [heq, linearCheck_eq_true_iff]
    simp only [h.perm.mem_iff, iff_self, true_and]
    exact h.mono hk
  · obtain ⟨hans, hsweep, htomb⟩ :=
      ((h.sweep (by omega)).mono hk).isDeleted_eq (by omega) seq snapshot
    rw [hans, linearCheck_eq_true_iff]
    simp only [h.perm.mem_iff, iff_self, true_and]
    refine ⟨?_, fun _ => hsweep⟩
    rw [htomb]
    exact h.perm

/-- A tracker that holds no tombstone answers from no tombstone. -/
theorem eq_nil_of_isEmpty (h : Answers T t k) (hempty : t.isEmpty = true) : T = [] := by
  unfold RangeTombstoneTracker.isEmpty at hempty
  exact List.Perm.eq_nil (h.perm.symm.trans (List.isEmpty_iff.mp hempty ▸ List.Perm.refl _))

end Answers

/-- The tracker a compaction fills and resets answers from what it was given, ahead of any key. -/
theorem answers_reset (adds : List RangeTombstone) (k : Bytes) :
    Answers adds (new.addAll adds).reset k where
  perm := by
    refine (tombstones_reset_perm _).trans ?_
    rw [tombstones_addAll]
    exact List.Perm.refl _
  sweep _ := sweep_reset (sorted_addAll (t := new) rfl adds) k

end RangeTombstoneTracker

end Mmdb.RangeDel
