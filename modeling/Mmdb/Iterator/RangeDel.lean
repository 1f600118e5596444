import Mmdb.Iterator.DbIter
import Mmdb.Lib.BinarySearch
import Mmdb.Lib.SegmentTree
import Mmdb.Lib.Sort

/-!
# The fragmented range-tombstone index

`src/iterator/range_del.rs`, `FragmentedRangeTombstoneList`. The index cuts the key space at
every begin and end key of the raw tombstones (`bounds`, sorted and deduplicated) into elementary
intervals, the leaves of a segment tree over `[0, numIntervals)`. Each tombstone is pushed at the
canonical nodes of the leaves it covers, and each node's entries are sorted by sequence
descending, then level ascending. A lookup finds the key's leaf with `partition_point` and walks
from the root down to it, taking at each node the first entry that passes the snapshot and level
filters.

**The law** (`newWithLevels_refines_oracle`): for every raw list the index is built without an
out-of-bounds access or a failed `expect`, and every lookup answers what the database iterator's
`maxCoveringTombstoneSeqForLevel` computes from the raw list. `none` in this model is exactly such
a panic of the source.

The construction establishes `Indexes` (`newWithLevels_indexes`), the invariant of a built index,
and every lookup on an index that keeps it answers the oracle (`Indexes.lookup_eq`). Both rest on
the segment tree library: an insertion pushes its entry at its canonical nodes
(`treeInsertRec_eq_foldlM`), the walk folds a visit over the path (`treeQueryLoop_eq_foldlM`), a
node's first passing entry is its largest (`nodeBest_eq_foldl`), and a canonical node lies on the
leaf's path exactly when the tombstone covers the leaf's interval.
-/

namespace Mmdb

open SegmentTree

/-- `Tree`: the entries `(seq, level)` of each node, node `1` the root. -/
abbrev Tree := List (List (SequenceNumber × Nat))

/-- `tree_node_capacity`. -/
def treeNodeCapacity (numIntervals : Nat) : Nat :=
  if numIntervals = 0 then 0 else 4 * numIntervals

/-- `tree_insert_rec`: push `val` at every canonical node of `[lo, hi)` below `node`, which spans
`[nodeLo, nodeHi)`. -/
def treeInsertRec (tree : Tree) (node nodeLo nodeHi lo hi : Nat) (val : SequenceNumber × Nat) :
    Option Tree :=
  if hi ≤ nodeLo ∨ nodeHi ≤ lo then some tree
  else if lo ≤ nodeLo ∧ nodeHi ≤ hi then pushAt tree node val
  else do
    let mid := nodeLo + (nodeHi - nodeLo) / 2
    let tree ← treeInsertRec tree (2 * node) nodeLo mid lo hi val
    treeInsertRec tree (2 * node + 1) mid nodeHi lo hi val
termination_by nodeHi - nodeLo
decreasing_by all_goals omega

/-- `tree_insert`. -/
def treeInsert (tree : Tree) (numIntervals lo hi : Nat) (val : SequenceNumber × Nat) :
    Option Tree :=
  if lo ≥ hi then some tree else treeInsertRec tree 1 0 numIntervals lo hi val

/-- The `for` loop of `tree_query` over one node's entries: the first entry that passes the
snapshot and the level filter raises `best` to its sequence and ends the loop. -/
def nodeBest (snapshot : SequenceNumber) (sourceLevel : Option Nat) :
    List (SequenceNumber × Nat) → SequenceNumber → SequenceNumber
  | [], best => best
  | (seq, level) :: entries, best =>
    if seq > snapshot then nodeBest snapshot sourceLevel entries best
    else if sourceLevel.any fun srcLvl => level > srcLvl then
      nodeBest snapshot sourceLevel entries best
    else if seq > best then seq else best

/-- The `loop` of `tree_query`, at `node` spanning `[nodeLo, nodeHi)` with `best` so far. -/
def treeQueryLoop (tree : Tree) (leaf : Nat) (snapshot : SequenceNumber)
    (sourceLevel : Option Nat) (node nodeLo nodeHi : Nat) (best : SequenceNumber) :
    Option SequenceNumber := do
  let entries ← tree[node]?
  let best := nodeBest snapshot sourceLevel entries best
  if nodeHi - nodeLo ≤ 1 then
    return best
  let mid := nodeLo + (nodeHi - nodeLo) / 2
  if leaf < mid then
    treeQueryLoop tree leaf snapshot sourceLevel (node * 2) nodeLo mid best
  else
    treeQueryLoop tree leaf snapshot sourceLevel (2 * node + 1) mid nodeHi best
termination_by nodeHi - nodeLo
decreasing_by all_goals omega

/-- `tree_query`. -/
def treeQuery (tree : Tree) (numIntervals leaf : Nat) (snapshot : SequenceNumber)
    (sourceLevel : Option Nat) : Option SequenceNumber :=
  treeQueryLoop tree leaf snapshot sourceLevel 1 0 numIntervals 0

/-! ## The insertion pushes at the canonical nodes -/

theorem treeInsertRec_eq_foldlM (val : SequenceNumber × Nat) {lo hi : Nat} (node nodeLo nodeHi : Nat)
    (tree : Tree) :
    treeInsertRec tree node nodeLo nodeHi lo hi val =
      (canonNodes lo hi node nodeLo nodeHi).foldlM (fun tree ν => pushAt tree ν val) tree := by
  induction node, nodeLo, nodeHi using canonNodes.induct lo hi generalizing tree with
  | case1 node a b hdis =>
    rw [treeInsertRec, if_pos hdis, canonNodes_of_disjoint hdis]
    rfl
  | case2 node a b hdis hcov =>
    rw [treeInsertRec, if_neg hdis, if_pos hcov, canonNodes_of_covered hdis hcov]
    simp only [List.foldlM_cons, List.foldlM_nil, bind_pure]
  | case3 node a b hdis hcov ihl ihr =>
    rw [treeInsertRec, if_neg hdis, if_neg hcov, canonNodes_of_split hdis hcov,
      List.foldlM_append]
    simp only [ihl, ihr]

/-- Inserting a nonempty range of leaves pushes `val` at its canonical nodes, all in bounds. -/
theorem treeInsert_spec (val : SequenceNumber × Nat) {tree : Tree} {n lo hi : Nat}
    (hlen : tree.length = treeNodeCapacity n) (hlt : lo < hi) (hhi : hi ≤ n) :
    ∃ tree', treeInsert tree n lo hi val = some tree' ∧ tree'.length = tree.length ∧
      ∀ μ e, e ∈ tree'.getD μ [] ↔
        e ∈ tree.getD μ [] ∨ (μ ∈ canonNodes lo hi 1 0 n ∧ e = val) := by
  have hn : 0 < n := by omega
  have hcap : tree.length = 4 * n := by rw [hlen, treeNodeCapacity, if_neg (by omega)]
  rw [treeInsert, if_neg (by omega), treeInsertRec_eq_foldlM]
  exact foldlM_pushAt val _ tree
    (fun ν hν => hcap ▸ canonNodes_lt hn 1 0 n 1 (NodeBound.root n) ν hν)

/-! ## The walk takes the largest passing entry on the path -/

/-- The entries the `for` loop of `tree_query` may take: visible at the snapshot, and not from a
level deeper than `sourceLevel`. -/
def passesFilters (snapshot : SequenceNumber) (sourceLevel : Option Nat)
    (e : SequenceNumber × Nat) : Bool :=
  decide (e.1 ≤ snapshot) && sourceLevel.all fun srcLvl => decide (e.2 ≤ srcLvl)

section Query

variable {snapshot : SequenceNumber} {sourceLevel : Option Nat}

theorem passesFilters_iff (seq level : Nat) :
    passesFilters snapshot sourceLevel (seq, level) = true ↔
      ¬ seq > snapshot ∧ ¬ (sourceLevel.any fun srcLvl => level > srcLvl) = true := by
  cases sourceLevel with
  | none => simp [passesFilters]
  | some src => simp [passesFilters]

/-- On entries sorted by sequence descending, the first passing entry is the largest passing
one. -/
theorem nodeBest_eq_foldl (entries : List (SequenceNumber × Nat)) (best : SequenceNumber)
    (hsorted : entries.Pairwise fun a b => b.1 ≤ a.1) :
    nodeBest snapshot sourceLevel entries best =
      entries.foldl (fun best e =>
        if passesFilters snapshot sourceLevel e then max best e.1 else best) best := by
  induction entries generalizing best with
  | nil => rfl
  | cons e entries ih =>
    obtain ⟨seq, level⟩ := e
    rw [nodeBest, List.foldl_cons]
    by_cases hsnap : seq > snapshot
    · have hfail : ¬ passesFilters snapshot sourceLevel (seq, level) = true :=
        fun h => ((passesFilters_iff seq level).mp h).1 hsnap
      rw [if_pos hsnap, if_neg hfail, ih best hsorted.of_cons]
    by_cases hlevel : (sourceLevel.any fun srcLvl => level > srcLvl) = true
    · have hfail : ¬ passesFilters snapshot sourceLevel (seq, level) = true :=
        fun h => ((passesFilters_iff seq level).mp h).2 hlevel
      rw [if_neg hsnap, if_pos hlevel, if_neg hfail, ih best hsorted.of_cons]
    -- the entry passes: every later entry is at most its sequence
    have hpass := (passesFilters_iff seq level).mpr ⟨hsnap, hlevel⟩
    have hbelow : ∀ e ∈ entries, passesFilters snapshot sourceLevel e = true → e.1 ≤ max best seq :=
      fun e he _ => le_trans (List.rel_of_pairwise_cons hsorted he) (le_max_right best seq)
    rw [if_neg hsnap, if_neg hlevel, if_pos hpass, foldl_max_of_le hbelow]
    exact (max_def_lt best seq).symm

theorem treeQueryLoop_eq_foldlM (tree : Tree) (leaf node a b : Nat) (best : SequenceNumber) :
    treeQueryLoop tree leaf snapshot sourceLevel node a b best =
      (path leaf node a b).foldlM (fun best ν =>
        tree[ν]?.map fun entries => nodeBest snapshot sourceLevel entries best) best := by
  induction node, a, b using path.induct leaf generalizing best with
  | case1 node a b ihl ihr =>
    rw [treeQueryLoop, path, List.foldlM_cons]
    cases tree[node]? with
    | none => rfl
    | some entries =>
      simp only [Option.bind_eq_bind, Option.bind_some, Option.map_some]
      by_cases hone : b - a ≤ 1
      · simp only [hone, if_true, List.foldlM_nil]
      by_cases hleaf : leaf < a + (b - a) / 2
      · simp only [hone, hleaf, if_false, if_true, Nat.mul_comm node 2]
        exact ihl hone _
      · simp only [hone, hleaf, if_false]
        exact ihr hone _

/-- A walk whose path stays in bounds, over nodes sorted by sequence descending, folds the
maximum of the passing entries of the path's nodes. -/
theorem treeQuery_eq {tree : Tree} {n : Nat} (hn : 0 < n) (hlen : tree.length = 4 * n)
    (hsorted : ∀ ν, (tree.getD ν []).Pairwise fun a b => b.1 ≤ a.1) (leaf : Nat) :
    treeQuery tree n leaf snapshot sourceLevel =
      some (((path leaf 1 0 n).flatMap fun ν => tree.getD ν []).foldl (fun best e =>
        if passesFilters snapshot sourceLevel e then max best e.1 else best) 0) := by
  rw [treeQuery, treeQueryLoop_eq_foldlM, foldlM_visit _ _ _ _
    (fun ν hν => hlen ▸ path_lt hn 1 0 n 1 (NodeBound.root n) ν hν), List.foldl_flatMap]
  congr 1
  refine congrArg (fun visit => (path leaf 1 0 n).foldl visit 0) ?_
  funext best ν
  exact nodeBest_eq_foldl _ best (hsorted ν)

end Query

/-- `FragmentedRangeTombstoneList`: its query index. -/
structure FragmentedRangeTombstoneList where
  bounds : List Bytes
  tree : Tree

namespace FragmentedRangeTombstoneList

/-- `empty`. -/
def empty : FragmentedRangeTombstoneList := ⟨[], []⟩

/-- The boundaries of `new_with_levels`: every begin and end key, then `sort` and `dedup`. -/
def collectBounds (raw : List RangeTombstone) : List Bytes :=
  ((raw.flatMap fun t => [t.begin, t.«end»]).mergeSort fun a b => decide (a ≤ b)).destutter
    (· ≠ ·)

/-- The order `sort_unstable_by` gives a node's entries: `a` may stand before `b` unless the
comparator puts it after. -/
def entryLe (a b : SequenceNumber × Nat) : Bool :=
  (compare b.1 a.1).then (compare a.2 b.2) != .gt

/-- One pass of the insertion loop of `new_with_levels`. -/
def insertTombstone (bounds : List Bytes) (numIntervals : Nat) (tree : Tree)
    (t : RangeTombstone) : Option Tree :=
  if t.begin ≥ t.«end» then some tree
  else do
    -- `binary_search(..).expect(..)`: both keys were pushed into the bounds
    let lo ← bounds.idxOf? t.begin
    let hi ← bounds.idxOf? t.«end»
    treeInsert tree numIntervals lo hi (t.seq, t.level)

/-- `new_with_levels`. -/
def newWithLevels (raw : List RangeTombstone) : Option FragmentedRangeTombstoneList :=
  if raw.isEmpty then some empty
  else do
    let bounds := collectBounds raw
    let numIntervals := bounds.length - 1
    let tree ← raw.foldlM (insertTombstone bounds numIntervals)
      (List.replicate (treeNodeCapacity numIntervals) [])
    return ⟨bounds, tree.map fun node => node.mergeSort entryLe⟩

/-- `new`: every tombstone at level 0. -/
def new (raw : List (Bytes × Bytes × SequenceNumber)) : Option FragmentedRangeTombstoneList :=
  newWithLevels (raw.map fun t => ⟨t.1, t.2.1, t.2.2, 0⟩)

/-- `max_covering_tombstone_seq_for_level`. -/
def maxCoveringTombstoneSeqForLevel (list : FragmentedRangeTombstoneList) (userKey : Bytes)
    (snapshot : SequenceNumber) (sourceLevel : Option Nat) : Option SequenceNumber :=
  -- `checked_sub(1)`: `None` and `Some(0)` both answer `0`
  match list.bounds.length with
  | 0 | 1 => some 0
  | numIntervals + 1 =>
    let idx := BinarySearch.partitionPoint (fun b => decide (b ≤ userKey))
      (list.bounds.take numIntervals)
    if idx = 0 then some 0
    else do
      let leaf := idx - 1
      let endKey ← list.bounds[leaf + 1]?
      if userKey ≥ endKey then some 0
      else treeQuery list.tree numIntervals leaf snapshot sourceLevel

/-- `max_covering_tombstone_seq`. -/
def maxCoveringTombstoneSeq (list : FragmentedRangeTombstoneList) (userKey : Bytes)
    (snapshot : SequenceNumber) : Option SequenceNumber :=
  list.maxCoveringTombstoneSeqForLevel userKey snapshot none

/-! ## The entries of a node in sorted order -/

theorem entryLe_iff (a b : SequenceNumber × Nat) :
    entryLe a b = true ↔ b.1 < a.1 ∨ (b.1 = a.1 ∧ a.2 ≤ b.2) := by
  rcases lt_trichotomy b.1 a.1 with h | h | h
  · simp [entryLe, compare_lt_iff_lt.mpr h, Ordering.then, h]
  · simp [entryLe, h, Ordering.then, compare_gt_iff_gt, not_lt]
  · simp [entryLe, compare_gt_iff_gt.mpr h, Ordering.then, not_lt.mpr h.le, h.ne']

/-- The sort puts a node's entries in descending order of sequence. -/
theorem pairwise_mergeSort_entryLe (entries : List (SequenceNumber × Nat)) :
    (entries.mergeSort entryLe).Pairwise fun a b => b.1 ≤ a.1 := by
  have htrans : ∀ a b c, entryLe a b = true → entryLe b c = true → entryLe a c = true := by
    intro a b c
    simp only [entryLe_iff]
    unfold SequenceNumber at *
    omega
  have htotal : ∀ a b, (entryLe a b || entryLe b a) = true := by
    intro a b
    rw [Bool.or_eq_true, entryLe_iff, entryLe_iff]
    unfold SequenceNumber at *
    omega
  refine (List.pairwise_mergeSort htrans htotal entries).imp fun h => ?_
  rw [entryLe_iff] at h
  unfold SequenceNumber at *
  omega

/-- A node of the sorted tree holds the entries of that node before the sort. -/
theorem getD_map_mergeSort (tree : Tree) (ν : Nat) :
    (tree.map fun node => node.mergeSort entryLe).getD ν [] = (tree.getD ν []).mergeSort entryLe := by
  have h := List.getD_map tree [] (n := ν) fun node => node.mergeSort entryLe
  rwa [List.mergeSort_nil] at h

theorem getD_replicate_nil (m ν : Nat) :
    (List.replicate m ([] : List (SequenceNumber × Nat))).getD ν [] = [] := by
  rw [List.getD_eq_getElem?_getD, List.getElem?_replicate]
  split <;> rfl

/-! ## What a built index keeps -/

/-- `list` indexes the raw tombstones `raw`: its bounds are strictly increasing and hold every
begin and end key, its tree has `treeNodeCapacity` nodes, each sorted by sequence descending, and
node `ν` holds the entry of each nonempty tombstone that has `ν` for a canonical node. -/
structure Indexes (list : FragmentedRangeTombstoneList) (raw : List RangeTombstone) : Prop where
  sorted : list.bounds.SortedLT
  mem_bounds : ∀ t ∈ raw, t.begin ∈ list.bounds ∧ t.«end» ∈ list.bounds
  tree_length : list.tree.length = treeNodeCapacity (list.bounds.length - 1)
  node_sorted : ∀ ν, (list.tree.getD ν []).Pairwise fun a b => b.1 ≤ a.1
  mem_node : ∀ ν e, e ∈ list.tree.getD ν [] ↔ ∃ t ∈ raw, t.begin < t.«end» ∧
    ν ∈ canonNodes (list.bounds.idxOf t.begin) (list.bounds.idxOf t.«end») 1 0
      (list.bounds.length - 1) ∧ e = (t.seq, t.level)

theorem idxOf?_eq_some_idxOf {bounds : List Bytes} {x : Bytes} (hx : x ∈ bounds) :
    bounds.idxOf? x = some (bounds.idxOf x) := by
  have hlt : bounds.idxOf x < bounds.length := List.idxOf_lt_length_iff.mpr hx
  rw [List.idxOf_eq_getD_idxOf?] at hlt ⊢
  cases hidx : bounds.idxOf? x with
  | none => rw [hidx, Option.getD_none] at hlt; omega
  | some i => rfl

/-- One insertion: a nonempty tombstone's entry is pushed at its canonical nodes, and an empty
one changes nothing. -/
theorem insertTombstone_spec {bounds : List Bytes} (hsorted : bounds.SortedLT) {tree : Tree}
    (hlen : tree.length = treeNodeCapacity (bounds.length - 1)) {t : RangeTombstone}
    (hbegin : t.begin ∈ bounds) (hend : t.«end» ∈ bounds) :
    ∃ tree', insertTombstone bounds (bounds.length - 1) tree t = some tree' ∧
      tree'.length = tree.length ∧
      ∀ μ e, e ∈ tree'.getD μ [] ↔ e ∈ tree.getD μ [] ∨ (t.begin < t.«end» ∧
        μ ∈ canonNodes (bounds.idxOf t.begin) (bounds.idxOf t.«end») 1 0 (bounds.length - 1) ∧
        e = (t.seq, t.level)) := by
  by_cases hge : t.begin ≥ t.«end»
  · refine ⟨tree, by rw [insertTombstone, if_pos hge], rfl, fun μ e => ?_⟩
    have hnot : ¬ t.begin < t.«end» := not_lt.mpr hge
    simp [hnot]
  have hlo := List.idxOf_lt_length_iff.mpr hbegin
  have hhi := List.idxOf_lt_length_iff.mpr hend
  -- the bounds are strictly increasing, so the keys' order is their indices' order
  have hidx : bounds.idxOf t.begin < bounds.idxOf t.«end» := by
    have key : bounds[bounds.idxOf t.begin] < bounds[bounds.idxOf t.«end»] ↔
        bounds.idxOf t.begin < bounds.idxOf t.«end» := hsorted.getElem_lt_getElem_iff
    rw [← key, List.getElem_idxOf, List.getElem_idxOf]
    exact lt_of_not_ge hge
  obtain ⟨tree', hins, hlen', hmem⟩ := treeInsert_spec (t.seq, t.level) hlen hidx (by omega)
  refine ⟨tree', ?_, hlen', fun μ e => ?_⟩
  · rw [insertTombstone, if_neg hge, idxOf?_eq_some_idxOf hbegin, idxOf?_eq_some_idxOf hend]
    exact hins
  · rw [hmem]
    simp [lt_of_not_ge hge]

/-- The insertion loop over the tombstones `ts`. -/
theorem foldlM_insertTombstone {bounds : List Bytes} (hsorted : bounds.SortedLT)
    (ts : List RangeTombstone) (hts : ∀ t ∈ ts, t.begin ∈ bounds ∧ t.«end» ∈ bounds)
    (tree : Tree) (hlen : tree.length = treeNodeCapacity (bounds.length - 1)) :
    ∃ tree', ts.foldlM (insertTombstone bounds (bounds.length - 1)) tree = some tree' ∧
      tree'.length = tree.length ∧
      ∀ μ e, e ∈ tree'.getD μ [] ↔ e ∈ tree.getD μ [] ∨ ∃ t ∈ ts, t.begin < t.«end» ∧
        μ ∈ canonNodes (bounds.idxOf t.begin) (bounds.idxOf t.«end») 1 0 (bounds.length - 1) ∧
        e = (t.seq, t.level) := by
  induction ts generalizing tree with
  | nil => exact ⟨tree, rfl, rfl, by simp⟩
  | cons t ts ih =>
    obtain ⟨hbegin, hend⟩ := hts t List.mem_cons_self
    obtain ⟨tree₁, hins, hlen₁, hmem₁⟩ := insertTombstone_spec hsorted hlen hbegin hend
    obtain ⟨tree₂, hfold, hlen₂, hmem₂⟩ :=
      ih (fun t' ht' => hts t' (List.mem_cons_of_mem t ht')) tree₁ (hlen₁.trans hlen)
    refine ⟨tree₂, by rw [List.foldlM_cons, hins]; exact hfold, hlen₂.trans hlen₁,
      fun μ e => ?_⟩
    rw [hmem₂, hmem₁]
    simp only [List.mem_cons, or_and_right, exists_or, exists_eq_left, or_assoc]

theorem empty_indexes : empty.Indexes [] where
  sorted := List.Pairwise.nil.sortedLT
  mem_bounds := by simp
  tree_length := rfl
  node_sorted := by simp [empty]
  mem_node := by simp [empty]

/-- **`new_with_levels` builds an index of its input**, with every access in bounds and every
`expect` met. -/
theorem newWithLevels_indexes (raw : List RangeTombstone) :
    ∃ list, newWithLevels raw = some list ∧ list.Indexes raw := by
  cases raw with
  | nil => exact ⟨empty, rfl, empty_indexes⟩
  | cons t ts =>
    have hsorted : (collectBounds (t :: ts)).SortedLT := List.sortedLT_destutter_mergeSort _
    have hbounds : ∀ t' ∈ t :: ts,
        t'.begin ∈ collectBounds (t :: ts) ∧ t'.«end» ∈ collectBounds (t :: ts) := by
      intro t' ht'
      simp only [collectBounds, List.mem_destutter_mergeSort, List.mem_flatMap]
      exact ⟨⟨t', ht', by simp⟩, ⟨t', ht', by simp⟩⟩
    obtain ⟨tree, hfold, hlen, hmem⟩ := foldlM_insertTombstone hsorted (t :: ts) hbounds
      (List.replicate (treeNodeCapacity ((collectBounds (t :: ts)).length - 1)) [])
      List.length_replicate
    refine ⟨⟨collectBounds (t :: ts), tree.map fun node => node.mergeSort entryLe⟩, ?_, ?_⟩
    · simp only [newWithLevels, List.isEmpty_cons, Bool.false_eq_true, if_false, hfold]
      rfl
    · refine ⟨hsorted, hbounds, by rw [List.length_map, hlen, List.length_replicate],
        fun ν => ?_, fun ν e => ?_⟩
      · rw [getD_map_mergeSort]
        exact pairwise_mergeSort_entryLe _
      · rw [getD_map_mergeSort, List.mem_mergeSort, hmem, getD_replicate_nil]
        simp only [List.not_mem_nil, false_or]

/-! ## A lookup on an index answers the oracle -/

theorem counts_iff (t : RangeTombstone) (userKey : Bytes) (snapshot : SequenceNumber)
    (sourceLevel : Option Nat) :
    t.counts userKey snapshot sourceLevel = true ↔ (t.begin ≤ userKey ∧ userKey < t.«end») ∧
      passesFilters snapshot sourceLevel (t.seq, t.level) = true := by
  simp only [RangeTombstone.counts, passesFilters, Bool.and_eq_true, decide_eq_true_eq, and_assoc]

/-- With no tombstone covering the key, the oracle answers `0`. -/
theorem oracle_eq_zero {raw : List RangeTombstone} {userKey : Bytes} (snapshot : SequenceNumber)
    (sourceLevel : Option Nat) (h : ∀ t ∈ raw, ¬ (t.begin ≤ userKey ∧ userKey < t.«end»)) :
    Mmdb.maxCoveringTombstoneSeqForLevel raw userKey snapshot sourceLevel = 0 :=
  foldl_max_of_le fun t ht hc =>
    absurd ((counts_iff t userKey snapshot sourceLevel).mp hc).1 (h t ht)

namespace Indexes

variable {list : FragmentedRangeTombstoneList} {raw : List RangeTombstone}

/-- For a key between the bounds at `leaf` and `leaf + 1`, the walk to `leaf` answers the
oracle. -/
theorem treeQuery_eq_oracle (h : list.Indexes raw) {n leaf : Nat}
    (hn : list.bounds.length = n + 1) (hleaf : leaf < n) {userKey : Bytes}
    (hlo : list.bounds[leaf] ≤ userKey) (hhi : userKey < list.bounds[leaf + 1])
    (snapshot : SequenceNumber) (sourceLevel : Option Nat) :
    treeQuery list.tree n leaf snapshot sourceLevel =
      some (Mmdb.maxCoveringTombstoneSeqForLevel raw userKey snapshot sourceLevel) := by
  have hn' : list.bounds.length - 1 = n := by omega
  have hlen : list.tree.length = 4 * n := by
    rw [h.tree_length, hn', treeNodeCapacity, if_neg (by omega)]
  rw [treeQuery_eq (by omega) hlen h.node_sorted leaf, Mmdb.maxCoveringTombstoneSeqForLevel]
  congr 1
  -- a tombstone covers the key exactly when one of its canonical nodes is on the leaf's path
  have hcover : ∀ t ∈ raw, (t.begin ≤ userKey ∧ userKey < t.«end») ↔
      ∃ ν ∈ canonNodes (list.bounds.idxOf t.begin) (list.bounds.idxOf t.«end») 1 0 n,
        ν ∈ path leaf 1 0 n := by
    intro t ht
    obtain ⟨hb, he⟩ := h.mem_bounds t ht
    have hb' := List.idxOf_lt_length_iff.mpr hb
    have he' := List.idxOf_lt_length_iff.mpr he
    rw [exists_canon_mem_path_iff 1 0 n Nat.one_pos (Nat.zero_le leaf) hleaf,
      ← h.sorted.between_iff (by omega) hb' he' hlo hhi, List.getElem_idxOf, List.getElem_idxOf]
  apply foldl_max_congr
  · intro e he hpass
    obtain ⟨ν, hνpath, heν⟩ := List.mem_flatMap.mp he
    obtain ⟨t, ht, -, hν, rfl⟩ := (h.mem_node ν e).mp heν
    rw [hn'] at hν
    exact ⟨t, ht, (counts_iff t userKey snapshot sourceLevel).mpr
      ⟨(hcover t ht).mpr ⟨ν, hν, hνpath⟩, hpass⟩, le_rfl⟩
  · intro t ht hc
    obtain ⟨hcov, hpass⟩ := (counts_iff t userKey snapshot sourceLevel).mp hc
    obtain ⟨ν, hν, hνpath⟩ := (hcover t ht).mp hcov
    have hmem : (t.seq, t.level) ∈ list.tree.getD ν [] := by
      rw [h.mem_node ν, hn']
      exact ⟨t, ht, lt_of_le_of_lt hcov.1 hcov.2, hν, rfl⟩
    exact ⟨(t.seq, t.level), List.mem_flatMap.mpr ⟨ν, hνpath, hmem⟩, hpass, le_rfl⟩

/-- **A lookup on an index answers the oracle**, with every access in bounds. -/
theorem lookup_eq (h : list.Indexes raw) (userKey : Bytes) (snapshot : SequenceNumber)
    (sourceLevel : Option Nat) :
    list.maxCoveringTombstoneSeqForLevel userKey snapshot sourceLevel =
      some (Mmdb.maxCoveringTombstoneSeqForLevel raw userKey snapshot sourceLevel) := by
  unfold FragmentedRangeTombstoneList.maxCoveringTombstoneSeqForLevel
  split
  · -- no bounds: no tombstones
    rename_i hlen
    rw [oracle_eq_zero snapshot sourceLevel fun t ht => by
      have hb := (h.mem_bounds t ht).1
      rw [List.length_eq_zero_iff.mp hlen] at hb
      exact absurd hb List.not_mem_nil]
  · -- one bound: every tombstone is empty
    rename_i hlen
    obtain ⟨x, hx⟩ := List.length_eq_one_iff.mp hlen
    rw [oracle_eq_zero snapshot sourceLevel fun t ht => by
      obtain ⟨hb, he⟩ := h.mem_bounds t ht
      rw [hx, List.mem_singleton] at hb he
      rintro ⟨hle, hlt⟩
      have hxx := lt_of_le_of_lt hle hlt
      rw [hb, he] at hxx
      exact lt_irrefl x hxx]
  · rename_i n hn0 hlen
    have hn : 0 < n := Nat.pos_of_ne_zero hn0
    have htake : (list.bounds.take n).length = n := by rw [List.length_take]; omega
    generalize hidx :
      BinarySearch.partitionPoint (fun b => decide (b ≤ userKey)) (list.bounds.take n) = idx
    have hidx_le : idx ≤ n := by
      have hle := BinarySearch.partitionPoint_le_length (p := fun b => decide (b ≤ userKey))
        (list.bounds.take n)
      rwa [hidx, htake] at hle
    dsimp only
    rcases idx with _ | leaf
    · -- the first bound is above the key, and so is every begin key
      have hfail := BinarySearch.getElem_partitionPoint_take hidx hn (by omega)
      rw [decide_eq_false_iff_not] at hfail
      rw [if_pos rfl, oracle_eq_zero snapshot sourceLevel fun t ht hcov =>
        hfail (le_trans (h.sorted.getElem_zero_le (h.mem_bounds t ht).1 (by omega)) hcov.1)]
    have hlo : list.bounds[leaf] ≤ userKey :=
      decide_eq_true_eq.mp
        (BinarySearch.of_lt_partitionPoint_take hidx (Nat.lt_succ_self leaf) (by omega) (by omega))
    simp only [Nat.add_one_ne_zero, if_false, Nat.add_sub_cancel,
      List.getElem?_eq_getElem (by omega : leaf + 1 < list.bounds.length), Option.bind_eq_bind,
      Option.bind_some]
    by_cases hge : userKey ≥ list.bounds[leaf + 1]
    · -- the key is at or above the last bound, and so is every end key
      have hlast : leaf + 1 = n := by
        by_contra hne
        have hfail := BinarySearch.getElem_partitionPoint_take hidx (by omega) (by omega)
        rw [decide_eq_false_iff_not] at hfail
        exact hfail hge
      rw [if_pos hge, oracle_eq_zero snapshot sourceLevel fun t ht hcov =>
        absurd (lt_of_lt_of_le hcov.2 (h.sorted.le_getElem_last (h.mem_bounds t ht).2
          (by omega : leaf + 1 + 1 = list.bounds.length))) (not_lt.mpr hge)]
    · rw [if_neg hge]
      exact h.treeQuery_eq_oracle hlen (by omega) hlo (lt_of_not_ge hge) snapshot sourceLevel

end Indexes

end FragmentedRangeTombstoneList

/-- The oracle is the largest sequence among the tombstones that count, `0` when none does. -/
theorem maxCoveringTombstoneSeqForLevel_spec (raw : List RangeTombstone) (userKey : Bytes)
    (snapshot : SequenceNumber) (sourceLevel : Option Nat) :
    (∀ t ∈ raw, t.counts userKey snapshot sourceLevel = true →
      t.seq ≤ maxCoveringTombstoneSeqForLevel raw userKey snapshot sourceLevel) ∧
    (maxCoveringTombstoneSeqForLevel raw userKey snapshot sourceLevel = 0 ∨
      ∃ t ∈ raw, t.counts userKey snapshot sourceLevel = true ∧
        t.seq = maxCoveringTombstoneSeqForLevel raw userKey snapshot sourceLevel) :=
  ⟨fun _ ht hc => le_foldl_max_of_mem ht hc 0, foldl_max_eq_or_mem _ _ raw 0⟩

theorem newWithLevels_refines_oracle (raw : List RangeTombstone) :
    ∃ list, FragmentedRangeTombstoneList.newWithLevels raw = some list ∧
      ∀ (userKey : Bytes) (snapshot : SequenceNumber) (sourceLevel : Option Nat),
        ∃ m, list.maxCoveringTombstoneSeqForLevel userKey snapshot sourceLevel = some m ∧
          m = maxCoveringTombstoneSeqForLevel raw userKey snapshot sourceLevel ∧
          (∀ t ∈ raw, t.counts userKey snapshot sourceLevel = true → t.seq ≤ m) ∧
          (m = 0 ∨ ∃ t ∈ raw, t.counts userKey snapshot sourceLevel = true ∧ t.seq = m) := by
  obtain ⟨list, hnew, hindex⟩ := FragmentedRangeTombstoneList.newWithLevels_indexes raw
  refine ⟨list, hnew, fun userKey snapshot sourceLevel => ?_⟩
  obtain ⟨hupper, hattained⟩ :=
    maxCoveringTombstoneSeqForLevel_spec raw userKey snapshot sourceLevel
  exact ⟨_, hindex.lookup_eq userKey snapshot sourceLevel, rfl, hupper, hattained⟩

end Mmdb
