import Mmdb.Iterator.MergeHeap
import Mmdb.Iterator.Keys
import Mmdb.Lib.BinaryHeap
import Mmdb.Lib.Sort

/-!
# The heap merges what the stream model says

`Mmdb.MergingIterator` (`Mmdb.Iterator.Merge`) stands for the merging iterator by the merged stream
of its sources; `Mmdb.Heap.MergingIterator` (`Mmdb.Iterator.MergeHeap`) is the heap the code runs.
Here the two meet over the loop the compaction runs, `while let Some((ikey, value)) =
merger.next_entry()`, from `MergingIterator::new` and after a `seek`.

A source holds what it has left to give (`IterSource.rest`): its peeked entry, then its entries
from `pos` on; `peek` never changes it, and `take_peeked` takes its head. Going forward with
several sources, `init_heap` and every `next_entry` keep `Merges`: a source with anything left has
peeked, the live part of the heap holds exactly the sources that have peeked, and it is ordered by
`source_less` (`Mmdb.Lib.BinaryHeap`). Each `next_entry` then returns an entry that no entry left
goes before (`Merges.nextEntry_some`); with one source `next_entry` reads it in order (`Single`).
The loop returns everything the sources hold, in internal-key order (`drain_sorted_perm`).

**The refinement** (`drain_new`, `drain_seek`): when every source is sorted and no internal key
occurs twice among them, the loop returns the merged stream of the model, exactly. The heap breaks
a tie between equal keys by its shape and the stream by the order of the sources, so the second
hypothesis is the one the two need to agree entry by entry.
-/

namespace Mmdb

namespace Heap

/-- Two entries in internal-key order. -/
def KeyLe (a b : Bytes × Bytes) : Prop := compareInternalKey a.1 b.1 ≠ .gt

instance : DecidableRel KeyLe := fun a b =>
  inferInstanceAs (Decidable (compareInternalKey a.1 b.1 ≠ .gt))

theorem KeyLe.refl (a : Bytes × Bytes) : KeyLe a a := by
  simp [KeyLe, Std.ReflCmp.compare_self]

theorem KeyLe.trans {a b c : Bytes × Bytes} (hab : KeyLe a b) (hbc : KeyLe b c) : KeyLe a c :=
  Std.TransCmp.le_trans hab hbc

/-- Entries in order both ways have one key. -/
theorem KeyLe.key_eq {a b : Bytes × Bytes} (hab : KeyLe a b) (hba : KeyLe b a) : a.1 = b.1 := by
  have heq : compareInternalKey a.1 b.1 = .eq :=
    Std.OrientedCmp.isLE_antisymm (Ordering.isLE_iff_ne_gt.mpr hab) (Ordering.isLE_iff_ne_gt.mpr hba)
  exact Std.LawfulEqCmp.eq_of_compare heq

namespace IterSource

/-- What the source has left to give: the peeked entry, then the entries from `pos` on. -/
def rest (s : IterSource) : List (Bytes × Bytes) :=
  (if s.hasPeeked then [(s.peekedKey, s.peekedValue)] else []) ++ s.entries.drop s.pos

/-- A source with nothing peeked has nothing left: `peek` has run on it. -/
def Filled (s : IterSource) : Prop := s.hasPeeked = false → s.rest = []

@[simp] theorem rest_new (entries : List (Bytes × Bytes)) : (new entries).rest = entries := by
  simp [rest, new]

theorem rest_of_hasPeeked {s : IterSource} (h : s.hasPeeked = true) :
    s.rest = (s.peekedKey, s.peekedValue) :: s.entries.drop s.pos := by
  simp [rest, h]

theorem peek_snd (s : IterSource) : s.peek.2 = s.fill := rfl

@[simp] theorem rest_loadAt (s : IterSource) (i : Nat) (h : i < s.entries.length) :
    (s.loadAt i h).rest = s.entries.drop i := by
  rw [List.drop_eq_getElem_cons h]
  simp [rest, loadAt]

theorem fill_of_lt {s : IterSource} (hp : s.hasPeeked = false) (hpos : s.pos < s.entries.length) :
    s.fill = s.loadAt s.pos hpos :=
  peek_of_lt hp hpos

theorem fill_of_not_lt {s : IterSource} (hp : s.hasPeeked = false)
    (hpos : ¬s.pos < s.entries.length) : s.fill = s := by
  have hadv : s.advanceIntoBuffers = (false, s) := by
    unfold advanceIntoBuffers
    rw [dif_neg hpos]
  simp only [fill, hp, Bool.false_eq_true, if_false, hadv]
  cases s
  simp_all

/-- Filling the peek buffer moves the entry at `pos` into it. -/
@[simp] theorem rest_fill (s : IterSource) : s.fill.rest = s.rest := by
  cases hp : s.hasPeeked with
  | true => rw [fill_of_hasPeeked hp]
  | false =>
    by_cases hpos : s.pos < s.entries.length
    · rw [fill_of_lt hp hpos, rest_loadAt]
      simp [rest, hp]
    · rw [fill_of_not_lt hp hpos]

theorem filled_fill (s : IterSource) : s.fill.Filled := by
  intro hfill
  cases hp : s.hasPeeked with
  | true => rw [fill_of_hasPeeked hp] at hfill ⊢; simp [hp] at hfill
  | false =>
    by_cases hpos : s.pos < s.entries.length
    · rw [fill_of_lt hp hpos] at hfill
      simp [loadAt] at hfill
    · rw [fill_of_not_lt hp hpos]
      simp [rest, hp, List.drop_eq_nil_of_le (Nat.le_of_not_lt hpos)]

theorem takePeeked_of_fill {s : IterSource} (h : s.fill.hasPeeked = true) :
    s.takePeeked = (some (s.fill.peekedKey, s.fill.peekedValue),
      { s.fill with hasPeeked := false, peekedKey := [], peekedValue := [] }) := by
  simp only [takePeeked, h, if_true]

theorem takePeeked_eq_of_hasPeeked {s : IterSource} (h : s.hasPeeked = true) :
    s.takePeeked = (some (s.peekedKey, s.peekedValue),
      { s with hasPeeked := false, peekedKey := [], peekedValue := [] }) := by
  rw [takePeeked_of_fill (by rw [fill_of_hasPeeked h]; exact h), fill_of_hasPeeked h]

theorem takePeeked_of_fill_not {s : IterSource} (h : s.fill.hasPeeked = false) :
    s.takePeeked = (none, s.fill) := by
  simp only [takePeeked, h, Bool.false_eq_true, if_false]

/-- `take_peeked` takes the head of what is left. -/
theorem rest_takePeeked (s : IterSource) :
    s.rest = s.takePeeked.1.toList ++ s.takePeeked.2.rest := by
  rw [← rest_fill]
  cases h : s.fill.hasPeeked with
  | true => simp [takePeeked_of_fill h, rest, h]
  | false => simp [takePeeked_of_fill_not h]

theorem rest_eq_nil_of_takePeeked {s : IterSource} (h : s.takePeeked.1 = none) : s.rest = [] := by
  rw [← rest_fill]
  cases hp : s.fill.hasPeeked with
  | true => simp [takePeeked_of_fill hp] at h
  | false => exact filled_fill s hp

/-- `seek_to` leaves what follows `target`, whatever the source had taken. -/
theorem rest_seekTo (s : IterSource) (target : Bytes) :
    (s.seekTo target).rest = s.entries.dropWhile fun e => compareInternalKey e.1 target == .lt := by
  have hdrop : s.entries.drop (BinarySearch.partitionPoint
      (fun e => compareInternalKey e.1 target == .lt) s.entries) =
      s.entries.dropWhile fun e => compareInternalKey e.1 target == .lt := by
    calc s.entries.drop (BinarySearch.partitionPoint
          (fun e => compareInternalKey e.1 target == .lt) s.entries)
        = (s.entries.takeWhile (fun e => compareInternalKey e.1 target == .lt) ++
            s.entries.dropWhile fun e => compareInternalKey e.1 target == .lt).drop
            (s.entries.takeWhile fun e => compareInternalKey e.1 target == .lt).length := by
          rw [List.takeWhile_append_dropWhile]
          rfl
      _ = s.entries.dropWhile fun e => compareInternalKey e.1 target == .lt := List.drop_left
  unfold seekTo
  dsimp only
  split
  · rw [rest_loadAt, hdrop]
  · simp [rest, hdrop]

end IterSource

namespace MergingIterator

variable {m : MergingIterator}

/-- The sources that have peeked, in index order. -/
def live (m : MergingIterator) : List Nat :=
  (List.range m.sources.length).filter fun i => (m.source i).hasPeeked

/-- What the sources have left to give. -/
def remaining (m : MergingIterator) : List (Bytes × Bytes) := m.sources.flatMap IterSource.rest

theorem mem_live {i : Nat} : i ∈ m.live ↔ i < m.sources.length ∧ (m.source i).hasPeeked = true := by
  simp [live]

theorem nodup_live (m : MergingIterator) : m.live.Nodup :=
  List.nodup_range.filter _

/-! ## Sources -/

theorem source_setSource_self {i : Nat} (hi : i < m.sources.length) (s : IterSource) :
    (m.setSource i s).source i = s := by
  simp [setSource, source, List.getD_eq_getElem?_getD, hi]

theorem source_setSource_of_ne {i j : Nat} (hji : j ≠ i) (s : IterSource) :
    (m.setSource i s).source j = m.source j := by
  simp [setSource, source, List.getD_eq_getElem?_getD, List.getElem?_set_ne (Ne.symm hji)]

theorem source_peekSource {i : Nat} (hi : i < m.sources.length) :
    (m.peekSource i).source i = (m.source i).fill :=
  source_setSource_self hi _

theorem setSource_setSource (i : Nat) (s s' : IterSource) :
    (m.setSource i s).setSource i s' = m.setSource i s' := by
  simp [setSource, List.set_set]

@[simp] theorem length_setSource (i : Nat) (s : IterSource) :
    (m.setSource i s).sources.length = m.sources.length := by
  simp [setSource]

/-- A property of every source holds of `source i`, the default past the end included. -/
theorem source_of_forall {P : IterSource → Prop} (hall : ∀ s ∈ m.sources, P s) (hdefault : P default)
    (i : Nat) : P (m.source i) := by
  unfold source
  by_cases hi : i < m.sources.length
  · rw [List.getD_eq_getElem _ _ hi]
    exact hall _ (List.getElem_mem hi)
  · rw [List.getD_eq_default _ _ (Nat.le_of_not_lt hi)]
    exact hdefault

theorem forall_setSource {P : IterSource → Prop} (hall : ∀ s ∈ m.sources, P s) {s : IterSource}
    (hs : P s) (i : Nat) : ∀ s' ∈ (m.setSource i s).sources, P s' := by
  intro s' hs'
  rcases List.mem_or_eq_of_mem_set hs' with h | h
  · exact hall s' h
  · exact h ▸ hs

/-- Taking the head of source `i`'s rest leaves the rest of everything else. -/
theorem remaining_setSource {i : Nat} (hi : i < m.sources.length) {e : Bytes × Bytes}
    {s : IterSource} (hrest : (m.source i).rest = e :: s.rest) :
    List.Perm m.remaining (e :: (m.setSource i s).remaining) := by
  have hsplit : m.sources = m.sources.take i ++ m.sources[i] :: m.sources.drop (i + 1) := by
    simp
  have hset : (m.setSource i s).sources = m.sources.take i ++ s :: m.sources.drop (i + 1) := by
    simp [setSource, List.set_eq_take_append_cons_drop, hi]
  have hget : m.sources[i].rest = e :: s.rest := by
    rw [← hrest, source, List.getD_eq_getElem _ _ hi]
  unfold remaining
  rw [hset]
  conv_lhs => rw [hsplit]
  simp only [List.flatMap_append, List.flatMap_cons, hget, List.cons_append]
  exact List.perm_middle

/-! ## The order of sources -/

section Order

variable (hdir : m.direction = .forward)
include hdir

theorem sourceLess_asymm (a b : Nat) (h : m.sourceLess a b = true) : m.sourceLess b a = false := by
  unfold sourceLess at h ⊢
  rw [hdir] at h ⊢
  cases ha : (m.source a).hasPeeked <;> cases hb : (m.source b).hasPeeked <;> simp_all
  exact Std.OrientedCmp.not_lt_of_lt h

theorem sourceLess_negTrans (a b c : Nat) (h : m.sourceLess a c = true) :
    m.sourceLess a b = true ∨ m.sourceLess b c = true := by
  unfold sourceLess at h ⊢
  rw [hdir] at h ⊢
  cases ha : (m.source a).hasPeeked <;> cases hb : (m.source b).hasPeeked <;>
    cases hc : (m.source c).hasPeeked <;> simp only [ha, hc] at h ⊢ <;> try simp_all
  -- all three peeked: `b` not before `a` and `a` before `c` put `b` before `c`
  by_cases hab : compareInternalKey (m.source a).peekedKey (m.source b).peekedKey = .lt
  · exact .inl hab
  · have hba : (compareInternalKey (m.source b).peekedKey (m.source a).peekedKey).isLE :=
      Ordering.isLE_iff_ne_gt.mpr fun hgt => hab (Std.OrientedCmp.gt_iff_lt.mp hgt)
    exact .inr (Std.TransCmp.lt_of_isLE_of_lt hba h)

/-- Two peeked sources not out of order in the heap are in order by their peeked entries. -/
theorem keyLe_of_not_sourceLess {a b : Nat} (ha : (m.source a).hasPeeked = true)
    (hb : (m.source b).hasPeeked = true) (h : m.sourceLess a b = false) :
    KeyLe ((m.source b).peekedKey, (m.source b).peekedValue)
      ((m.source a).peekedKey, (m.source a).peekedValue) := by
  unfold sourceLess at h
  rw [hdir, ha, hb] at h
  -- `b`'s key after `a`'s would put `a`'s before `b`'s, which `h` denies
  intro hgt
  simp [Std.OrientedCmp.gt_iff_lt.mp hgt] at h

end Order

theorem sourceLess_setSource_of_ne {i a b : Nat} (ha : a ≠ i) (hb : b ≠ i) (s : IterSource) :
    (m.setSource i s).sourceLess a b = m.sourceLess a b := by
  simp only [sourceLess, source_setSource_of_ne ha, source_setSource_of_ne hb]
  rfl

/-! ## The heap operations as `Mmdb.BinaryHeap`'s -/

theorem siftTarget_eq (m : MergingIterator) (pos : Nat) :
    m.siftTarget pos = BinaryHeap.siftTarget m.sourceLess m.heapSize m.heap pos := rfl

theorem siftDown_eq (m : MergingIterator) (pos : Nat) :
    m.siftDown pos = { m with heap := BinaryHeap.siftDown m.sourceLess m.heapSize m.heap pos } := by
  induction m, pos using siftDown.induct with
  | case1 m pos hstop =>
    rw [siftDown, dif_pos hstop, BinaryHeap.siftDown, dif_pos (siftTarget_eq m pos ▸ hstop)]
  | case2 m pos hne ih =>
    rw [siftDown, dif_neg hne, ih]
    conv_rhs => rw [BinaryHeap.siftDown, dif_neg (siftTarget_eq m pos ▸ hne)]
    rfl

theorem foldl_siftDown (l : List Nat) (m : MergingIterator) :
    l.foldl (fun m i => m.siftDown i) m =
      { m with heap := l.foldl (BinaryHeap.siftDown m.sourceLess m.heapSize) m.heap } := by
  induction l generalizing m with
  | nil => rfl
  | cons i l ih =>
    rw [List.foldl_cons, List.foldl_cons, ih, siftDown_eq]
    rfl

@[simp] theorem sources_siftDown (m : MergingIterator) (pos : Nat) :
    (m.siftDown pos).sources = m.sources := by
  rw [siftDown_eq]

theorem popTop_of_pos (m : MergingIterator) (hpos : 0 < m.heapSize - 1) :
    m.popTop = { m with
      heapSize := m.heapSize - 1
      heap := BinaryHeap.siftDown m.sourceLess (m.heapSize - 1)
        (BinaryHeap.swap m.heap 0 (m.heapSize - 1)) 0 } := by
  unfold popTop
  dsimp only
  rw [if_pos hpos, siftDown_eq]
  rfl

theorem popTop_of_le (m : MergingIterator) (hle : m.heapSize ≤ 1) :
    m.popTop = { m with heapSize := m.heapSize - 1 } := by
  unfold popTop
  dsimp only
  rw [if_neg (by omega)]

@[simp] theorem sources_popTop (m : MergingIterator) : m.popTop.sources = m.sources := by
  by_cases hpos : 0 < m.heapSize - 1
  · rw [popTop_of_pos m hpos]
  · rw [popTop_of_le m (by omega)]

@[simp] theorem remaining_siftDown (m : MergingIterator) (pos : Nat) :
    (m.siftDown pos).remaining = m.remaining := by
  rw [remaining, sources_siftDown, remaining]

@[simp] theorem remaining_popTop (m : MergingIterator) : m.popTop.remaining = m.remaining := by
  rw [remaining, sources_popTop, remaining]

/-- A source that gave up its entry is peeked again, and stays in the heap or leaves it. -/
theorem afterTake_setSource {i : Nat} (hi : i < m.sources.length) (s : IterSource) :
    (m.setSource i s).afterTake i =
      if s.fill.hasPeeked then (m.setSource i s.fill).siftDown 0 else (m.setSource i s.fill).popTop := by
  unfold afterTake peekSource
  dsimp only
  rw [source_setSource_self hi, IterSource.peek_snd, setSource_setSource,
    source_setSource_self hi]

/-! ## Going forward with several sources -/

/-- What `init_heap` leaves going forward with several sources, and every `next_entry` keeps. -/
structure Merges (m : MergingIterator) : Prop where
  forward : m.direction = .forward
  initialized : m.initialized = true
  multi : m.singleSource = false
  filled : ∀ s ∈ m.sources, s.Filled
  sorted : ∀ s ∈ m.sources, s.rest.Pairwise KeyLe
  size_le : m.heapSize ≤ m.heap.length
  heap_live : List.Perm (m.heap.take m.heapSize) m.live
  ordered : BinaryHeap.OrderedFrom m.sourceLess m.heapSize m.heap 0

namespace Merges

variable (h : Merges m)
include h

theorem source_filled (i : Nat) : (m.source i).Filled :=
  source_of_forall h.filled (fun _ => rfl) i

theorem source_sorted (i : Nat) : (m.source i).rest.Pairwise KeyLe :=
  source_of_forall h.sorted List.Pairwise.nil i

theorem nodup_take : (m.heap.take m.heapSize).Nodup :=
  h.heap_live.nodup_iff.mpr m.nodup_live

/-- Every live source sits at a live position of the heap. -/
theorem exists_pos_of_mem_live {i : Nat} (hi : i ∈ m.live) :
    ∃ k, k < m.heapSize ∧ m.heap.getD k 0 = i := by
  obtain ⟨k, hk, hget⟩ := List.mem_iff_getElem.mp (h.heap_live.mem_iff.mpr hi)
  have hk' : k < m.heapSize := by rw [List.length_take] at hk; omega
  have hlen := h.size_le
  refine ⟨k, hk', ?_⟩
  rw [List.getD_eq_getElem _ _ (by omega), ← hget, List.getElem_take]

theorem mem_live_of_pos {k : Nat} (hk : k < m.heapSize) : m.heap.getD k 0 ∈ m.live := by
  apply h.heap_live.mem_iff.mp
  rw [List.getD_eq_getElem _ _ (by have := h.size_le; omega)]
  exact List.mem_iff_getElem.mpr ⟨k, by simp; have := h.size_le; omega, List.getElem_take⟩

/-- Below the root the heap holds other sources than the top. -/
theorem getD_ne_top {c : Nat} (hc : 0 < c) (hcs : c < m.heapSize) :
    m.heap.getD c 0 ≠ m.heap.getD 0 0 := by
  have hlen := h.size_le
  intro heq
  have hc' : c < (m.heap.take m.heapSize).length := by rw [List.length_take]; omega
  have h0 : 0 < (m.heap.take m.heapSize).length := by rw [List.length_take]; omega
  have htake : (m.heap.take m.heapSize)[c] = (m.heap.take m.heapSize)[0] := by
    rw [List.getElem_take, List.getElem_take]
    rwa [List.getD_eq_getElem _ _ (by omega), List.getD_eq_getElem _ _ (by omega)] at heq
  exact absurd ((h.nodup_take.getElem_inj_iff).mp htake) (Nat.ne_of_gt hc)

/-- An entry left sits in a source that has peeked. -/
theorem exists_source_of_mem_remaining {x : Bytes × Bytes} (hx : x ∈ m.remaining) :
    ∃ j, j ∈ m.live ∧ x ∈ (m.source j).rest := by
  obtain ⟨s, hs, hxs⟩ := List.mem_flatMap.mp hx
  obtain ⟨j, hj, rfl⟩ := List.mem_iff_getElem.mp hs
  have hsrc : m.source j = m.sources[j] := by rw [source, List.getD_eq_getElem _ _ hj]
  rw [← hsrc] at hxs
  have hpeek : (m.source j).hasPeeked = true := by
    cases hp : (m.source j).hasPeeked with
    | true => rfl
    | false => simp [h.source_filled j hp] at hxs
  exact ⟨j, mem_live.mpr ⟨hj, hpeek⟩, hxs⟩

theorem pos_heapSize_iff : 0 < m.heapSize ↔ m.remaining ≠ [] := by
  constructor
  · intro hn hnil
    have htop := mem_live.mp (h.mem_live_of_pos hn)
    have hrest := IterSource.rest_of_hasPeeked htop.2
    have hmem : (m.source (m.heap.getD 0 0)).rest ⊆ m.remaining := by
      intro x hx
      exact List.mem_flatMap.mpr ⟨_, by
        rw [source, List.getD_eq_getElem _ _ htop.1]; exact List.getElem_mem htop.1, hx⟩
    rw [hnil] at hmem
    exact List.not_mem_nil (hmem (by rw [hrest]; exact List.mem_cons_self))
  · intro hne
    obtain ⟨x, hx⟩ := List.exists_mem_of_ne_nil _ hne
    obtain ⟨j, hj, -⟩ := h.exists_source_of_mem_remaining hx
    obtain ⟨k, hk, -⟩ := h.exists_pos_of_mem_live hj
    omega

/-- The top's peeked entry goes before everything the sources have left. -/
theorem top_le (hn : 0 < m.heapSize) :
    ∀ x ∈ m.remaining, KeyLe ((m.source (m.heap.getD 0 0)).peekedKey,
      (m.source (m.heap.getD 0 0)).peekedValue) x := by
  intro x hx
  obtain ⟨j, hj, hxs⟩ := h.exists_source_of_mem_remaining hx
  have hpeek := (mem_live.mp hj).2
  -- the root is not after source `j`'s peeked entry, which is not after `x`
  obtain ⟨k, hk, hkj⟩ := h.exists_pos_of_mem_live hj
  have hroot := BinaryHeap.not_less_root (sourceLess_asymm h.forward) (sourceLess_negTrans h.forward)
    h.ordered k hk
  rw [hkj] at hroot
  have htop := (mem_live.mp (h.mem_live_of_pos hn)).2
  refine (keyLe_of_not_sourceLess h.forward hpeek htop hroot).trans ?_
  have hsorted := h.source_sorted j
  rw [IterSource.rest_of_hasPeeked hpeek] at hxs hsorted
  rcases List.mem_cons.mp hxs with rfl | hx'
  · exact KeyLe.refl _
  · exact List.rel_of_pairwise_cons hsorted hx'

/-- A new source at the top compares as before with every source below the root. -/
theorem sourceLess_setSource_top (s : IterSource) (c : Nat) (hc : 0 < c) (hcs : c < m.heapSize)
    (hp : 0 < BinaryHeap.parent c) :
    (m.setSource (m.heap.getD 0 0) s).sourceLess (m.heap.getD c 0)
        (m.heap.getD (BinaryHeap.parent c) 0) =
      m.sourceLess (m.heap.getD c 0) (m.heap.getD (BinaryHeap.parent c) 0) :=
  sourceLess_setSource_of_ne (h.getD_ne_top hc hcs)
    (h.getD_ne_top hp (Nat.lt_trans (BinaryHeap.parent_lt hc) hcs)) s

/-- A new source at the top, and a heap over the live sources that `sift_down` can restore from
the root, keep `Merges`. -/
theorem siftDown_setSource_top {s : IterSource} (hf : s.Filled) (hs : s.rest.Pairwise KeyLe)
    {n : Nat} {heap : List Nat} (hsize : n ≤ heap.length)
    (hlive : List.Perm (heap.take n) (m.setSource (m.heap.getD 0 0) s).live)
    (hdown : BinaryHeap.DownOrder (m.setSource (m.heap.getD 0 0) s).sourceLess n heap 0 0) :
    Merges { m.setSource (m.heap.getD 0 0) s with
      heapSize := n
      heap := BinaryHeap.siftDown (m.setSource (m.heap.getD 0 0) s).sourceLess n heap 0 } :=
  ⟨h.forward, h.initialized, h.multi, forall_setSource h.filled hf _, forall_setSource h.sorted hs _,
    by rw [BinaryHeap.length_siftDown]; exact hsize,
    (BinaryHeap.perm_siftDown hsize 0).trans hlive,
    BinaryHeap.orderedFrom_siftDown (sourceLess_asymm (m := m.setSource (m.heap.getD 0 0) s) h.forward)
      (sourceLess_negTrans (m := m.setSource (m.heap.getD 0 0) s) h.forward) hsize hdown⟩

/-- The top source, still peeked after giving up its entry, sifts down. -/
theorem siftDown_top (hn : 0 < m.heapSize) {s : IterSource} (hf : s.Filled)
    (hs : s.rest.Pairwise KeyLe) (hp : s.hasPeeked = true) :
    Merges ((m.setSource (m.heap.getD 0 0) s).siftDown 0) := by
  have htop := mem_live.mp (h.mem_live_of_pos hn)
  have hlive : (m.setSource (m.heap.getD 0 0) s).live = m.live := by
    unfold MergingIterator.live
    rw [length_setSource]
    refine List.filter_congr fun i _ => ?_
    by_cases hi : i = m.heap.getD 0 0
    · rw [hi, source_setSource_self htop.1, hp, htop.2]
    · rw [source_setSource_of_ne hi]
  have hdown := @BinaryHeap.downOrder_root m.sourceLess (m.setSource (m.heap.getD 0 0) s).sourceLess
    m.heapSize m.heap h.ordered (h.sourceLess_setSource_top s)
  rw [siftDown_eq]
  exact h.siftDown_setSource_top hf hs h.size_le (hlive ▸ h.heap_live) hdown

/-- The top source, empty after giving up its entry, leaves the heap. -/
theorem popTop_top (hn : 0 < m.heapSize) {s : IterSource} (hf : s.Filled)
    (hs : s.rest.Pairwise KeyLe) (hp : s.hasPeeked = false) :
    Merges (m.setSource (m.heap.getD 0 0) s).popTop := by
  have htop := mem_live.mp (h.mem_live_of_pos hn)
  have hlen := h.size_le
  set m' := m.setSource (m.heap.getD 0 0) s with hm'
  -- the live sources after, with the top after them, are those before
  have hlive : List.Perm (m'.live ++ [m.heap.getD 0 0]) m.live := by
    have hmem : m.heap.getD 0 0 ∈ m.live := h.mem_live_of_pos hn
    have herase : m'.live = m.live.erase (m.heap.getD 0 0) := by
      rw [(nodup_live m).erase_eq_filter, MergingIterator.live, MergingIterator.live, length_setSource,
        List.filter_filter]
      refine List.filter_congr fun i _ => ?_
      by_cases hi : i = m.heap.getD 0 0
      · rw [hi, source_setSource_self htop.1, hp]
        simp
      · rw [source_setSource_of_ne hi, bne_iff_ne.mpr hi, Bool.true_and]
    rw [herase]
    exact (List.perm_append_singleton _ _).trans (List.perm_cons_erase hmem).symm
  by_cases hpos : 0 < m'.heapSize - 1
  · rw [popTop_of_pos m' hpos]
    have hsame : ∀ c, 0 < c → c < m.heapSize - 1 → 0 < BinaryHeap.parent c →
        m'.sourceLess (m.heap.getD c 0) (m.heap.getD (BinaryHeap.parent c) 0) =
          m.sourceLess (m.heap.getD c 0) (m.heap.getD (BinaryHeap.parent c) 0) :=
      fun c hc hcs hpc => h.sourceLess_setSource_top s c hc (by omega) hpc
    have hdown := BinaryHeap.downOrder_pop h.ordered hlen hsame
    have hperm : List.Perm ((BinaryHeap.swap m.heap 0 (m.heapSize - 1)).take (m.heapSize - 1))
        m'.live :=
      (List.perm_append_right_iff _).mp ((BinaryHeap.take_pop_perm hn hlen).trans
        (h.heap_live.trans hlive.symm))
    have hsize : m.heapSize - 1 ≤ (BinaryHeap.swap m.heap 0 (m.heapSize - 1)).length := by
      rw [BinaryHeap.length_swap]
      omega
    exact h.siftDown_setSource_top hf hs hsize hperm hdown
  · -- one source was live: none is left
    rw [popTop_of_le m' (by omega)]
    have hone : m.heapSize = 1 := by
      have : m'.heapSize = m.heapSize := rfl
      omega
    have hnil : m'.live = [] := by
      have hlen' := (hlive.trans h.heap_live.symm).length_eq
      rw [List.length_append, List.length_singleton, List.length_take, hone] at hlen'
      exact List.length_eq_zero_iff.mp (by omega)
    refine ⟨h.forward, h.initialized, h.multi, forall_setSource h.filled hf _,
      forall_setSource h.sorted hs _, Nat.le_trans (Nat.sub_le _ _) hlen, ?_,
      BinaryHeap.orderedFrom_of_half_le _ (by show (m.heapSize - 1) / 2 ≤ 0; omega)⟩
    show List.Perm (m.heap.take (m.heapSize - 1)) m'.live
    rw [hone, hnil]
    exact List.Perm.refl _

theorem withCurrentKey (k : Bytes) : Merges { m with currentKey := k } :=
  ⟨h.forward, h.initialized, h.multi, h.filled, h.sorted, h.size_le, h.heap_live, h.ordered⟩

/-- `next_entry` going forward with several sources, the heap built. -/
theorem nextEntry_eq : m.nextEntry =
    if m.heapSize = 0 then (none, m)
    else
      match (m.source (m.heap.getD 0 0)).takePeeked with
      | (none, s) => (none, m.setSource (m.heap.getD 0 0) s)
      | (some entry, s) => (some entry, { m.setSource (m.heap.getD 0 0) s with
          currentKey := entry.1 }.afterTake (m.heap.getD 0 0)) := by
  have hdir : ¬(m.direction ≠ .forward) := not_not.mpr h.forward
  unfold nextEntry
  dsimp only
  rewrite [if_neg hdir, if_neg (show ¬(m.singleSource = true) by simp [h.multi]), initHeap,
    if_pos h.initialized]
  rfl

/-- **The step of the loop**: `next_entry` returns an entry that nothing left goes before. -/
theorem nextEntry_some (hne : m.remaining ≠ []) :
    ∃ e m', m.nextEntry = (some e, m') ∧ Merges m' ∧ List.Perm m.remaining (e :: m'.remaining) ∧
      ∀ x ∈ m'.remaining, KeyLe e x := by
  have hn := h.pos_heapSize_iff.mpr hne
  have htop := mem_live.mp (h.mem_live_of_pos hn)
  set s₀ := m.source (m.heap.getD 0 0) with hs₀
  set s₁ : IterSource := { s₀ with hasPeeked := false, peekedKey := [], peekedValue := [] }
  -- the top's entry leaves its source, which is peeked again
  have hrest : s₀.rest = (s₀.peekedKey, s₀.peekedValue) :: s₁.fill.rest := by
    rw [IterSource.rest_fill, IterSource.rest_of_hasPeeked htop.2]
    rfl
  have hsorted : s₁.fill.rest.Pairwise KeyLe := by
    have hsrc := h.source_sorted (m.heap.getD 0 0)
    rw [← hs₀, hrest] at hsrc
    exact hsrc.of_cons
  have h₀ : Merges { m with currentKey := s₀.peekedKey } := h.withCurrentKey _
  have hstep : Merges (if s₁.fill.hasPeeked
      then ({ m with currentKey := s₀.peekedKey }.setSource (m.heap.getD 0 0) s₁.fill).siftDown 0
      else ({ m with currentKey := s₀.peekedKey }.setSource (m.heap.getD 0 0) s₁.fill).popTop) := by
    split_ifs with hp
    · exact h₀.siftDown_top hn (IterSource.filled_fill s₁) hsorted hp
    · exact h₀.popTop_top hn (IterSource.filled_fill s₁) hsorted (by simpa using hp)
  have hrem : (if s₁.fill.hasPeeked
      then ({ m with currentKey := s₀.peekedKey }.setSource (m.heap.getD 0 0) s₁.fill).siftDown 0
      else ({ m with currentKey := s₀.peekedKey }.setSource (m.heap.getD 0 0) s₁.fill).popTop).remaining =
        (m.setSource (m.heap.getD 0 0) s₁.fill).remaining := by
    split_ifs <;> simp only [remaining_siftDown, remaining_popTop] <;> rfl
  have hperm := remaining_setSource htop.1 hrest
  refine ⟨_, _, ?_, hstep, hrem ▸ hperm, fun x hx => h.top_le hn x ?_⟩
  · rw [h.nextEntry_eq, if_neg (by omega), IterSource.takePeeked_eq_of_hasPeeked htop.2]
    exact congrArg _ (afterTake_setSource (m := { m with currentKey := s₀.peekedKey }) htop.1 s₁)
  · rw [hrem] at hx
    exact hperm.symm.subset (List.mem_cons_of_mem _ hx)

/-- With nothing left `next_entry` returns nothing. -/
theorem nextEntry_none (hnil : m.remaining = []) : m.nextEntry.1 = none := by
  have hn : m.heapSize = 0 := by
    by_contra hne
    exact (h.pos_heapSize_iff.mp (Nat.pos_of_ne_zero hne)) hnil
  rw [h.nextEntry_eq, if_pos hn]

end Merges

/-! ## Building the heap -/

theorem initHeap_of_initialized (hinit : m.initialized = true) : m.initHeap = m := by
  rw [initHeap, if_pos hinit]

/-- What `init_heap` builds from a state that has not built it. -/
theorem initHeap_of_not_initialized (hinit : m.initialized = false) :
    ∃ heap : List Nat, m.initHeap =
      { m with
        initialized := true
        sources := m.sources.map fun (s : IterSource) => s.peek.2
        heap := heap
        heapSize := ((List.range (m.sources.map fun (s : IterSource) => s.peek.2).length).filter
          fun i => ((m.sources.map fun (s : IterSource) => s.peek.2).getD i default).hasPeeked).length } := by
  unfold initHeap
  rw [if_neg (by simp [hinit])]
  dsimp only
  split
  · exact ⟨_, foldl_siftDown _ _⟩
  · exact ⟨_, rfl⟩

/-- `init_heap` raises the flag and keeps the direction and the one-source mode. -/
theorem initHeap_keeps (m : MergingIterator) :
    m.initHeap.direction = m.direction ∧ m.initHeap.singleSource = m.singleSource ∧
      m.initHeap.initialized = true := by
  cases hinit : m.initialized
  · obtain ⟨heap, hbuilt⟩ := initHeap_of_not_initialized hinit
    rw [hbuilt]
    exact ⟨rfl, rfl, rfl⟩
  · rw [initHeap_of_initialized hinit]
    exact ⟨rfl, rfl, hinit⟩

@[simp] theorem direction_initHeap (m : MergingIterator) : m.initHeap.direction = m.direction :=
  (initHeap_keeps m).1

@[simp] theorem singleSource_initHeap (m : MergingIterator) :
    m.initHeap.singleSource = m.singleSource :=
  (initHeap_keeps m).2.1

@[simp] theorem initialized_initHeap (m : MergingIterator) : m.initHeap.initialized = true :=
  (initHeap_keeps m).2.2

/-- `next_entry` builds the heap first, so building it before changes nothing. -/
theorem nextEntry_initHeap (hdir : m.direction = .forward) (hmulti : m.singleSource = false) :
    m.initHeap.nextEntry = m.nextEntry := by
  simp only [nextEntry, direction_initHeap, hdir, ne_eq, not_true_eq_false, if_false,
    singleSource_initHeap, hmulti, Bool.false_eq_true,
    initHeap_of_initialized (initialized_initHeap m)]

/-- **`init_heap` builds the heap**: going forward with several sorted sources, it reaches
`Merges`, with every source's entries still to give. -/
theorem merges_initHeap (hdir : m.direction = .forward) (hmulti : m.singleSource = false)
    (hinit : m.initialized = false) (hsorted : ∀ s ∈ m.sources, s.rest.Pairwise KeyLe) :
    Merges m.initHeap ∧ m.initHeap.remaining = m.remaining := by
  set sources := m.sources.map fun s => s.peek.2 with hsources
  set valid := (List.range sources.length).filter fun i => (sources.getD i default).hasPeeked
  set m₀ : MergingIterator :=
    { m with initialized := true, sources := sources, heap := valid, heapSize := valid.length }
  have hbuilt : m.initHeap = if m₀.heapSize > 1 then
      (List.range (m₀.heapSize / 2 - 1 + 1)).reverse.foldl (fun m i => m.siftDown i) m₀ else m₀ := by
    unfold initHeap
    rw [if_neg (by simp [hinit])]
  have hrem : m₀.remaining = m.remaining := by
    simp [m₀, remaining, hsources, IterSource.peek_snd, List.flatMap_map]
  have hfilled : ∀ s ∈ m₀.sources, s.Filled := by
    intro s hs
    obtain ⟨s', -, rfl⟩ := List.mem_map.mp hs
    exact IterSource.filled_fill s'
  have hsorted₀ : ∀ s ∈ m₀.sources, s.rest.Pairwise KeyLe := by
    intro s hs
    obtain ⟨s', hs', rfl⟩ := List.mem_map.mp hs
    rw [IterSource.peek_snd, IterSource.rest_fill]
    exact hsorted s' hs'
  have hlive : List.Perm (m₀.heap.take m₀.heapSize) m₀.live := by
    rw [List.take_length]
    exact List.Perm.refl _
  -- the heap is ordered from `heapSize / 2` on, where no position has a child
  by_cases hbig : m₀.heapSize > 1
  · rw [hbuilt, if_pos hbig, foldl_siftDown]
    obtain ⟨hord, hperm⟩ := BinaryHeap.orderedFrom_foldl_siftDown
      (sourceLess_asymm (m := m₀) hdir) (sourceLess_negTrans (m := m₀) hdir)
      (m₀.heapSize / 2 - 1 + 1) (Nat.le_refl m₀.heapSize)
      (BinaryHeap.orderedFrom_of_half_le m₀.heap (by omega))
    refine ⟨⟨hdir, rfl, hmulti, hfilled, hsorted₀, ?_, hperm.trans hlive, hord⟩, hrem⟩
    rw [BinaryHeap.length_foldl_siftDown]
  · rw [hbuilt, if_neg hbig]
    exact ⟨⟨hdir, rfl, hmulti, hfilled, hsorted₀, Nat.le_refl _, hlive,
      BinaryHeap.orderedFrom_of_half_le _ (by omega)⟩, hrem⟩

/-! ## One source -/

/-- A merging iterator over one sorted source going forward. -/
structure Single (m : MergingIterator) : Prop where
  forward : m.direction = .forward
  single : m.singleSource = true
  one : m.sources.length = 1
  sorted : (m.source 0).rest.Pairwise KeyLe

theorem remaining_of_length_one (hone : m.sources.length = 1) : m.remaining = (m.source 0).rest := by
  obtain ⟨s, hs⟩ := List.length_eq_one_iff.mp hone
  simp [remaining, source, hs]

namespace Single

variable (h : Single m)
include h

/-- Peeking the source first, when `next_entry` has not run yet, leaves it as it was. -/
theorem start : Single (if m.initialized then m else { m with initialized := true }.peekSource 0) ∧
    ((if m.initialized then m else { m with initialized := true }.peekSource 0).source 0).rest =
      (m.source 0).rest := by
  split
  · exact ⟨h, rfl⟩
  · have hsrc : ({ m with initialized := true }.peekSource 0).source 0 = (m.source 0).fill :=
      source_setSource_self (m := { m with initialized := true }) (by simp [h.one]) _
    refine ⟨⟨h.forward, h.single, by simp [peekSource, h.one], ?_⟩, ?_⟩ <;>
      rw [hsrc, IterSource.rest_fill]
    exact h.sorted

theorem nextEntry_eq : m.nextEntry =
    let m := if m.initialized then m else { m with initialized := true }.peekSource 0
    match (m.source 0).takePeeked with
    | (none, s) => (none, m.setSource 0 s)
    | (some entry, s) => (some entry, { m.setSource 0 s with currentKey := entry.1 }.peekSource 0) := by
  have hdir : ¬(m.direction ≠ .forward) := not_not.mpr h.forward
  unfold nextEntry
  dsimp only
  rewrite [if_neg hdir, if_pos h.single]
  rfl

/-- The step of the loop over one source: its next entry. -/
theorem nextEntry_some (hne : m.remaining ≠ []) :
    ∃ e m', m.nextEntry = (some e, m') ∧ Single m' ∧ List.Perm m.remaining (e :: m'.remaining) ∧
      ∀ x ∈ m'.remaining, KeyLe e x := by
  obtain ⟨h₁, hrest₁⟩ := h.start
  rw [h.nextEntry_eq]
  generalize (if m.initialized then m else { m with initialized := true }.peekSource 0) = m₁ at h₁ hrest₁ ⊢
  dsimp only
  have hsplit := IterSource.rest_takePeeked (m₁.source 0)
  rcases ht : (m₁.source 0).takePeeked with ⟨_ | e, s⟩
  · refine absurd ?_ hne
    rw [remaining_of_length_one h.one, ← hrest₁]
    exact IterSource.rest_eq_nil_of_takePeeked (by rw [ht])
  · rw [ht] at hsplit
    have hlen : 0 < m₁.sources.length := by rw [h₁.one]; exact Nat.one_pos
    set m₂ : MergingIterator := { m₁.setSource 0 s with currentKey := e.1 }
    have hlen₂ : 0 < m₂.sources.length := by simp [m₂, hlen]
    -- the source, its entry taken, is peeked again
    have hsrc : (m₂.peekSource 0).source 0 = s.fill := by
      rw [source_peekSource hlen₂]
      exact congrArg IterSource.fill (source_setSource_self hlen s)
    have hone : (m₂.peekSource 0).sources.length = 1 := by
      simp [peekSource, m₂, h₁.one]
    have hsorted := h₁.sorted
    rw [hsplit] at hsorted
    have hrem : (m₂.peekSource 0).remaining = s.rest := by
      rw [remaining_of_length_one hone, hsrc, IterSource.rest_fill]
    refine ⟨e, _, rfl, ⟨h₁.forward, h₁.single, hone, ?_⟩, ?_, ?_⟩
    · rw [hsrc, IterSource.rest_fill]
      exact hsorted.of_cons
    · rw [remaining_of_length_one h.one, ← hrest₁, hsplit, hrem]
      exact List.Perm.refl _
    · rw [hrem]
      exact fun x hx => List.rel_of_pairwise_cons hsorted hx

/-- With nothing left `next_entry` returns nothing. -/
theorem nextEntry_none (hnil : m.remaining = []) : m.nextEntry.1 = none := by
  obtain ⟨-, hrest₁⟩ := h.start
  rw [h.nextEntry_eq]
  generalize (if m.initialized then m else { m with initialized := true }.peekSource 0) = m₁ at hrest₁ ⊢
  dsimp only
  have hsplit := IterSource.rest_takePeeked (m₁.source 0)
  rw [hrest₁, ← remaining_of_length_one h.one, hnil] at hsplit
  rcases ht : (m₁.source 0).takePeeked with ⟨_ | e, s⟩
  · rfl
  · rw [ht] at hsplit
    simp at hsplit

end Single

/-! ## The loop -/

/-- **The loop over the heap**: from `MergingIterator::new`, or any state going forward that has
not built its heap, `next_entry` returns everything the sources hold, in internal-key order. -/
theorem drain_sorted_perm (hdir : m.direction = .forward)
    (hsingle : m.singleSource = (m.sources.length == 1))
    (hfresh : m.singleSource = false → m.initialized = false)
    (hsorted : ∀ s ∈ m.sources, s.rest.Pairwise KeyLe) {fuel : Nat}
    (hfuel : m.remaining.length < fuel) :
    (BinaryHeap.drain nextEntry fuel m).Pairwise KeyLe ∧
      List.Perm (BinaryHeap.drain nextEntry fuel m) m.remaining := by
  cases hs : m.singleSource with
  | false =>
    -- several sources: the first `next_entry` builds the heap
    obtain ⟨hm, hrem⟩ := merges_initHeap hdir hs (hfresh hs) hsorted
    rw [BinaryHeap.drain_congr nextEntry (nextEntry_initHeap hdir hs).symm fuel, ← hrem]
    exact BinaryHeap.drain_spec Merges remaining KeyLe (fun _ hq hnil => hq.nextEntry_none hnil)
      (fun _ hq hne => hq.nextEntry_some hne) fuel _ hm (hrem ▸ hfuel)
  | true =>
    have hone : m.sources.length = 1 := by simpa [hs] using hsingle
    exact BinaryHeap.drain_spec Single remaining KeyLe (fun _ hq hnil => hq.nextEntry_none hnil)
      (fun _ hq hne => hq.nextEntry_some hne) fuel m
      ⟨hdir, hs, hone, source_of_forall hsorted List.Pairwise.nil 0⟩ hfuel

/-- A `seek` is followed by the same loop as a state that has not built its heap. -/
theorem drain_seek_eq (m : MergingIterator) (target : Bytes) (fuel : Nat) :
    BinaryHeap.drain nextEntry fuel (m.seek target) =
      BinaryHeap.drain nextEntry fuel { m with
        direction := .forward
        sources := m.sources.map fun (s : IterSource) => s.seekTo target
        currentKey := []
        initialized := m.singleSource } := by
  unfold seek
  dsimp only
  cases hs : m.singleSource with
  | true => rfl
  | false =>
    simp only [Bool.false_eq_true, if_false]
    exact BinaryHeap.drain_congr nextEntry (nextEntry_initHeap rfl rfl) fuel

/-! ## Against the stream model -/

/-- Two lists in internal-key order with the same entries, no key twice, are one list. -/
theorem eq_of_perm_of_keyLe {D F : List (Bytes × Bytes)} (hD : D.Pairwise KeyLe)
    (hF : F.Pairwise KeyLe) (hperm : List.Perm D F) (hkeys : (F.map Prod.fst).Nodup) : D = F :=
  hperm.eq_of_pairwise (fun _ _ ha hb hab hba =>
    List.inj_on_of_nodup_map hkeys (hperm.subset ha) hb (KeyLe.key_eq hab hba)) hD hF

/-- The loop returns a list in internal-key order with the sources' entries and no key twice. -/
theorem drain_eq_of_perm (hdir : m.direction = .forward)
    (hsingle : m.singleSource = (m.sources.length == 1))
    (hfresh : m.singleSource = false → m.initialized = false)
    (hsorted : ∀ s ∈ m.sources, s.rest.Pairwise KeyLe) {fuel : Nat}
    (hfuel : m.remaining.length < fuel) {F : List (Bytes × Bytes)} (hF : F.Pairwise KeyLe)
    (hperm : List.Perm F m.remaining) (hkeys : (F.map Prod.fst).Nodup) :
    BinaryHeap.drain nextEntry fuel m = F := by
  obtain ⟨hD, hDperm⟩ := drain_sorted_perm hdir hsingle hfresh hsorted hfuel
  exact eq_of_perm_of_keyLe hD hF (hDperm.trans hperm.symm) hkeys

/-- The stream model's merged entries, as the heap returns them: in internal-key order, and the
sources' entries. -/
theorem future_new_sorted_perm (sources : List (List (Bytes × Bytes))) :
    ((Mmdb.MergingIterator.new (sources.map (Mmdb.IterSource.mk none))).future.map
        fun e => (e.key, e.value)).Pairwise KeyLe ∧
      List.Perm ((Mmdb.MergingIterator.new (sources.map (Mmdb.IterSource.mk none))).future.map
        fun e => (e.key, e.value)) sources.flatten := by
  refine ⟨(Mmdb.MergingIterator.pairwise_new _).map _ fun _ _ h => h, ?_⟩
  refine ((List.perm_insertionSort _ _).map _).trans (List.Perm.of_eq ?_)
  simp [List.map_flatten, Function.comp_def]

theorem sorted_new {sources : List (List (Bytes × Bytes))}
    (hsorted : ∀ es ∈ sources, es.Pairwise KeyLe) :
    ∀ s ∈ (sources.map IterSource.new), s.rest.Pairwise KeyLe := by
  intro s hs
  obtain ⟨es, hes, rfl⟩ := List.mem_map.mp hs
  rw [IterSource.rest_new]
  exact hsorted es hes

theorem remaining_new (sources : List (List (Bytes × Bytes))) :
    (new (sources.map IterSource.new)).remaining = sources.flatten := by
  simp [remaining, new, List.flatMap_map]

/-- **The heap merges as the stream model says**: from `MergingIterator::new` over sorted
sources with no internal key twice, the loop returns the model's merged stream. -/
theorem drain_new (sources : List (List (Bytes × Bytes)))
    (hsorted : ∀ es ∈ sources, es.Pairwise KeyLe) (hkeys : (sources.flatten.map Prod.fst).Nodup)
    {fuel : Nat} (hfuel : sources.flatten.length < fuel) :
    BinaryHeap.drain nextEntry fuel (new (sources.map IterSource.new)) =
      (Mmdb.MergingIterator.new (sources.map (Mmdb.IterSource.mk none))).future.map
        fun e => (e.key, e.value) := by
  obtain ⟨hF, hFperm⟩ := future_new_sorted_perm sources
  have hrem := remaining_new sources
  exact drain_eq_of_perm rfl rfl (fun _ => rfl) (sorted_new hsorted) (hrem ▸ hfuel) hF
    (hrem ▸ hFperm) ((hFperm.map Prod.fst).nodup_iff.mpr hkeys)

/-- **After a `seek` too**: the loop returns the model's stream from the first entry at or after
the target. -/
theorem drain_seek (sources : List (List (Bytes × Bytes)))
    (hsorted : ∀ es ∈ sources, es.Pairwise KeyLe) (hkeys : (sources.flatten.map Prod.fst).Nodup)
    (target : Bytes) {fuel : Nat} (hfuel : sources.flatten.length < fuel) :
    BinaryHeap.drain nextEntry fuel ((new (sources.map IterSource.new)).seek target) =
      ((Mmdb.MergingIterator.new (sources.map (Mmdb.IterSource.mk none))).seek target).future.map
        fun e => (e.key, e.value) := by
  -- both sides keep the entries not before the target, a suffix of each sorted list
  set before : Bytes × Bytes → Bool := fun e => compareInternalKey e.1 target == .lt
  have hdown : ∀ a b, KeyLe a b → before b = true → before a = true := by
    intro a b hab hb
    simp only [before, beq_iff_eq] at hb ⊢
    exact Std.TransCmp.lt_of_isLE_of_lt (Ordering.isLE_iff_ne_gt.mpr hab) hb
  obtain ⟨hF, hFperm⟩ := future_new_sorted_perm sources
  set F := (Mmdb.MergingIterator.new (sources.map (Mmdb.IterSource.mk none))).future.map
    fun e => (e.key, e.value)
  have hstream : ((Mmdb.MergingIterator.new (sources.map (Mmdb.IterSource.mk none))).seek
      target).future.map (fun e => (e.key, e.value)) = F.filter fun e => !before e := by
    rw [← hF.dropWhile_eq_filter hdown, List.dropWhile_map]
    rfl
  have hrem : ({ new (sources.map IterSource.new) with
      direction := .forward
      sources := (new (sources.map IterSource.new)).sources.map fun (s : IterSource) => s.seekTo target
      currentKey := []
      initialized := (new (sources.map IterSource.new)).singleSource } : MergingIterator).remaining =
        sources.flatten.filter fun e => !before e := by
    simp only [remaining, new, List.map_map, Function.comp_def, IterSource.rest_seekTo,
      List.filter_flatten, List.flatMap_def]
    congr 1
    exact List.map_congr_left fun es hes => (hsorted es hes).dropWhile_eq_filter hdown
  have hsorted' : ∀ s ∈ (sources.map IterSource.new).map (fun (s : IterSource) => s.seekTo target),
      s.rest.Pairwise KeyLe := by
    intro s hs
    obtain ⟨es, hes, rfl⟩ := List.mem_map.mp (by simpa [List.map_map] using hs)
    rw [IterSource.rest_seekTo]
    exact (hsorted es hes).sublist (List.dropWhile_sublist _)
  rw [drain_seek_eq, hstream]
  refine drain_eq_of_perm rfl (by simp [new]) (fun h => h) hsorted' ?_ (hF.filter _)
    (hrem ▸ hFperm.filter _) ?_
  · rw [hrem]
    exact Nat.lt_of_le_of_lt (List.length_filter_le _ _) hfuel
  · exact ((hFperm.filter _).map Prod.fst).nodup_iff.mpr
      (hkeys.sublist ((List.filter_sublist).map _))

end MergingIterator

end Heap

end Mmdb
