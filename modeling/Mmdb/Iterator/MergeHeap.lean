import Mmdb.Iterator.Merge
import Mmdb.Lib.BinarySearch

/-!
# The merging iterator's heap

`src/iterator/merge.rs` and `src/iterator/source.rs` as the code runs them. `Mmdb.MergingIterator`
(`Mmdb.Iterator.Merge`) is the merged stream the heap stands for; here is the heap itself. Each
`IterSource` keeps a one-entry peek buffer in front of its inner iterator, and the heap holds the
indices of the sources that have a peeked entry, ordered by it: the smallest on top going
forward, the largest going backward.

Of the kinds of `IterSourceInner` the `Vec` kind is modelled, a vector of entries and `pos`, one
past the peeked entry. Its position never passes the end (`pos_le`), so each of its reads is in
bounds.

**What goes wrong** (`prevEntry_seekForPrev_of_after`): `seek_for_prev(t)` leaves a `Vec` source
that holds nothing at or before `t` unpeeked at its old position, and the `init_heap` that follows
peeks every source *forward*. A source that has not reached its end then offers its entry after
`t` to the backward heap, and the first `prev_entry` returns it.
-/

namespace Mmdb

namespace Heap

/-- `IterSource` with a `Vec` inner iterator: its entries and `pos`, the peek buffer, and the
level it is tagged with (`none` for the source's `usize::MAX`). -/
structure IterSource where
  entries : List (Bytes × Bytes)
  pos : Nat
  peekedKey : Bytes
  peekedValue : Bytes
  hasPeeked : Bool
  level : Option Nat
  pos_le : pos ≤ entries.length

instance : Inhabited IterSource := ⟨⟨[], 0, [], [], false, none, Nat.le_refl 0⟩⟩

namespace IterSource

/-- `IterSource::new`. -/
def new (entries : List (Bytes × Bytes)) : IterSource :=
  ⟨entries, 0, [], [], false, none, Nat.zero_le _⟩

/-- `with_level`. -/
def withLevel (s : IterSource) (level : Nat) : IterSource := { s with level := some level }

/-- `advance_into_buffers`: load the entry at `pos` and step past it. -/
def advanceIntoBuffers (s : IterSource) : Bool × IterSource :=
  if h : s.pos < s.entries.length then
    let e := s.entries.get ⟨s.pos, h⟩
    (true, { s with peekedKey := e.1, peekedValue := e.2, pos := s.pos + 1, pos_le := h })
  else (false, s)

/-- `reverse_advance_into_buffers`: load the entry before the peeked one. -/
def reverseAdvanceIntoBuffers (s : IterSource) : Bool × IterSource :=
  if h : 2 ≤ s.pos then
    let e := s.entries.get ⟨s.pos - 2, by have := s.pos_le; omega⟩
    (true, { s with
      peekedKey := e.1
      peekedValue := e.2
      pos := s.pos - 2 + 1
      pos_le := by have := s.pos_le; omega })
  else (false, s)

/-- The `if !self.has_peeked { self.has_peeked = self.advance_into_buffers(); }` that opens
`peek` and `take_peeked`. -/
def fill (s : IterSource) : IterSource :=
  if s.hasPeeked then s
  else
    let r := s.advanceIntoBuffers
    { r.2 with hasPeeked := r.1 }

/-- `peek`. -/
def peek (s : IterSource) : Option (Bytes × Bytes) × IterSource :=
  let s := s.fill
  (if s.hasPeeked then some (s.peekedKey, s.peekedValue) else none, s)

/-- `take_peeked`. -/
def takePeeked (s : IterSource) : Option (Bytes × Bytes) × IterSource :=
  let s := s.fill
  if s.hasPeeked then
    (some (s.peekedKey, s.peekedValue), { s with hasPeeked := false, peekedKey := [], peekedValue := [] })
  else (none, s)

/-- The state after loading entry `i` into the peek buffer, `pos` one past it. -/
def loadAt (s : IterSource) (i : Nat) (h : i < s.entries.length) : IterSource :=
  let e := s.entries.get ⟨i, h⟩
  { s with peekedKey := e.1, peekedValue := e.2, hasPeeked := true, pos := i + 1, pos_le := h }

/-- `seek_to`: the first entry at or after `target`. -/
def seekTo (s : IterSource) (target : Bytes) : IterSource :=
  let idx := BinarySearch.partitionPoint (fun e => compareInternalKey e.1 target == .lt) s.entries
  if h : idx < s.entries.length then s.loadAt idx h
  else
    { s with
      hasPeeked := false
      pos := idx
      pos_le := BinarySearch.partitionPoint_le_length s.entries }

/-- `seek_for_prev_to`: the last entry at or before `target`. When there is none, `pos` is left
where it was. -/
def seekForPrevTo (s : IterSource) (target : Bytes) : IterSource :=
  let idx := BinarySearch.partitionPoint (fun e => compareInternalKey e.1 target != .gt) s.entries
  if h : 0 < idx then
    s.loadAt (idx - 1) (by
      have := BinarySearch.partitionPoint_le_length
        (p := fun e => compareInternalKey e.1 target != .gt) s.entries
      omega)
  else { s with hasPeeked := false }

/-- `seek_to_first_impl`. -/
def seekToFirstImpl (s : IterSource) : IterSource :=
  if h : 0 < s.entries.length then s.loadAt 0 h
  else { s with hasPeeked := false, pos := 0, pos_le := Nat.zero_le _ }

/-- `seek_to_last_impl`. -/
def seekToLastImpl (s : IterSource) : IterSource :=
  if h : 0 < s.entries.length then s.loadAt (s.entries.length - 1) (by omega)
  else { s with hasPeeked := false }

/-- `prev_advance`. -/
def prevAdvance (s : IterSource) : Bool × IterSource :=
  let r := { s with hasPeeked := false }.reverseAdvanceIntoBuffers
  (r.1, { r.2 with hasPeeked := r.1 })

/-- `skip_peeked`. -/
def skipPeeked (s : IterSource) : IterSource := { s with hasPeeked := false }

end IterSource

/-- `MergingIterator`, built with `compare_internal_key`. -/
structure MergingIterator where
  sources : List IterSource
  heap : List Nat
  heapSize : Nat
  initialized : Bool
  direction : Direction
  currentKey : Bytes
  singleSource : Bool

namespace MergingIterator

/-- `MergingIterator::new`. -/
def new (sources : List IterSource) : MergingIterator :=
  ⟨sources, List.range sources.length, 0, false, .forward, [], sources.length == 1⟩

/-- `self.sources[i]`. -/
def source (m : MergingIterator) (i : Nat) : IterSource := m.sources.getD i default

/-- Replace `self.sources[i]`. -/
def setSource (m : MergingIterator) (i : Nat) (s : IterSource) : MergingIterator :=
  { m with sources := m.sources.set i s }

/-- `let _ = self.sources[i].peek();` -/
def peekSource (m : MergingIterator) (i : Nat) : MergingIterator :=
  m.setSource i (m.source i).peek.2

/-- `self.heap.swap(i, j)`. -/
def swapHeap (m : MergingIterator) (i j : Nat) : MergingIterator :=
  { m with heap := (m.heap.set i (m.heap.getD j 0)).set j (m.heap.getD i 0) }

/-- `source_less`: source `a`'s peeked entry goes before source `b`'s in the direction of
iteration; a source with no peeked entry goes last. -/
def sourceLess (m : MergingIterator) (a b : Nat) : Bool :=
  match (m.source a).hasPeeked, (m.source b).hasPeeked with
  | true, true =>
    match m.direction with
    | .forward => compareInternalKey (m.source a).peekedKey (m.source b).peekedKey == .lt
    | .backward => compareInternalKey (m.source a).peekedKey (m.source b).peekedKey == .gt
  | true, false => true
  | false, _ => false

/-- The `smallest` of one pass of `sift_down` at `pos`. -/
def siftTarget (m : MergingIterator) (pos : Nat) : Nat :=
  let smallest :=
    if 2 * pos + 1 < m.heapSize ∧ m.sourceLess (m.heap.getD (2 * pos + 1) 0) (m.heap.getD pos 0)
    then 2 * pos + 1 else pos
  if 2 * pos + 2 < m.heapSize ∧
      m.sourceLess (m.heap.getD (2 * pos + 2) 0) (m.heap.getD smallest 0)
  then 2 * pos + 2 else smallest

theorem siftTarget_lt (m : MergingIterator) {pos : Nat} (h : m.siftTarget pos ≠ pos) :
    pos < m.siftTarget pos ∧ m.siftTarget pos < m.heapSize := by
  unfold siftTarget at h ⊢
  dsimp only at h ⊢
  split_ifs at h ⊢ <;> omega

/-- `sift_down`. -/
def siftDown (m : MergingIterator) (pos : Nat) : MergingIterator :=
  if _h : m.siftTarget pos = pos then m
  else (m.swapHeap pos (m.siftTarget pos)).siftDown (m.siftTarget pos)
termination_by m.heapSize - pos
decreasing_by
  have := m.siftTarget_lt _h
  simp only [swapHeap]
  omega

/-- `init_heap`. -/
def initHeap (m : MergingIterator) : MergingIterator :=
  if m.initialized then m
  else
    -- the prefetch hints of phase 1 do nothing for a `Vec` source; phase 2 peeks every source
    let sources := m.sources.map fun s => s.peek.2
    let valid := (List.range sources.length).filter fun i => (sources.getD i default).hasPeeked
    let m : MergingIterator := { m with
      initialized := true
      sources := sources
      heap := valid
      heapSize := valid.length }
    if m.heapSize > 1 then
      (List.range (m.heapSize / 2 - 1 + 1)).reverse.foldl (fun m i => m.siftDown i) m
    else m

/-- The exhausted top leaves the heap: the last entry moves to the top and sifts down. -/
def popTop (m : MergingIterator) : MergingIterator :=
  let m := { m with heapSize := m.heapSize - 1 }
  if m.heapSize > 0 then (m.swapHeap 0 m.heapSize).siftDown 0 else m

/-- `switch_to_forward`. -/
def switchToForward (m : MergingIterator) : MergingIterator :=
  let sources :=
    if m.currentKey.isEmpty then m.sources.map IterSource.seekToFirstImpl
    else m.sources.map fun s => s.seekTo m.currentKey
  { m with direction := .forward, sources := sources, initialized := false }.initHeap

/-- `switch_to_backward`. -/
def switchToBackward (m : MergingIterator) : MergingIterator :=
  let sources :=
    if m.currentKey.isEmpty then m.sources.map IterSource.seekToLastImpl
    else m.sources.map fun s => s.seekForPrevTo m.currentKey
  { m with direction := .backward, sources := sources, initialized := false }.initHeap

/-- After a source gave up its entry: re-peek it forward, and keep it in the heap or drop it. -/
def afterTake (m : MergingIterator) (i : Nat) : MergingIterator :=
  let m := m.peekSource i
  if (m.source i).hasPeeked then m.siftDown 0 else m.popTop

/-- `next_entry`. -/
def nextEntry (m : MergingIterator) : Option (Bytes × Bytes) × MergingIterator :=
  let m := if m.direction ≠ .forward then m.switchToForward else m
  if m.singleSource then
    let m := if m.initialized then m else { m with initialized := true }.peekSource 0
    match (m.source 0).takePeeked with
    | (none, s) => (none, m.setSource 0 s)
    | (some entry, s) => (some entry, { m.setSource 0 s with currentKey := entry.1 }.peekSource 0)
  else
    let m := m.initHeap
    if m.heapSize = 0 then (none, m)
    else
      let top := m.heap.getD 0 0
      match (m.source top).takePeeked with
      | (none, s) => (none, m.setSource top s)
      | (some entry, s) => (some entry, { m.setSource top s with currentKey := entry.1 }.afterTake top)

/-- `prev_entry`. -/
def prevEntry (m : MergingIterator) : Option (Bytes × Bytes) × MergingIterator :=
  let m := if m.direction ≠ .backward then m.switchToBackward else m
  if m.singleSource then
    let m := if m.initialized then m else { m with initialized := true }.peekSource 0
    if !(m.source 0).hasPeeked then (none, m)
    else
      match (m.source 0).takePeeked with
      | (none, s) => (none, m.setSource 0 s)
      | (some entry, s) =>
        let m := { m.setSource 0 s with currentKey := entry.1 }
        (some entry, m.setSource 0 (m.source 0).prevAdvance.2)
  else
    let m := m.initHeap
    if m.heapSize = 0 then (none, m)
    else
      let top := m.heap.getD 0 0
      match (m.source top).takePeeked with
      | (none, s) => (none, m.setSource top s)
      | (some entry, s) =>
        let m := { m.setSource top s with currentKey := entry.1 }
        let r := (m.source top).prevAdvance
        let m := m.setSource top r.2
        (some entry, if r.1 then m.siftDown 0 else m.popTop)

/-- `seek`. -/
def seek (m : MergingIterator) (target : Bytes) : MergingIterator :=
  let m := { m with
    direction := .forward
    sources := m.sources.map fun (s : IterSource) => s.seekTo target
    currentKey := [] }
  if m.singleSource then { m with initialized := true }
  else { m with initialized := false }.initHeap

/-- `seek_for_prev`. -/
def seekForPrev (m : MergingIterator) (target : Bytes) : MergingIterator :=
  { m with
    direction := .backward
    sources := m.sources.map fun (s : IterSource) => s.seekForPrevTo target
    currentKey := []
    initialized := false }.initHeap

/-- `peek_entry`. -/
def peekEntry (m : MergingIterator) : Option (Bytes × Bytes) × MergingIterator :=
  let m := if m.direction ≠ .forward then m.switchToForward else m
  if m.singleSource then
    let m := if m.initialized then m else { m with initialized := true }.peekSource 0
    let r := (m.source 0).peek
    (r.1, m.setSource 0 r.2)
  else
    let m := m.initHeap
    if m.heapSize = 0 then (none, m)
    else
      let r := (m.source (m.heap.getD 0 0)).peek
      (r.1, m.setSource (m.heap.getD 0 0) r.2)

/-- `advance_entry`. -/
def advanceEntry (m : MergingIterator) : MergingIterator :=
  if m.singleSource then (m.setSource 0 (m.source 0).skipPeeked).peekSource 0
  else if m.heapSize = 0 then m
  else
    let top := m.heap.getD 0 0
    (m.setSource top (m.source top).skipPeeked).afterTake top

/-- `take_entry`. -/
def takeEntry (m : MergingIterator) : Option (Bytes × Bytes) × MergingIterator :=
  if m.singleSource then
    match (m.source 0).takePeeked with
    | (none, s) => (none, m.setSource 0 s)
    | (some entry, s) => (some entry, { m.setSource 0 s with currentKey := entry.1 }.peekSource 0)
  else if m.heapSize = 0 then (none, m)
  else
    let top := m.heap.getD 0 0
    match (m.source top).takePeeked with
    | (none, s) => (none, m.setSource top s)
    | (some entry, s) => (some entry, { m.setSource top s with currentKey := entry.1 }.afterTake top)

/-- `seek_to_first`. -/
def seekToFirst (m : MergingIterator) : MergingIterator :=
  let m := { m with
    direction := .forward
    sources := m.sources.map IterSource.seekToFirstImpl
    currentKey := [] }
  if m.singleSource then { m with initialized := true }
  else { m with initialized := false }.initHeap

/-- `seek_to_last_merge`. -/
def seekToLastMerge (m : MergingIterator) : MergingIterator :=
  { m with
    direction := .backward
    sources := m.sources.map IterSource.seekToLastImpl
    currentKey := []
    initialized := false }.initHeap

/-- `peek_source_level`. -/
def peekSourceLevel (m : MergingIterator) : Option Nat :=
  if m.singleSource then (m.source 0).level
  else if m.heapSize = 0 then none
  else (m.source (m.heap.getD 0 0)).level

end MergingIterator

end Heap

namespace Heap

namespace IterSource

theorem fill_of_hasPeeked {s : IterSource} (h : s.hasPeeked = true) : s.fill = s := by
  rw [fill, if_pos h]

theorem takePeeked_of_hasPeeked {s : IterSource} (h : s.hasPeeked = true) :
    s.takePeeked.1 = some (s.peekedKey, s.peekedValue) := by
  rw [takePeeked, fill_of_hasPeeked h, if_pos h]

/-- Peeking an unpeeked source before its end loads the entry at its position. -/
theorem peek_of_lt {s : IterSource} (h : s.hasPeeked = false) (hpos : s.pos < s.entries.length) :
    s.peek.2 = s.loadAt s.pos hpos := by
  simp only [peek, fill, h, Bool.false_eq_true, if_false, advanceIntoBuffers, dif_pos hpos]
  rfl

/-- A `Vec` source with nothing at or before `target` is left unpeeked where it was. -/
theorem seekForPrevTo_of_after (s : IterSource) {target : Bytes}
    (hafter : ∀ e ∈ s.entries, compareInternalKey e.1 target = .gt) :
    s.seekForPrevTo target = { s with hasPeeked := false } := by
  have hzero : BinarySearch.partitionPoint
      (fun e => compareInternalKey e.1 target != .gt) s.entries = 0 := by
    cases hs : s.entries with
    | nil => rfl
    | cons e es =>
      rw [BinarySearch.partitionPoint_cons, if_neg]
      simp [hafter e (hs ▸ List.mem_cons_self)]
  unfold seekForPrevTo
  simp only [hzero, Nat.lt_irrefl, dite_false]

end IterSource

namespace MergingIterator

/-- `seek_for_prev` on a single source: the source is re-seeked and then peeked by
`init_heap`. -/
theorem seekForPrev_single (s : IterSource) (target : Bytes) :
    ((new [s]).seekForPrev target).direction = .backward ∧
      ((new [s]).seekForPrev target).singleSource = true ∧
      ((new [s]).seekForPrev target).initialized = true ∧
      ((new [s]).seekForPrev target).source 0 = (s.seekForPrevTo target).peek.2 := by
  have hvalid : ((List.range 1).filter fun i =>
      ([(s.seekForPrevTo target).peek.2].getD i default).hasPeeked).length ≤ 1 :=
    (List.length_filter_le _ _).trans (by simp)
  simp only [seekForPrev, new, initHeap, List.map_cons, List.map_nil, List.length_cons,
    List.length_nil, Nat.zero_add, Bool.false_eq_true, if_false]
  rw [if_neg (by omega)]
  exact ⟨rfl, rfl, rfl, rfl⟩

/-- `prev_entry` on a single source that is peeked and going backward returns its peeked
entry. -/
theorem prevEntry_fst_of_single {m : MergingIterator} (hdir : m.direction = .backward)
    (hsingle : m.singleSource = true) (hinit : m.initialized = true)
    (hpeeked : (m.source 0).hasPeeked = true) :
    m.prevEntry.1 = some ((m.source 0).peekedKey, (m.source 0).peekedValue) := by
  have htake := IterSource.takePeeked_of_hasPeeked hpeeked
  simp only [prevEntry, hdir, ne_eq, not_true_eq_false, if_false, hsingle, hinit, if_true,
    hpeeked, Bool.not_true, Bool.false_eq_true]
  split
  · rename_i s hnone
    rw [hnone] at htake
    cases htake
  · rename_i entry s hsome
    rw [hsome] at htake
    exact htake

/-- **`seek_for_prev` and then `prev_entry` return an entry after the target**: `init_heap`
peeks a fresh `Vec` source forward, so the first entry after `target` is returned where the
stream at or before `target` is empty. -/
theorem prevEntry_seekForPrev_of_after (e : Bytes × Bytes) (es : List (Bytes × Bytes))
    {target : Bytes} (hafter : ∀ x ∈ e :: es, compareInternalKey x.1 target = .gt) :
    ((new [IterSource.new (e :: es)]).seekForPrev target).prevEntry.1 = some e := by
  obtain ⟨hdir, hsingle, hinit, hsrc⟩ := seekForPrev_single (IterSource.new (e :: es)) target
  have hpeek : ((IterSource.new (e :: es)).seekForPrevTo target).peek.2 =
      (IterSource.new (e :: es)).loadAt 0 (Nat.succ_pos _) := by
    rw [IterSource.seekForPrevTo_of_after _ hafter]
    exact IterSource.peek_of_lt rfl (Nat.succ_pos _)
  have hloaded := hsrc.trans hpeek
  rw [prevEntry_fst_of_single hdir hsingle hinit (by rw [hloaded]; rfl), hloaded]
  rfl

/-- One source holding `(b, 1, Value) ↦ 2`: after `seek_for_prev((a, 1, Value))` the merged
stream the heap stands for has nothing to step back to, but the heap's `prev_entry` returns
`(b, 1, Value)`. -/
theorem prevEntry_seekForPrev_stale_sample :
    (∀ x ∈ [((InternalKey.new [0x62] 1 .value).encoded, [0x32])],
        compareInternalKey x.1 (InternalKey.new [0x61] 1 .value).encoded = .gt) ∧
      ((new [IterSource.new [((InternalKey.new [0x62] 1 .value).encoded, [0x32])]]).seekForPrev
        (InternalKey.new [0x61] 1 .value).encoded).prevEntry.1 =
        some ((InternalKey.new [0x62] 1 .value).encoded, [0x32]) ∧
      ((Mmdb.MergingIterator.new [⟨none, [((InternalKey.new [0x62] 1 .value).encoded, [0x32])]⟩]
        ).seekForPrev (InternalKey.new [0x61] 1 .value).encoded).prevEntry.1 = none :=
  ⟨by decide, prevEntry_seekForPrev_of_after _ [] (by decide), by decide⟩

end MergingIterator

end Heap

end Mmdb
