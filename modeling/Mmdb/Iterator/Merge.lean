import Mathlib.Data.List.Sort
import Mmdb.Types

/-!
# The merging iterator

`src/iterator/merge.rs`. `MergingIterator` merges sorted sources through a heap whose top is the
smallest entry going forward and the largest going backward. The model keeps what the heap
stands for: the merged stream of the sources' entries in internal-key order, and a position in
it. `past` holds the entries before the position, nearest first; `future` the entries from it
on. Going forward the heap's top is the head of `future`, going backward the head of `past`.

A direction switch re-seeks every source around `current_key`, the key of the last entry taken
or stepped back over (empty when there is none): forward from the first entry at or after it,
backward from the last entry at or before it. The model re-seeks the merged stream the same way.

The heap itself, with the per-source peek buffers, is `Mmdb.Heap.MergingIterator`
(`Mmdb.Iterator.MergeHeap`); going forward from `new` or a `seek` over sorted sources with no key
twice, its `next_entry` returns this stream (`Mmdb.Iterator.MergeDrain`). Not modelled: the
prefetch hints, the source-level bounds of `set_bounds` (the sources skip entries the database
iterator skips or stops at anyway), and the try-next shortcut of `seek_opt`, which ends at the
position `seek` ends at.
-/

namespace Mmdb

/-- An entry of the merged stream: an internal key, its value, and the LSM level of the source
it came from; `none` for a source with no level (the source's `usize::MAX`). -/
structure Entry where
  key : Bytes
  value : Bytes
  level : Option Nat
  deriving DecidableEq, Repr

/-- `IterSource` as the merge sees it: its level and its entries in internal-key order. -/
structure IterSource where
  level : Option Nat
  entries : List (Bytes × Bytes)
  deriving DecidableEq, Repr

/-- The merge's order on entries: by `compare_internal_key` of their keys. -/
def Entry.le (a b : Entry) : Prop := compareInternalKey a.key b.key ≠ .gt

instance : DecidableRel Entry.le := fun a b =>
  inferInstanceAs (Decidable (compareInternalKey a.key b.key ≠ .gt))

/-- `Direction` of iteration. -/
inductive Direction where
  | forward
  | backward
  deriving DecidableEq, Repr

/-- `MergingIterator`: the merged stream with a position and a direction. -/
structure MergingIterator where
  past : List Entry
  future : List Entry
  direction : Direction
  currentKey : Bytes
  deriving DecidableEq, Repr

namespace MergingIterator

/-- The merged stream. -/
def entries (m : MergingIterator) : List Entry := m.past.reverse ++ m.future

/-- `MergingIterator::new`: the sources' entries merged in internal-key order, positioned
before the first. -/
def new (sources : List IterSource) : MergingIterator where
  past := []
  future := ((sources.map fun s => s.entries.map fun (k, v) => Entry.mk k v s.level).flatten
    |>.insertionSort Entry.le)
  direction := .forward
  currentKey := []

/-- The stream split before its first entry that `before` rejects. -/
def splitAt (es : List Entry) (before : Entry → Bool) (direction : Direction)
    (currentKey : Bytes) : MergingIterator :=
  ⟨(es.takeWhile before).reverse, es.dropWhile before, direction, currentKey⟩

/-- Every source `seek_to(target)`: the position of the first entry at or after `target`. -/
def seekTo (m : MergingIterator) (target : Bytes) (direction : Direction) (currentKey : Bytes) :
    MergingIterator :=
  splitAt m.entries (fun e => compareInternalKey e.key target == .lt) direction currentKey

/-- Every source `seek_for_prev_to(target)`: the position after the last entry at or before
`target`. -/
def seekForPrevTo (m : MergingIterator) (target : Bytes) (direction : Direction)
    (currentKey : Bytes) : MergingIterator :=
  splitAt m.entries (fun e => compareInternalKey e.key target != .gt) direction currentKey

/-- `seek`: forward from the first entry at or after `target`. -/
def seek (m : MergingIterator) (target : Bytes) : MergingIterator :=
  m.seekTo target .forward []

/-- `seek_for_prev`: backward from the last entry at or before `target`. -/
def seekForPrev (m : MergingIterator) (target : Bytes) : MergingIterator :=
  m.seekForPrevTo target .backward []

/-- `seek_to_first`. -/
def seekToFirst (m : MergingIterator) : MergingIterator := ⟨[], m.entries, .forward, []⟩

/-- `seek_to_last_merge`. -/
def seekToLastMerge (m : MergingIterator) : MergingIterator := ⟨m.entries.reverse, [], .backward, []⟩

/-- `switch_to_forward`: every source re-seeked at `current_key`, or to its first entry when
there is none; `current_key` is kept. -/
def switchToForward (m : MergingIterator) : MergingIterator :=
  if m.currentKey.isEmpty then ⟨[], m.entries, .forward, m.currentKey⟩
  else m.seekTo m.currentKey .forward m.currentKey

/-- `switch_to_backward`: every source re-seeked for prev at `current_key`, or to its last
entry when there is none. -/
def switchToBackward (m : MergingIterator) : MergingIterator :=
  if m.currentKey.isEmpty then ⟨m.entries.reverse, [], .backward, m.currentKey⟩
  else m.seekForPrevTo m.currentKey .backward m.currentKey

/-- The direction check that opens `peek_entry` and `next_entry`. -/
def toForward (m : MergingIterator) : MergingIterator :=
  if m.direction ≠ .forward then m.switchToForward else m

/-- The direction check that opens `prev_entry`. -/
def toBackward (m : MergingIterator) : MergingIterator :=
  if m.direction ≠ .backward then m.switchToBackward else m

/-- `peek_entry`: the smallest entry at or after the position. -/
def peekEntry (m : MergingIterator) : Option Entry × MergingIterator :=
  let m := m.toForward
  (m.future.head?, m)

/-- `advance_entry`: past the entry at the position, without touching `current_key`. -/
def advanceEntry (m : MergingIterator) : MergingIterator :=
  match m.future with
  | [] => m
  | e :: rest => { m with past := e :: m.past, future := rest }

/-- `take_entry`: the entry at the position, now the current key. -/
def takeEntry (m : MergingIterator) : Option Entry × MergingIterator :=
  match m.future with
  | [] => (none, m)
  | e :: rest => (some e, { m with past := e :: m.past, future := rest, currentKey := e.key })

/-- `prev_entry`: the largest entry before the position, now the current key. -/
def prevEntry (m : MergingIterator) : Option Entry × MergingIterator :=
  let m := m.toBackward
  match m.past with
  | [] => (none, m)
  | e :: rest => (some e, { m with past := rest, future := e :: m.future, currentKey := e.key })

/-- `peek_source_level`: the level of the source at the top of the heap. -/
def peekSourceLevel (m : MergingIterator) : Option Nat :=
  match m.direction with
  | .forward => m.future.head?.bind (·.level)
  | .backward => m.past.head?.bind (·.level)

/-! ## The stream never changes -/

@[simp] theorem entries_splitAt (es : List Entry) (before : Entry → Bool) (direction : Direction)
    (currentKey : Bytes) : (splitAt es before direction currentKey).entries = es := by
  simp [splitAt, entries]

@[simp] theorem entries_seekTo (m : MergingIterator) (target : Bytes) (direction : Direction)
    (currentKey : Bytes) : (m.seekTo target direction currentKey).entries = m.entries :=
  entries_splitAt _ _ _ _

@[simp] theorem entries_seekForPrevTo (m : MergingIterator) (target : Bytes)
    (direction : Direction) (currentKey : Bytes) :
    (m.seekForPrevTo target direction currentKey).entries = m.entries :=
  entries_splitAt _ _ _ _

@[simp] theorem entries_seek (m : MergingIterator) (target : Bytes) :
    (m.seek target).entries = m.entries := entries_seekTo _ _ _ _

@[simp] theorem entries_seekForPrev (m : MergingIterator) (target : Bytes) :
    (m.seekForPrev target).entries = m.entries := entries_seekForPrevTo _ _ _ _

@[simp] theorem entries_seekToFirst (m : MergingIterator) : m.seekToFirst.entries = m.entries := by
  simp [seekToFirst, entries]

@[simp] theorem entries_seekToLastMerge (m : MergingIterator) :
    m.seekToLastMerge.entries = m.entries := by
  simp [seekToLastMerge, entries]

@[simp] theorem entries_toForward (m : MergingIterator) : m.toForward.entries = m.entries := by
  unfold toForward switchToForward
  split_ifs
  · simp [entries]
  · exact entries_seekTo _ _ _ _
  · rfl

@[simp] theorem entries_toBackward (m : MergingIterator) : m.toBackward.entries = m.entries := by
  unfold toBackward switchToBackward
  split_ifs
  · simp [entries]
  · exact entries_seekForPrevTo _ _ _ _
  · rfl

@[simp] theorem entries_advanceEntry (m : MergingIterator) :
    m.advanceEntry.entries = m.entries := by
  unfold advanceEntry
  split <;> simp_all [entries]

@[simp] theorem entries_takeEntry (m : MergingIterator) : m.takeEntry.2.entries = m.entries := by
  unfold takeEntry
  split <;> simp_all [entries]

@[simp] theorem entries_prevEntry (m : MergingIterator) : m.prevEntry.2.entries = m.entries := by
  rw [← entries_toBackward m]
  unfold prevEntry
  dsimp only
  split <;> simp_all [entries]

end MergingIterator

end Mmdb
