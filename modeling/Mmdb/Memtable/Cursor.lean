import Mathlib
import Mmdb.Memtable.SkipListImpl

/-!
# The memtable cursor

`MemTableCursorIter` of `src/memtable/skiplist.rs`, the seekable source a `MergingIterator` reads a
memtable through. It holds a pointer into level 0 of the skiplist, null once it has run off either
end, and `exhausted_backward`, set when `prev` runs off the front, so that a null pointer says
which end it is off. `next` returns the entry at the cursor and steps forward, and from off the
front starts over at the head; `prev` steps back with `seek_lt_raw`, the skiplist having no back
links, and returns the entry it lands on; the seeks reposition it. `next_into` and `next_lazy`
move as `next` does and are not modelled apart.

**What it is for** (`Position`): a position in the list of level-0 entries, before the first entry
or at an index (the length being past the last), with the moves of a cursor over a list; a seek
for the last entry at or below a target that finds none leaves it before the first entry.

**The cursor follows it** (`Tracks`, `next_tracks` and its siblings): over a well-formed skiplist
every operation moves the cursor as the position moves and returns the same entry, so exhaustion
sticks in both directions (`prev_prev_of_none`, `next_next_of_none`) and `next` starts over at the
first entry from off the front (`next_of_before`); a run of calls returns what the same calls on
the position return (`runOps_eq`). The one exception is `seek_for_prev` to a target below every
key: the cursor is left off the back, not off the front (`seekForPrev_tracks_of_none`), so the
`prev` that follows returns the last entry (`prev_seekForPrev_of_none`).
-/

namespace Mmdb

open SkipListImpl ConcurrentSkipList

/-! ## What the cursor is for -/

/-- A cursor position in a list: before the first element, or at index `i`, where the element
`i` is the one `next` returns (`i` the length is past the last). -/
inductive Position where
  | before
  | index (i : Nat)
  deriving DecidableEq, Repr

namespace Position

variable {α : Type} (l : List α)

/-- Return the element at the position and step past it. -/
def next : Position → Option α × Position
  | .before =>
    match l.head? with
    | none => (none, .before)
    | some a => (some a, .index 1)
  | .index i =>
    match l[i]? with
    | none => (none, .index i)
    | some a => (some a, .index (i + 1))

/-- Step back and return the element stepped onto. -/
def prev : Position → Option α × Position
  | .before => (none, .before)
  | .index 0 => (none, .before)
  | .index (i + 1) => (l[i]?, .index i)

/-- The element at the position. -/
def current : Position → Option α
  | .before => none
  | .index i => l[i]?

/-- Seek to the first element. -/
def seekToFirst : Position := .index 0

/-- Seek to the last element. -/
def seekToLast : Position := .index (l.length - 1)

/-- Once `prev` returns nothing, the position is before the first element. -/
theorem prev_snd_of_none {pos : Position} (hpos : ∀ i, pos = .index i → i ≤ l.length)
    (hnone : (pos.prev l).1 = none) : (pos.prev l).2 = .before := by
  cases pos with
  | before => rfl
  | index i =>
    cases i with
    | zero => rfl
    | succ i =>
      have hi := hpos (i + 1) rfl
      simp only [prev, List.getElem?_eq_getElem (show i < l.length by omega)] at hnone
      cases hnone

/-- Once `next` returns nothing, the position does not move. -/
theorem next_snd_of_none {pos : Position} (hnone : (pos.next l).1 = none) :
    (pos.next l).2 = pos := by
  cases pos with
  | before =>
    simp only [next] at hnone ⊢
    split <;> simp_all
  | index i =>
    simp only [next] at hnone ⊢
    split <;> simp_all

variable {K V : Type} [LinearOrder K] (l : List (K × V)) (target : K)

/-- Seek to the first entry at or above `target`. -/
def seekTo : Position := .index (l.filter fun kv => decide (kv.1 < target)).length

/-- Seek to the last entry at or below `target`; before the first entry when there is none. -/
def seekForPrev : Position :=
  match (l.filter fun kv => decide (kv.1 ≤ target)).length with
  | 0 => .before
  | c + 1 => .index c

end Position

/-- The calls a reader makes on a seekable source. -/
inductive CursorOp (K : Type) where
  | next
  | prev
  | current
  | seekTo (target : K)
  | seekForPrev (target : K)
  | seekToFirst
  | seekToLast
  deriving DecidableEq, Repr

namespace Position

variable {K V : Type} [LinearOrder K] (l : List (K × V))

/-- One call on a position: what it returns (nothing for a seek) and where it leaves it. -/
def step : CursorOp K → Position → Option (K × V) × Position
  | .next, pos => pos.next l
  | .prev, pos => pos.prev l
  | .current, pos => (pos.current l, pos)
  | .seekTo target, _ => (none, seekTo l target)
  | .seekForPrev target, _ => (none, seekForPrev l target)
  | .seekToFirst, _ => (none, seekToFirst)
  | .seekToLast, _ => (none, seekToLast l)

/-- What a sequence of calls returns. -/
def runOps : List (CursorOp K) → Position → List (Option (K × V))
  | [], _ => []
  | op :: ops, pos => (step l op pos).1 :: runOps ops (step l op pos).2

end Position

/-! ## The model -/

/-- `MemTableCursorIter`: the node of level 0 the cursor points at, `none` for null, and
`exhausted_backward`. The skiplist it reads is a parameter of every operation. -/
structure MemTableCursorIter where
  cursor : Option Nat
  exhaustedBackward : Bool
  deriving DecidableEq, Repr

namespace MemTableCursorIter

variable {K V : Type} (s : ConcurrentSkipList K V)

/-- `MemTableCursorIter::new`: at the head of level 0. -/
def new : MemTableCursorIter := ⟨s.headPtr, false⟩

/-- `Iterator::next`: the entry at the cursor, and the cursor one node on; from off the front it
starts over at the head, from off the back it stays. -/
def next (it : MemTableCursorIter) : Option (K × V) × MemTableCursorIter :=
  match it.cursor with
  | some p => (s.nodeKv p, ⟨s.nodeNext0 p, false⟩)
  | none =>
    if !it.exhaustedBackward then (none, it)
    else
      match s.headPtr with
      | none => (none, it)
      | some p => (s.nodeKv p, ⟨s.nodeNext0 p, false⟩)

/-- `SeekableIterator::current`. -/
def current (it : MemTableCursorIter) : Option (K × V) := it.cursor.bind s.nodeKv

/-- `SeekableIterator::seek_to_first`. -/
def seekToFirst : MemTableCursorIter := ⟨s.headPtr, false⟩

/-- `SeekableIterator::seek_to_last`. -/
def seekToLast : MemTableCursorIter := ⟨s.tailPtr, false⟩

variable [LinearOrder K]

/-- The `ptr` of `SeekableIterator::prev`: the tail from a null cursor, else the node before the
cursor, found by `seek_lt_raw` on its key. -/
def prevPtr (it : MemTableCursorIter) : Option Nat :=
  match it.cursor with
  | none => s.tailPtr
  | some p => (s.nodeKv p).bind fun kv => s.seekLtRaw kv.1

/-- `SeekableIterator::prev`: from off the front nothing; else the entry at `prevPtr`, and off the
front when there is none. -/
def prev (it : MemTableCursorIter) : Option (K × V) × MemTableCursorIter :=
  if it.exhaustedBackward then (none, it)
  else
    match prevPtr s it with
    | none => (none, ⟨none, true⟩)
    | some q => (s.nodeKv q, ⟨some q, false⟩)

/-- `SeekableIterator::seek_to` (`seek_internal`). -/
def seekTo (target : K) : MemTableCursorIter := ⟨s.seekGeRaw target, false⟩

/-- `SeekableIterator::seek_for_prev`: at the node `seek_le_raw` finds, null when there is
none. -/
def seekForPrev (target : K) : MemTableCursorIter := ⟨s.seekLeRaw target, false⟩

/-- One call on the cursor. -/
def step : CursorOp K → MemTableCursorIter → Option (K × V) × MemTableCursorIter
  | .next, it => it.next s
  | .prev, it => it.prev s
  | .current, it => (it.current s, it)
  | .seekTo target, _ => (none, seekTo s target)
  | .seekForPrev target, _ => (none, seekForPrev s target)
  | .seekToFirst, _ => (none, seekToFirst s)
  | .seekToLast, _ => (none, seekToLast s)

/-- What a sequence of calls on the cursor returns. -/
def runOps : List (CursorOp K) → MemTableCursorIter → List (Option (K × V))
  | [], _ => []
  | op :: ops, it => (step s op it).1 :: runOps ops (step s op it).2

end MemTableCursorIter

/-! ## Level 0 by index

Over a well-formed skiplist level 0 is the list `order`, so each pointer the cursor computes is an
element of `order` at an index: the head, the successor, the tail, and where each seek lands. -/

namespace SkipListImpl.ConcurrentSkipList.Wf

variable {K V : Type} [LinearOrder K] {s : ConcurrentSkipList K V} {order : List Nat}
  {key : Nat → K}

theorem headPtr_eq (h : Wf s order key) : s.headPtr = order[0]? := by
  have hchain := h.chain 0 (by decide)
  rw [h.levelList_zero] at hchain
  rw [headPtr, hchain.head?_eq, List.head?_eq_getElem?]

theorem nodeNext0_getElem (h : Wf s order key) {i : Nat} (hi : i < order.length) :
    s.nodeNext0 order[i] = order[i + 1]? := by
  have hchain := h.chain 0 (by decide)
  rw [h.levelList_zero] at hchain
  have hsplit : order = order.take i ++ order[i] :: order.drop (i + 1) := by
    rw [← List.drop_eq_getElem_cons hi, List.take_append_drop]
  rw [hsplit] at hchain
  rw [nodeNext0, hchain.next_eq, List.head?_drop]

theorem tailPtr_getElem (h : Wf s order key) : s.tailPtr = order[order.length - 1]? := by
  rw [tailPtr, h.tail_eq, List.getLast?_eq_getElem?]

theorem collectAll_getElem? (h : Wf s order key) (i : Nat) :
    s.collectAll[i]? = order[i]?.bind s.nodeKv := by
  rw [h.collectAll_eq, getElem?_filterMap_of_isSome fun p hp => h.nodeKv_isSome hp]

theorem length_collectAll (h : Wf s order key) : s.collectAll.length = order.length := by
  rw [h.collectAll_eq, length_filterMap_of_isSome fun p hp => h.nodeKv_isSome hp]

theorem nodeKv_getElem (h : Wf s order key) {i : Nat} (hi : i < order.length) :
    ∃ v, s.nodeKv order[i] = some (key order[i], v) := by
  have hmem := List.getElem_mem hi
  obtain ⟨kv, hkv⟩ := Option.isSome_iff_exists.mp (h.nodeKv_isSome hmem)
  exact ⟨kv.2, by rw [hkv, ← h.nodeKv_fst hmem hkv]⟩

/-- The nodes below the key of node `i` are the `i` nodes before it. -/
theorem filter_keyLt_getElem (h : Wf s order key) {i : Nat} (hi : i < order.length) :
    order.filter (s.keyLt (key order[i])) = order.take i := by
  have hsorted := h.sorted
  rw [← List.take_append_drop i order, List.pairwise_append] at hsorted
  have hdrop : order.drop i = order[i] :: order.drop (i + 1) := List.drop_eq_getElem_cons hi
  rw [hdrop, List.pairwise_cons] at hsorted
  obtain ⟨_, ⟨hafter, _⟩, hcross⟩ := hsorted
  have hsplit : ∀ q : Nat → Bool, order.filter q = (order.take i).filter q ++
      (order.drop i).filter q := by
    intro q
    rw [← List.filter_append, List.take_append_drop]
  rw [hsplit, hdrop, List.filter_eq_self.mpr, List.filter_eq_nil_iff.mpr, List.append_nil]
  · -- the node and the nodes after it are not below its key
    intro p hp
    have hp' : p ∈ order := List.mem_of_mem_drop (hdrop ▸ hp)
    rw [h.keyLt_eq hp', decide_eq_true_eq, not_lt]
    rcases List.mem_cons.mp hp with rfl | hp
    · exact le_rfl
    · exact le_of_lt (hafter p hp)
  · -- the nodes before it are
    intro p hp
    rw [h.keyLt_eq (List.mem_of_mem_take hp), decide_eq_true_eq]
    exact hcross p hp _ List.mem_cons_self

/-- `seek_lt_raw` on the key of node `i`: the node before it, none for the first. -/
theorem seekLtRaw_getElem (h : Wf s order key) {i : Nat} (hi : i < order.length) :
    s.seekLtRaw (key order[i]) = if i = 0 then none else order[i - 1]? := by
  rw [h.seekLtRaw_eq, h.filter_keyLt_getElem hi, List.getLast?_take_of_le (by omega)]

/-- `seek_ge_raw` lands at the index that counts the nodes below the target. -/
theorem seekGeRaw_getElem (h : Wf s order key) (target : K) :
    s.seekGeRaw target = order[(order.filter (s.keyLt target)).length]? := by
  obtain ⟨A, B, hA, hB, hAB⟩ : ∃ A B, order.filter (s.keyLt target) = A ∧
      order.filter (fun p => !s.keyLt target p) = B ∧ A ++ B = order :=
    ⟨_, _, rfl, rfl, h.filter_append_filter target⟩
  rw [h.seekGeRaw_eq, hA, hB, ← hAB, List.getElem?_append_right le_rfl, Nat.sub_self,
    List.head?_eq_getElem?]

/-- `seek_le_raw` lands one before the index that counts the nodes at or below the target, on
none when there is none. -/
theorem seekLeRaw_getElem (h : Wf s order key) (target : K) :
    s.seekLeRaw target =
      if (order.filter fun p => decide (key p ≤ target)).length = 0 then none
      else order[(order.filter fun p => decide (key p ≤ target)).length - 1]? := by
  have hprefix := h.sorted.filter_eq_take (q := fun p => decide (key p ≤ target))
    fun a b hab hb => by
      simp only [decide_eq_true_eq] at hb ⊢
      exact le_trans (le_of_lt hab) hb
  have hlen : (order.filter fun p => decide (key p ≤ target)).length ≤ order.length :=
    List.length_filter_le _ _
  rw [h.seekLeRaw_eq, hprefix, List.getLast?_take_of_le hlen, List.length_take, min_eq_left hlen]

/-- A test on entries that agrees with a test on nodes counts as many. -/
theorem length_filter_of_agree (h : Wf s order key) {q : Nat → Bool} {r : K × V → Bool}
    (hagree : ∀ p ∈ order, ∀ kv, s.nodeKv p = some kv → q p = r kv) :
    (s.collectAll.filter r).length = (order.filter q).length := by
  rw [h.collectAll_eq, ← filterMap_filter_of_agree hagree,
    length_filterMap_of_isSome fun p hp => h.nodeKv_isSome (List.mem_of_mem_filter hp)]

/-- Counting entries below a target counts the nodes below it. -/
theorem length_filter_lt (h : Wf s order key) (target : K) :
    (s.collectAll.filter fun kv => decide (kv.1 < target)).length =
      (order.filter (s.keyLt target)).length :=
  h.length_filter_of_agree (h.keyLt_agree target)

/-- Counting entries at or below a target counts the nodes at or below it. -/
theorem length_filter_le (h : Wf s order key) (target : K) :
    (s.collectAll.filter fun kv => decide (kv.1 ≤ target)).length =
      (order.filter fun p => decide (key p ≤ target)).length :=
  h.length_filter_of_agree (h.keyLe_agree target)

end SkipListImpl.ConcurrentSkipList.Wf

/-! ## The cursor follows a position in level 0 -/

/-- The cursor stands at `pos` of level 0, whose nodes `order` lists: before the first entry it
is null with `exhausted_backward` set; at index `i` it points at node `i`, or is null with the flag
clear when `i` is past the last. -/
def Tracks (order : List Nat) (it : MemTableCursorIter) : Position → Prop
  | .before => it.cursor = none ∧ it.exhaustedBackward = true
  | .index i => i ≤ order.length ∧ it.cursor = order[i]? ∧ it.exhaustedBackward = false

namespace MemTableCursorIter

variable {K V : Type} [LinearOrder K] {s : ConcurrentSkipList K V} {order : List Nat}
  {key : Nat → K} {it : MemTableCursorIter} {pos : Position}

theorem tracks_at {i : Nat} (hi : i ≤ order.length) :
    Tracks order ⟨order[i]?, false⟩ (.index i) :=
  ⟨hi, rfl, rfl⟩

theorem new_tracks (h : Wf s order key) : Tracks order (new s) (.index 0) := by
  rw [new, h.headPtr_eq]
  exact tracks_at (Nat.zero_le _)

theorem seekToFirst_tracks (h : Wf s order key) : Tracks order (seekToFirst s) (.index 0) := by
  rw [seekToFirst, h.headPtr_eq]
  exact tracks_at (Nat.zero_le _)

theorem seekToLast_tracks (h : Wf s order key) :
    Tracks order (seekToLast s) (.index (s.collectAll.length - 1)) := by
  rw [seekToLast, h.tailPtr_getElem, h.length_collectAll]
  exact tracks_at (Nat.sub_le _ _)

theorem current_eq (h : Wf s order key) (ht : Tracks order it pos) :
    it.current s = pos.current s.collectAll := by
  cases pos with
  | before =>
    obtain ⟨hcur, _⟩ := ht
    rw [current, hcur]
    rfl
  | index i =>
    obtain ⟨_, hcur, _⟩ := ht
    rw [current, hcur, Position.current, h.collectAll_getElem?]

/-- `next` moves as the position moves and returns its entry. -/
theorem next_tracks (h : Wf s order key) (ht : Tracks order it pos) :
    (it.next s).1 = (pos.next s.collectAll).1 ∧
      Tracks order (it.next s).2 (pos.next s.collectAll).2 := by
  cases pos with
  | before =>
    -- off the front: start over at the head
    obtain ⟨hcur, heb⟩ := ht
    have hhead : s.collectAll.head? = s.headPtr.bind s.nodeKv := by
      rw [List.head?_eq_getElem?, h.collectAll_getElem?, h.headPtr_eq]
    simp only [next, hcur, heb, Bool.not_true, Bool.false_eq_true, if_false, Position.next,
      hhead]
    rcases Nat.eq_zero_or_pos order.length with hlen | hlen
    · rw [h.headPtr_eq, List.getElem?_eq_none (by omega)]
      exact ⟨rfl, hcur, heb⟩
    · rw [h.headPtr_eq, List.getElem?_eq_getElem hlen]
      obtain ⟨v, hv⟩ := h.nodeKv_getElem hlen
      simp only [Option.bind_some, hv, true_and]
      rw [h.nodeNext0_getElem hlen]
      exact tracks_at (by omega)
  | index i =>
    obtain ⟨hi, hcur, heb⟩ := ht
    rcases Nat.lt_or_ge i order.length with hlt | hge
    · -- at a node: its entry, and the node after it
      rw [List.getElem?_eq_getElem hlt] at hcur
      obtain ⟨v, hv⟩ := h.nodeKv_getElem hlt
      simp only [next, hcur, Position.next, h.collectAll_getElem?, List.getElem?_eq_getElem hlt,
        Option.bind_some, hv, true_and]
      rw [h.nodeNext0_getElem hlt]
      exact tracks_at (by omega)
    · -- off the back: nothing, and it stays
      rw [List.getElem?_eq_none hge] at hcur
      simp only [next, hcur, heb, Bool.not_false, if_true, Position.next, h.collectAll_getElem?,
        List.getElem?_eq_none hge, Option.bind_none, true_and]
      exact ⟨hi, by rw [hcur, List.getElem?_eq_none hge], heb⟩

/-- `prev` moves as the position moves and returns the entry it steps onto. -/
theorem prev_tracks (h : Wf s order key) (ht : Tracks order it pos) :
    (it.prev s).1 = (pos.prev s.collectAll).1 ∧
      Tracks order (it.prev s).2 (pos.prev s.collectAll).2 := by
  cases pos with
  | before =>
    obtain ⟨hcur, heb⟩ := ht
    simp only [prev, heb, if_true, Position.prev, true_and]
    exact ⟨hcur, heb⟩
  | index i =>
    obtain ⟨hi, hcur, heb⟩ := ht
    -- the node the cursor steps back to: the one before index `i`, the tail from past the last
    have hptr : prevPtr s it = if i = 0 then none else order[i - 1]? := by
      rcases Nat.lt_or_ge i order.length with hlt | hge
      · rw [prevPtr, hcur, List.getElem?_eq_getElem hlt]
        obtain ⟨v, hv⟩ := h.nodeKv_getElem hlt
        simp only [hv, Option.bind_some]
        exact h.seekLtRaw_getElem hlt
      · simp only [prevPtr, hcur, List.getElem?_eq_none hge]
        rw [h.tailPtr_getElem, show i = order.length by omega]
        split
        · exact List.getElem?_eq_none (by omega)
        · rfl
    simp only [prev, heb, Bool.false_eq_true, if_false]
    rw [hptr]
    cases i with
    | zero => exact ⟨rfl, rfl, rfl⟩
    | succ i =>
      simp only [Nat.add_one_ne_zero, if_false, Nat.add_sub_cancel, Position.prev,
        h.collectAll_getElem?, List.getElem?_eq_getElem (show i < order.length by omega),
        Option.bind_some, true_and]
      exact ⟨by omega, (List.getElem?_eq_getElem _).symm, rfl⟩

theorem seekTo_tracks (h : Wf s order key) (target : K) :
    Tracks order (seekTo s target) (Position.seekTo s.collectAll target) := by
  rw [seekTo, Position.seekTo, h.seekGeRaw_getElem, h.length_filter_lt]
  exact tracks_at (List.length_filter_le _ _)

/-- `seek_for_prev` to a target with an entry at or below it stands at the last such entry. -/
theorem seekForPrev_tracks (h : Wf s order key) {target : K}
    (hsome : ∃ kv ∈ s.collectAll, kv.1 ≤ target) :
    Tracks order (seekForPrev s target) (Position.seekForPrev s.collectAll target) := by
  obtain ⟨kv, hkv, hle⟩ := hsome
  have hpos : 0 < (s.collectAll.filter fun kv => decide (kv.1 ≤ target)).length :=
    List.length_pos_of_mem (List.mem_filter.mpr ⟨hkv, decide_eq_true hle⟩)
  have hlen : (order.filter fun p => decide (key p ≤ target)).length ≤ order.length :=
    List.length_filter_le _ _
  rw [h.length_filter_le] at hpos
  rw [seekForPrev, Position.seekForPrev, h.seekLeRaw_getElem, h.length_filter_le,
    if_neg (by omega)]
  obtain ⟨c, hc⟩ := Nat.exists_eq_add_of_lt hpos
  rw [hc, Nat.add_sub_cancel]
  exact tracks_at (by omega)

/-- `seek_for_prev` to a target below every key leaves the cursor past the last entry, not before
the first. -/
theorem seekForPrev_tracks_of_none (h : Wf s order key) {target : K}
    (hnone : ∀ kv ∈ s.collectAll, ¬kv.1 ≤ target) :
    Tracks order (seekForPrev s target) (.index order.length) := by
  have hzero : (order.filter fun p => decide (key p ≤ target)).length = 0 := by
    rw [← h.length_filter_le, List.length_eq_zero_iff, List.filter_eq_nil_iff]
    exact fun kv hkv hle => hnone kv hkv (of_decide_eq_true hle)
  rw [seekForPrev, h.seekLeRaw_getElem, if_pos hzero, ← List.getElem?_eq_none le_rfl]
  exact tracks_at le_rfl

/-- Every call but a `seek_for_prev` below every key moves the cursor as the position moves. -/
theorem step_tracks (h : Wf s order key) {op : CursorOp K}
    (hop : ∀ target, op = .seekForPrev target → ∃ kv ∈ s.collectAll, kv.1 ≤ target)
    (ht : Tracks order it pos) :
    (step s op it).1 = (pos.step s.collectAll op).1 ∧
      Tracks order (step s op it).2 (pos.step s.collectAll op).2 := by
  cases op with
  | next => exact next_tracks h ht
  | prev => exact prev_tracks h ht
  | current => exact ⟨current_eq h ht, ht⟩
  | seekTo target => exact ⟨rfl, seekTo_tracks h target⟩
  | seekForPrev target => exact ⟨rfl, seekForPrev_tracks h (hop target rfl)⟩
  | seekToFirst => exact ⟨rfl, seekToFirst_tracks h⟩
  | seekToLast => exact ⟨rfl, seekToLast_tracks h⟩

/-- Over a well-formed skiplist, a run of calls returns what the same calls on a position in its
entries return, as long as each `seek_for_prev` has an entry at or below its target. -/
theorem runOps_eq (h : Wf s order key) {ops : List (CursorOp K)}
    (hops : ∀ target, CursorOp.seekForPrev target ∈ ops → ∃ kv ∈ s.collectAll, kv.1 ≤ target)
    (ht : Tracks order it pos) : runOps s ops it = Position.runOps s.collectAll ops pos := by
  -- the induction is on the calls, carrying `Tracks` from one to the next
  induction ops generalizing it pos with
  | nil => rfl
  | cons op ops ih =>
    obtain ⟨hout, hnext⟩ :=
      step_tracks h (fun target hop => hops target (hop ▸ List.mem_cons_self)) ht
    rw [runOps, Position.runOps, hout,
      ih (fun target hop => hops target (List.mem_cons_of_mem _ hop)) hnext]

/-- From a new cursor, a run is a run from the first entry. -/
theorem runOps_new (h : Wf s order key) {ops : List (CursorOp K)}
    (hops : ∀ target, CursorOp.seekForPrev target ∈ ops → ∃ kv ∈ s.collectAll, kv.1 ≤ target) :
    runOps s ops (new s) = Position.runOps s.collectAll ops .seekToFirst :=
  runOps_eq h hops (new_tracks h)

/-! ## Over a memtable built by inserts -/

theorem exists_wf_insertAll [Inhabited K] (ops : List (K × V × Nat))
    (hnodup : (ops.map (·.1)).Nodup)
    (hheight : ∀ op ∈ ops, 0 < op.2.2 ∧ op.2.2 ≤ SkipListImpl.maxHeight) :
    ∃ order key, Wf (insertAll ops) order key := by
  have hnew : (ConcurrentSkipList.new : ConcurrentSkipList K V).collectAll = [] := rfl
  obtain ⟨order, key, h, -⟩ := (wf_new (V := V) fun _ => (default : K)).foldl_insert ops
    (by simp [hnew]) hnodup hheight
  exact ⟨order, key, h⟩

/-- Level 0 after a run of inserts is the inserted pairs sorted by key. -/
theorem collectAll_insertAll (ops : List (K × V × Nat)) (hnodup : (ops.map (·.1)).Nodup)
    (hheight : ∀ op ∈ ops, 0 < op.2.2 ∧ op.2.2 ≤ SkipListImpl.maxHeight) :
    (insertAll ops).collectAll =
      (ops.map fun op => (op.1, op.2.1)).mergeSort fun a b => decide (a.1 ≤ b.1) := by
  obtain ⟨hperm, hsorted, -⟩ := insertAll_spec ops hnodup hheight
  refine (List.mergeSort_eq_of_perm (fun a b c hab hbc => ?_) (fun a b => ?_)
    (fun a b hab => decide_eq_true hab.le) (fun a b hab hba => ?_) hsorted hperm.symm).symm
  · exact decide_eq_true (le_trans (of_decide_eq_true hab) (of_decide_eq_true hbc))
  · rcases le_total a.1 b.1 with h | h <;> simp [h]
  · exact absurd (of_decide_eq_true hba) (not_le_of_gt hab)

/-- **The cursor over a memtable is a cursor over its sorted entries.** After any run of inserts
of distinct keys with towers of `1..=MAX_HEIGHT`, a new cursor returns, for any sequence of calls,
what a cursor over the inserted pairs sorted by key returns from the first entry, as long as each
`seek_for_prev` has an inserted key at or below its target. -/
theorem runOps_insertAll [Inhabited K] (ops : List (K × V × Nat))
    (hnodup : (ops.map (·.1)).Nodup)
    (hheight : ∀ op ∈ ops, 0 < op.2.2 ∧ op.2.2 ≤ SkipListImpl.maxHeight)
    {calls : List (CursorOp K)}
    (hcalls : ∀ target, CursorOp.seekForPrev target ∈ calls → ∃ op ∈ ops, op.1 ≤ target) :
    runOps (insertAll ops) calls (new (insertAll ops)) =
      Position.runOps ((ops.map fun op => (op.1, op.2.1)).mergeSort fun a b => decide (a.1 ≤ b.1))
        calls .seekToFirst := by
  obtain ⟨order, key, h⟩ := exists_wf_insertAll ops hnodup hheight
  have hperm := (insertAll_spec ops hnodup hheight).1
  rw [← collectAll_insertAll ops hnodup hheight]
  refine runOps_new h fun target ht => ?_
  obtain ⟨op, hop, hle⟩ := hcalls target ht
  exact ⟨(op.1, op.2.1), hperm.mem_iff.mpr (List.mem_map_of_mem hop), hle⟩

/-- On keys `1` and `0`: three `next`s run off the back, `prev` steps back onto the last entry,
and a seek to `1` lands on it. -/
theorem runOps_insertAll_two_keys :
    runOps (insertAll [((1 : Nat), (10 : Nat), 1), (0, 20, 2)])
        [.next, .next, .next, .prev, .seekTo 1, .current]
        (new (insertAll [((1 : Nat), (10 : Nat), 1), (0, 20, 2)])) =
      [some (0, 20), some (1, 10), none, some (1, 10), none, some (1, 10)] := by
  have hsorted : ([(1, 10), (0, 20)] : List (Nat × Nat)).mergeSort
      (fun a b => decide (a.1 ≤ b.1)) = [(0, 20), (1, 10)] := by
    simp [List.mergeSort, List.MergeSort.Internal.splitInTwo]
  rw [runOps_insertAll _ (by decide) (by decide) (by simp)]
  simp only [List.map_cons, List.map_nil, hsorted]
  decide

/-! ## No wrap-around -/

/-- Backward exhaustion sticks: once `prev` has returned nothing, so does the `prev` after it. -/
theorem prev_prev_of_none (h : Wf s order key) (ht : Tracks order it pos)
    (hnone : (it.prev s).1 = none) : ((it.prev s).2.prev s).1 = none := by
  obtain ⟨hout, hnext⟩ := prev_tracks h ht
  have hbound : ∀ i, pos = .index i → i ≤ s.collectAll.length := by
    rintro i rfl
    rw [h.length_collectAll]
    exact ht.1
  rw [Position.prev_snd_of_none s.collectAll hbound (hout ▸ hnone)] at hnext
  rw [(prev_tracks h hnext).1]
  rfl

/-- Forward exhaustion sticks: once `next` has returned nothing, so does the `next` after it. -/
theorem next_next_of_none (h : Wf s order key) (ht : Tracks order it pos)
    (hnone : (it.next s).1 = none) : ((it.next s).2.next s).1 = none := by
  obtain ⟨hout, hnext⟩ := next_tracks h ht
  have hstay := Position.next_snd_of_none s.collectAll (hout ▸ hnone)
  rw [hstay] at hnext
  rw [(next_tracks h hnext).1, ← hout, hnone]

/-- From off the front, `next` starts over at the first entry. -/
theorem next_of_before (h : Wf s order key) (ht : Tracks order it .before) :
    (it.next s).1 = s.collectAll.head? := by
  rw [(next_tracks h ht).1, Position.next]
  split <;> simp_all

/-- `seek_for_prev` to a target below every key: nothing is current, yet the `prev` that follows
returns the last entry. -/
theorem prev_seekForPrev_of_none (h : Wf s order key) {target : K}
    (hnone : ∀ kv ∈ s.collectAll, ¬kv.1 ≤ target) :
    (seekForPrev s target).current s = none ∧
      ((seekForPrev s target).prev s).1 = s.collectAll.getLast? := by
  have ht := seekForPrev_tracks_of_none h hnone
  rw [current_eq h ht, (prev_tracks h ht).1, Position.current, ← h.length_collectAll,
    List.getElem?_eq_none le_rfl, List.getLast?_eq_getElem?]
  refine ⟨rfl, ?_⟩
  cases hlen : s.collectAll.length with
  | zero => rw [List.getElem?_eq_none (by omega)]; rfl
  | succ n => rfl

end MemTableCursorIter

end Mmdb
