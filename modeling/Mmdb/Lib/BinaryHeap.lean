import Mathlib.Data.List.GetD
import Mathlib.Tactic.SplitIfs

/-!
# Binary heaps of indices

A binary heap kept in an array of indices, the first `size` of them live, under a comparison
`less` of indices: position `c` has its parent at `(c - 1) / 2`, and the heap is ordered when no
live child goes before its parent (`Ordered`). `siftDown` moves the index at a position down,
swapping it with the child that goes first while that child goes before it; run from the last
parent up to the root, it orders a whole array.

The comparison is a strict weak order on all indices: asymmetric and negatively transitive.
`siftDown` keeps the live indices (`perm_siftDown`) and orders a heap whose order may fail only
below one position (`DownOrder`, `orderedFrom_siftDown`); the bottom-up pass orders any array
(`orderedFrom_foldl_siftDown`); and in an ordered heap no live index goes before the root
(`not_less_root`).
-/

namespace BinaryHeap

/-- The parent of position `c`. -/
def parent (c : Nat) : Nat := (c - 1) / 2

theorem parent_lt {c : Nat} (hc : 0 < c) : parent c < c := by
  unfold parent
  omega

section Defs

variable (less : Nat → Nat → Bool) (size : Nat)

/-- `heap.swap(i, j)`. -/
def swap (heap : List Nat) (i j : Nat) : List Nat :=
  (heap.set i (heap.getD j 0)).set j (heap.getD i 0)

/-- Where `sift_down` moves the index at `pos`: to the child that goes first, when it goes before
the index; `pos` itself otherwise. -/
def siftTarget (heap : List Nat) (pos : Nat) : Nat :=
  let smallest :=
    if 2 * pos + 1 < size ∧ less (heap.getD (2 * pos + 1) 0) (heap.getD pos 0)
    then 2 * pos + 1 else pos
  if 2 * pos + 2 < size ∧ less (heap.getD (2 * pos + 2) 0) (heap.getD smallest 0)
  then 2 * pos + 2 else smallest

theorem siftTarget_lt {heap : List Nat} {pos : Nat} (h : siftTarget less size heap pos ≠ pos) :
    pos < siftTarget less size heap pos ∧ siftTarget less size heap pos < size := by
  unfold siftTarget at h ⊢
  dsimp only at h ⊢
  split_ifs at h ⊢ <;> omega

/-- `sift_down`. -/
def siftDown (heap : List Nat) (pos : Nat) : List Nat :=
  if _h : siftTarget less size heap pos = pos then heap
  else siftDown (swap heap pos (siftTarget less size heap pos)) (siftTarget less size heap pos)
termination_by size - pos
decreasing_by
  have := siftTarget_lt less size _h
  omega

/-- No live child of a parent at or after `lo` goes before it. -/
def OrderedFrom (heap : List Nat) (lo : Nat) : Prop :=
  ∀ c, 0 < c → c < size → lo ≤ parent c → less (heap.getD c 0) (heap.getD (parent c) 0) = false

/-- The order of a heap with a hole at `pos`: every live pair from `lo` on whose parent is not
`pos` is in order, and the children of `pos` are not before the parent of `pos`. -/
structure DownOrder (heap : List Nat) (lo pos : Nat) : Prop where
  le : lo ≤ pos
  except : ∀ c, 0 < c → c < size → lo ≤ parent c → parent c ≠ pos →
    less (heap.getD c 0) (heap.getD (parent c) 0) = false
  grand : 0 < pos → lo ≤ parent pos → ∀ c, 0 < c → c < size → parent c = pos →
    less (heap.getD c 0) (heap.getD (parent pos) 0) = false

end Defs

/-! ## Swapping two positions -/

section Swap

variable {heap : List Nat} {i j : Nat}

@[simp] theorem length_swap : (swap heap i j).length = heap.length := by
  simp [swap]

theorem getD_swap (hi : i < heap.length) (hj : j < heap.length) (k : Nat) :
    (swap heap i j).getD k 0 =
      if k = j then heap.getD i 0 else if k = i then heap.getD j 0 else heap.getD k 0 := by
  simp only [swap, List.getD_eq_getElem?_getD, List.getElem?_set, List.length_set]
  split_ifs <;> subst_vars <;> simp_all

/-- A swap of two live positions permutes the live part. -/
theorem take_swap_perm {size : Nat} (hi : i < size) (hj : j < size) (hsize : size ≤ heap.length) :
    List.Perm ((swap heap i j).take size) (heap.take size) := by
  have hi' : i < (heap.take size).length := by simp; omega
  have hj' : j < (heap.take size).length := by simp; omega
  have hswap : (swap heap i j).take size =
      ((heap.take size).set i (heap.take size)[j]).set j (heap.take size)[i] := by
    simp only [swap, List.take_set, List.getD_eq_getElem?_getD, List.getElem_take]
    rw [List.getElem?_eq_getElem (by omega), List.getElem?_eq_getElem (by omega)]
    rfl
  rw [hswap]
  exact List.set_set_perm hi' hj'

end Swap

/-! ## One sift -/

section Sift

variable {less : Nat → Nat → Bool} {size : Nat}
  (asymm : ∀ a b, less a b = true → less b a = false)
  (negTrans : ∀ a b c, less a c = true → less a b = true ∨ less b c = true)

include asymm in
theorem not_less_self (a : Nat) : less a a = false := by
  cases h : less a a with
  | false => rfl
  | true => exact absurd (asymm a a h) (by rw [h]; decide)

include asymm negTrans in
theorem less_trans {a b c : Nat} (hab : less a b = true) (hbc : less b c = true) :
    less a c = true := by
  rcases negTrans a c b hab with hac | hcb
  · exact hac
  · rw [asymm b c hbc] at hcb
    cases hcb

include negTrans in
/-- Not going before is transitive. -/
theorem not_less_trans {a b c : Nat} (hab : less a b = false) (hbc : less b c = false) :
    less a c = false := by
  cases hac : less a c with
  | false => rfl
  | true =>
    rcases negTrans a b c hac with h | h
    · rw [hab] at h; cases h
    · rw [hbc] at h; cases h

/-- The children of `pos` are `2 * pos + 1` and `2 * pos + 2`. -/
theorem child_cases {c pos : Nat} (hc : 0 < c) (hp : parent c = pos) :
    c = 2 * pos + 1 ∨ c = 2 * pos + 2 := by
  unfold parent at hp
  omega

include asymm negTrans in
/-- The target is `pos` or a live child that goes before it, and no live child of `pos` goes
before the target. -/
theorem siftTarget_spec (heap : List Nat) (pos : Nat) :
    (siftTarget less size heap pos = pos ∨
        (parent (siftTarget less size heap pos) = pos ∧ 0 < siftTarget less size heap pos ∧
          siftTarget less size heap pos < size ∧
          less (heap.getD (siftTarget less size heap pos) 0) (heap.getD pos 0) = true)) ∧
      ∀ c, 0 < c → c < size → parent c = pos →
        less (heap.getD c 0) (heap.getD (siftTarget less size heap pos) 0) = false := by
  have hp₁ : parent (2 * pos + 1) = pos := by unfold parent; omega
  have hp₂ : parent (2 * pos + 2) = pos := by unfold parent; omega
  unfold siftTarget
  dsimp only
  -- the four outcomes of the two comparisons, left child first
  split_ifs with hl hr hr
  · exact ⟨.inr ⟨hp₂, by omega, hr.1, less_trans asymm negTrans hr.2 hl.2⟩, fun c hc hcs hpc => by
      rcases child_cases hc hpc with rfl | rfl
      · exact asymm _ _ hr.2
      · exact not_less_self asymm _⟩
  · refine ⟨.inr ⟨hp₁, by omega, hl.1, hl.2⟩, fun c hc hcs hpc => ?_⟩
    rcases child_cases hc hpc with rfl | rfl
    · exact not_less_self asymm _
    · simpa [hcs] using hr
  · refine ⟨.inr ⟨hp₂, by omega, hr.1, hr.2⟩, fun c hc hcs hpc => ?_⟩
    rcases child_cases hc hpc with rfl | rfl
    · -- the left child is not before `pos`, so not before the right child either
      cases hlr : less (heap.getD (2 * pos + 1) 0) (heap.getD (2 * pos + 2) 0) with
      | false => rfl
      | true => exact absurd ⟨hcs, less_trans asymm negTrans hlr hr.2⟩ hl
    · exact not_less_self asymm _
  · refine ⟨.inl rfl, fun c hc hcs hpc => ?_⟩
    rcases child_cases hc hpc with rfl | rfl
    · simpa [hcs] using hl
    · simpa [hcs] using hr

variable {heap : List Nat} {lo pos : Nat}

include asymm negTrans in
/-- A step of `sift_down`: the hole moves to the target. -/
theorem DownOrder.swap (hsize : size ≤ heap.length) (o : DownOrder less size heap lo pos)
    (hne : siftTarget less size heap pos ≠ pos) :
    DownOrder less size (swap heap pos (siftTarget less size heap pos)) lo
      (siftTarget less size heap pos) := by
  obtain ⟨hpt, hts⟩ := siftTarget_lt less size hne
  obtain ⟨htarget, hmin⟩ := @siftTarget_spec less size asymm negTrans heap pos
  obtain ⟨hpar, htpos, -, hless⟩ := htarget.resolve_left hne
  generalize siftTarget less size heap pos = t at hpt hts hpar htpos hless hmin ⊢
  have hget := @getD_swap heap pos t (by omega) (by omega)
  refine ⟨Nat.le_trans o.le (Nat.le_of_lt hpt), ?_, ?_⟩
  · intro c hc hcs hlo hct
    rw [hget, hget]
    by_cases hcpos : c = pos
    · -- the new entry at `pos` came up from `t`, below the old parent of `pos`
      subst hcpos
      have hpp : parent c ≠ t := by have := parent_lt hc; omega
      have hpc : parent c ≠ c := by have := parent_lt hc; omega
      rw [if_neg (by omega), if_pos rfl, if_neg hpp, if_neg hpc]
      exact o.grand hc hlo t htpos hts hpar
    · by_cases hpcpos : parent c = pos
      · -- a child of `pos`: `t` itself, now holding the old entry, or its sibling
        rw [if_neg (show parent c ≠ t by omega), if_pos hpcpos]
        by_cases hct' : c = t
        · rw [if_pos hct']
          exact asymm _ _ hless
        · rw [if_neg hct', if_neg hcpos]
          exact hmin c hc hcs hpcpos
      · have hpt' : parent c ≠ t := by omega
        by_cases hct' : c = t
        · exact absurd (hct' ▸ hpar) hpcpos
        · rw [if_neg hct', if_neg hcpos, if_neg hpt', if_neg hpcpos]
          exact o.except c hc hcs hlo hpcpos
  · -- the children of `t` are not before the entry that moved up to `pos`
    intro _ _ c hc hcs hpc
    have hct : c ≠ t := by have := parent_lt hc; omega
    have hcpos : c ≠ pos := by have := parent_lt hc; omega
    rw [hget, hget, if_neg hct, if_neg hcpos, hpar, if_neg (by omega), if_pos rfl]
    have hlo : lo ≤ parent c := by rw [hpc]; exact Nat.le_trans o.le (Nat.le_of_lt hpt)
    rw [← hpc]
    exact o.except c hc hcs hlo (by rw [hpc]; omega)

include asymm negTrans in
/-- `sift_down` stops where no child goes before the entry: the order holds from `lo`. -/
theorem DownOrder.finish (o : DownOrder less size heap lo pos)
    (hstop : siftTarget less size heap pos = pos) : OrderedFrom less size heap lo := by
  intro c hc hcs hlo
  by_cases hpc : parent c = pos
  · have hmin := (@siftTarget_spec less size asymm negTrans heap pos).2 c hc hcs hpc
    rw [hstop] at hmin
    rw [hpc]
    exact hmin
  · exact o.except c hc hcs hlo hpc

include asymm negTrans in
/-- **`sift_down` orders a heap with a hole**. -/
theorem orderedFrom_siftDown (hsize : size ≤ heap.length) (o : DownOrder less size heap lo pos) :
    OrderedFrom less size (siftDown less size heap pos) lo := by
  induction heap, pos using siftDown.induct less size with
  | case1 heap pos hstop =>
    rw [siftDown, dif_pos hstop]
    exact o.finish asymm negTrans hstop
  | case2 heap pos hne ih =>
    rw [siftDown, dif_neg hne]
    exact ih (by simpa using hsize) (o.swap asymm negTrans hsize hne)

end Sift

/-! ## The live indices -/

section Live

variable {less : Nat → Nat → Bool} {size : Nat}

theorem length_siftDown (heap : List Nat) (pos : Nat) :
    (siftDown less size heap pos).length = heap.length := by
  induction heap, pos using siftDown.induct less size with
  | case1 heap pos hstop => rw [siftDown, dif_pos hstop]
  | case2 heap pos hne ih => rw [siftDown, dif_neg hne, ih, length_swap]

theorem length_foldl_siftDown (l : List Nat) (heap : List Nat) :
    (l.foldl (siftDown less size) heap).length = heap.length := by
  induction l generalizing heap with
  | nil => rfl
  | cons i l ih => rw [List.foldl_cons, ih, length_siftDown]

/-- `sift_down` permutes the live indices. -/
theorem perm_siftDown {heap : List Nat} (hsize : size ≤ heap.length) (pos : Nat) :
    List.Perm ((siftDown less size heap pos).take size) (heap.take size) := by
  induction heap, pos using siftDown.induct less size with
  | case1 heap pos hstop => rw [siftDown, dif_pos hstop]
  | case2 heap pos hne ih =>
    rw [siftDown, dif_neg hne]
    obtain ⟨hpt, hts⟩ := siftTarget_lt less size hne
    exact (ih (by simpa using hsize)).trans (take_swap_perm (by omega) hts hsize)

end Live

/-! ## Ordering a whole array -/

section Heapify

variable {less : Nat → Nat → Bool} {size : Nat}
  (asymm : ∀ a b, less a b = true → less b a = false)
  (negTrans : ∀ a b c, less a c = true → less a b = true ∨ less b c = true)

/-- No position from `size / 2` on has a live child. -/
theorem orderedFrom_of_half_le (heap : List Nat) {lo : Nat} (hlo : size / 2 ≤ lo) :
    OrderedFrom less size heap lo := by
  intro c hc hcs hlo'
  unfold parent at hlo'
  omega

include asymm negTrans in
/-- The bottom-up pass: sifting down every position below `k`, the last first, orders a heap
ordered from `k` on. -/
theorem orderedFrom_foldl_siftDown (k : Nat) :
    ∀ {heap : List Nat}, size ≤ heap.length → OrderedFrom less size heap k →
      OrderedFrom less size ((List.range k).reverse.foldl (siftDown less size) heap) 0 ∧
        List.Perm (((List.range k).reverse.foldl (siftDown less size) heap).take size)
          (heap.take size) := by
  induction k with
  | zero => exact fun _ ho => ⟨ho, .refl _⟩
  | succ k ih =>
    intro heap hsize ho
    rw [List.range_succ, List.reverse_append, List.reverse_singleton, List.singleton_append,
      List.foldl_cons]
    -- position `k` is the hole: every pair above it is in order
    have o : DownOrder less size heap k k :=
      ⟨Nat.le_refl k, fun c hc hcs hlo hne => ho c hc hcs (by omega), fun hk hlo => by
        have := parent_lt hk
        omega⟩
    have hlen := @length_siftDown less size heap k
    obtain ⟨hord, hperm⟩ := ih (by omega) (orderedFrom_siftDown asymm negTrans hsize o)
    exact ⟨hord, hperm.trans (perm_siftDown hsize k)⟩

include asymm negTrans in
/-- **In an ordered heap no live index goes before the root.** -/
theorem not_less_root {heap : List Nat} (ho : OrderedFrom less size heap 0) :
    ∀ k, k < size → less (heap.getD k 0) (heap.getD 0 0) = false := by
  intro k
  induction k using Nat.strongRecOn with
  | ind k ih =>
    intro hk
    rcases Nat.eq_zero_or_pos k with rfl | hpos
    · exact not_less_self asymm _
    · exact not_less_trans negTrans (ho k hpos hk (Nat.zero_le _))
        (ih (parent k) (parent_lt hpos) (by have := parent_lt hpos; omega))

end Heapify

/-! ## A new root

The two ways a heap's root is replaced: the root's index stays and what it is compared by changes
(`downOrder_root`), or the last live index moves to the root and the live part shrinks by one
(`downOrder_pop`). Either way the order can fail only below the root, which `siftDown` repairs. -/

section Root

variable {less less' : Nat → Nat → Bool} {size : Nat} {heap : List Nat}

/-- A comparison that changed only for pairs at the root leaves a hole at the root. -/
theorem downOrder_root (ho : OrderedFrom less size heap 0)
    (hsame : ∀ c, 0 < c → c < size → 0 < parent c →
      less' (heap.getD c 0) (heap.getD (parent c) 0) = less (heap.getD c 0) (heap.getD (parent c) 0)) :
    DownOrder less' size heap 0 0 := by
  refine ⟨Nat.le_refl 0, fun c hc hcs _ hne => ?_, fun h => absurd h (Nat.lt_irrefl 0)⟩
  rw [hsame c hc hcs (Nat.pos_of_ne_zero hne)]
  exact ho c hc hcs (Nat.zero_le _)

/-- The last live index moved to the root, and the live part one shorter. -/
theorem downOrder_pop (ho : OrderedFrom less size heap 0) (hsize : size ≤ heap.length)
    (hsame : ∀ c, 0 < c → c < size - 1 → 0 < parent c →
      less' (heap.getD c 0) (heap.getD (parent c) 0) = less (heap.getD c 0) (heap.getD (parent c) 0)) :
    DownOrder less' (size - 1) (swap heap 0 (size - 1)) 0 0 := by
  refine ⟨Nat.le_refl 0, fun c hc hcs _ hne => ?_, fun h => absurd h (Nat.lt_irrefl 0)⟩
  -- below the root and before the last live position nothing moved
  have hpc := parent_lt hc
  rw [getD_swap (by omega) (by omega), getD_swap (by omega) (by omega), if_neg (by omega),
    if_neg (by omega), if_neg (by omega), if_neg hne, hsame c hc hcs (Nat.pos_of_ne_zero hne)]
  exact ho c hc (by omega) (Nat.zero_le _)

/-- The live part after the pop, with the old root after it, is the old live part. -/
theorem take_pop_perm (hpos : 0 < size) (hsize : size ≤ heap.length) :
    List.Perm ((swap heap 0 (size - 1)).take (size - 1) ++ [heap.getD 0 0]) (heap.take size) := by
  obtain ⟨n, rfl⟩ : ∃ n, size = n + 1 := ⟨size - 1, by omega⟩
  rw [Nat.add_sub_cancel]
  have hlen : n < (swap heap 0 n).length := by simp; omega
  have hlast : (swap heap 0 n).take (n + 1) = (swap heap 0 n).take n ++ [heap.getD 0 0] := by
    rw [List.take_add_one, List.getElem?_eq_getElem hlen, Option.toList_some]
    congr 2
    rw [← List.getD_eq_getElem _ 0 hlen, getD_swap (by omega) (by omega), if_pos rfl]
  rw [← hlast]
  exact take_swap_perm hpos (by omega) hsize

end Root

/-! ## Draining a queue

`while let Some(x) = q.pop() { .. }` over any queue: when each pop returns an element that no
element left after it goes before, the elements come out in order and are exactly those the queue
held (`drain_spec`). -/

section Drain

variable {σ α : Type} (next : σ → Option α × σ)

/-- Pop with `next` until it returns nothing, at most `fuel` times. -/
def drain : Nat → σ → List α
  | 0, _ => []
  | fuel + 1, q =>
    match next q with
    | (none, _) => []
    | (some a, q') => a :: drain fuel q'

theorem drain_congr {q q' : σ} (h : next q = next q') (fuel : Nat) :
    drain next fuel q = drain next fuel q' := by
  cases fuel with
  | zero => rfl
  | succ fuel => simp only [drain, h]

variable {next} (Inv : σ → Prop) (content : σ → List α) (le : α → α → Prop)

/-- **Draining a queue**: each pop returns an element that goes before every element left, and
leaves one element fewer. -/
theorem drain_spec
    (hnone : ∀ q, Inv q → content q = [] → (next q).1 = none)
    (hsome : ∀ q, Inv q → content q ≠ [] → ∃ a q', next q = (some a, q') ∧ Inv q' ∧
      List.Perm (content q) (a :: content q') ∧ ∀ b ∈ content q', le a b) :
    ∀ fuel q, Inv q → (content q).length < fuel →
      (drain next fuel q).Pairwise le ∧ List.Perm (drain next fuel q) (content q) := by
  intro fuel
  induction fuel with
  | zero => exact fun _ _ h => absurd h (Nat.not_lt_zero _)
  | succ fuel ih =>
    intro q hq hlen
    by_cases hnil : content q = []
    · have hnext : next q = (none, (next q).2) := by rw [← hnone q hq hnil]
      rw [drain, hnext, hnil]
      exact ⟨List.Pairwise.nil, List.Perm.refl _⟩
    · obtain ⟨a, q', hnext, hq', hperm, hmin⟩ := hsome q hq hnil
      have hlen' : (content q').length < fuel := by
        have := hperm.length_eq
        simp only [List.length_cons] at this
        omega
      obtain ⟨hsorted, hperm'⟩ := ih q' hq' hlen'
      rw [drain, hnext]
      exact ⟨List.pairwise_cons.mpr ⟨fun b hb => hmin b (hperm'.subset hb), hsorted⟩,
        (hperm'.cons a).trans hperm.symm⟩

end Drain

end BinaryHeap
