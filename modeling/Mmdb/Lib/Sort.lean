import Mathlib.Data.List.Destutter
import Mathlib.Data.List.Sort
import Mathlib.Data.List.MinMax

/-!
# Sorting back a permutation of a sorted list

A stable merge sort by a total preorder is determined by the multiset of its input when no two
elements of that multiset compare equal. Here the elements are ordered strictly by a relation
`lt` that the preorder `le` refines: any permutation of an `lt`-sorted list sorts back to it,
whatever order it comes in.

A `Vec` sorted by `sort` and then cleared of adjacent repeats by `dedup` is `mergeSort` followed by
`destutter (· ≠ ·)`, which keeps the first of every run of equal elements as `dedup` does; the
result holds every element of the input once, in increasing order
(`mem_destutter_mergeSort`, `sortedLT_destutter_mergeSort`). In such a list a point that lies
between two adjacent elements is above exactly the elements up to the lower one
(`SortedLT.between_iff`). A test that holds on a prefix of a sorted list splits it by `filter` as
`takeWhile` and `dropWhile` do (`Pairwise.filter_append_filter_not`), and the half it keeps is a
prefix (`Pairwise.filter_eq_take`).
-/

namespace List

variable {α : Type}

theorem mergeSort_eq_of_perm {le : α → α → Bool} {lt : α → α → Prop} {l l' : List α}
    (trans : ∀ a b c, le a b → le b c → le a c) (total : ∀ a b, le a b || le b a)
    (le_of_lt : ∀ a b, lt a b → le a b) (not_le_of_lt : ∀ a b, lt a b → ¬le b a)
    (sorted : l'.Pairwise lt) (perm : l.Perm l') : l.mergeSort le = l' := by
  have sortedPerm : (l.mergeSort le).Perm l' := (mergeSort_perm l le).trans perm
  refine Perm.eq_of_pairwise ?_ (pairwise_mergeSort trans total l)
    (sorted.imp fun h => le_of_lt _ _ h) sortedPerm
  intro a b ha hb hab hba
  -- two distinct elements of `l'` are `lt`-related one way or the other
  have : Std.Symm fun x y : α => lt x y ∨ lt y x := ⟨fun _ _ h => h.symm⟩
  have related : l'.Pairwise fun x y => lt x y ∨ lt y x := sorted.imp Or.inl
  by_contra hne
  rcases related.forall (sortedPerm.subset ha) hb hne with h | h
  · exact not_le_of_lt _ _ h hba
  · exact not_le_of_lt _ _ h hab

section SortDedup

variable [LinearOrder α] (l : List α)

theorem destutter_mergeSort_eq_dedup :
    (l.mergeSort fun a b => decide (a ≤ b)).destutter (· ≠ ·) =
      (l.mergeSort fun a b => decide (a ≤ b)).dedup :=
  (pairwise_mergeSort' (· ≤ ·) l).destutter_eq_dedup

theorem mem_destutter_mergeSort (x : α) :
    x ∈ (l.mergeSort fun a b => decide (a ≤ b)).destutter (· ≠ ·) ↔ x ∈ l := by
  rw [destutter_mergeSort_eq_dedup, mem_dedup, mem_mergeSort]

theorem sortedLT_destutter_mergeSort :
    ((l.mergeSort fun a b => decide (a ≤ b)).destutter (· ≠ ·)).SortedLT := by
  rw [destutter_mergeSort_eq_dedup]
  have hle : (l.mergeSort fun a b => decide (a ≤ b)).dedup.Pairwise (· ≤ ·) :=
    (pairwise_mergeSort' (· ≤ ·) l).sublist (dedup_sublist _)
  exact ((hle.and (nodup_dedup _)).imp fun h => lt_of_le_of_ne h.1 h.2).sortedLT

end SortDedup

section Between

variable [LinearOrder α] {l : List α}

theorem SortedLT.getElem_zero_le (hsorted : l.SortedLT) {x : α} (hx : x ∈ l)
    (h0 : 0 < l.length) : l[0] ≤ x := by
  obtain ⟨i, hi, rfl⟩ := getElem_of_mem hx
  exact hsorted.getElem_le_getElem_iff.mpr (Nat.zero_le i)

theorem SortedLT.le_getElem_last (hsorted : l.SortedLT) {x : α} (hx : x ∈ l) {i : Nat}
    (hlast : i + 1 = l.length) : x ≤ l[i] := by
  obtain ⟨i, hi, rfl⟩ := getElem_of_mem hx
  exact hsorted.getElem_le_getElem_iff.mpr (by omega)

/-- A point between the elements at `leaf` and `leaf + 1` is at or above the element at `p` and
below the one at `q` exactly when `p ≤ leaf < q`. -/
theorem SortedLT.between_iff (hsorted : l.SortedLT) {k : α} {leaf p q : Nat}
    (hleaf : leaf + 1 < l.length) (hp : p < l.length) (hq : q < l.length) (hlo : l[leaf] ≤ k)
    (hhi : k < l[leaf + 1]) : (l[p] ≤ k ∧ k < l[q]) ↔ p ≤ leaf ∧ leaf < q := by
  constructor
  · rintro ⟨hpk, hkq⟩
    have hp' : l[p] < l[leaf + 1] := lt_of_le_of_lt hpk hhi
    have hq' : l[leaf] < l[q] := lt_of_le_of_lt hlo hkq
    rw [hsorted.getElem_lt_getElem_iff] at hp' hq'
    omega
  · rintro ⟨hpl, hlq⟩
    have hp' : l[p] ≤ l[leaf] := hsorted.getElem_le_getElem_iff.mpr hpl
    have hq' : l[leaf + 1] ≤ l[q] := hsorted.getElem_le_getElem_iff.mpr (by omega)
    exact ⟨le_trans hp' hlo, lt_of_lt_of_le hhi hq'⟩

end Between

section PrefixClosed

/-! A test that fails above every element it fails on holds on a prefix of a sorted list: there
`takeWhile` and `dropWhile` are the two halves `filter` splits the list into. -/

variable {R : α → α → Prop} {q : α → Bool} {l : List α}

theorem Pairwise.takeWhile_eq_filter (hl : l.Pairwise R) (hq : ∀ a b, R a b → q b → q a) :
    l.takeWhile q = l.filter q := by
  induction l with
  | nil => rfl
  | cons a l ih =>
    rw [pairwise_cons] at hl
    by_cases ha : q a = true
    · rw [takeWhile_cons_of_pos ha, filter_cons_of_pos ha, ih hl.2]
    · have hrest : l.filter q = [] :=
        filter_eq_nil_iff.mpr fun b hb hqb => ha (hq a b (hl.1 b hb) hqb)
      rw [takeWhile_cons_of_neg ha, filter_cons_of_neg ha, hrest]

theorem Pairwise.dropWhile_eq_filter (hl : l.Pairwise R) (hq : ∀ a b, R a b → q b → q a) :
    l.dropWhile q = l.filter fun a => !q a := by
  induction l with
  | nil => rfl
  | cons a l ih =>
    rw [pairwise_cons] at hl
    by_cases ha : q a = true
    · rw [dropWhile_cons_of_pos ha, filter_cons_of_neg (by simp [ha]), ih hl.2]
    · have hrest : l.filter (fun a => !q a) = l :=
        filter_eq_self.mpr fun b hb => by
          simpa using fun hqb => ha (hq a b (hl.1 b hb) hqb)
      rw [dropWhile_cons_of_neg ha, filter_cons_of_pos (by simpa using ha), hrest]

theorem Pairwise.filter_append_filter_not (hl : l.Pairwise R) (hq : ∀ a b, R a b → q b → q a) :
    l.filter q ++ l.filter (fun a => !q a) = l := by
  rw [← hl.takeWhile_eq_filter hq, ← hl.dropWhile_eq_filter hq, takeWhile_append_dropWhile]

theorem Pairwise.filter_eq_take (hl : l.Pairwise R) (hq : ∀ a b, R a b → q b → q a) :
    l.filter q = l.take (l.filter q).length := by
  rw [← hl.takeWhile_eq_filter hq]
  have htake : (l.takeWhile q).IsPrefix l := takeWhile_prefix q
  exact prefix_iff_eq_take.mp htake

/-- In a sorted list, an element that passes the test with no passing element below it is the
first to pass. -/
theorem Pairwise.find?_eq_some {a : α} (hl : l.Pairwise R) (ha : a ∈ l) (hqa : q a = true)
    (hleast : ∀ b ∈ l, q b = true → ¬R b a) : l.find? q = some a := by
  induction l with
  | nil => cases ha
  | cons x l ih =>
    rw [pairwise_cons] at hl
    by_cases hqx : q x = true
    · -- `x` passes, so it is `a`: an `a` further on would have `x` below it
      rw [find?_cons_of_pos hqx]
      rcases mem_cons.mp ha with rfl | ha
      · rfl
      · exact absurd (hl.1 a ha) (hleast x mem_cons_self hqx)
    · have ha' : a ∈ l := by
        rcases mem_cons.mp ha with rfl | ha
        · exact absurd hqa hqx
        · exact ha
      rw [find?_cons_of_neg hqx]
      exact ih hl.2 ha' fun b hb => hleast b (mem_cons_of_mem x hb)

/-- The last of the first `n` elements, for `n` at most the length. -/
theorem getLast?_take_of_le {n : Nat} (hn : n ≤ l.length) :
    (l.take n).getLast? = if n = 0 then none else l[n - 1]? := by
  rw [getLast?_take]
  split
  · rfl
  · rw [getElem?_eq_getElem (by omega), Option.some_or]

end PrefixClosed

section Argmax

/-! Where the measure tells the elements of a list apart, `argmax` is the element no other
reaches. -/

variable {β : Type} [LinearOrder β] [DecidableEq α] {f : α → β} {l : List α} {m : α}

theorem argmax_eq_some_iff_of_injOn (hinj : ∀ a ∈ l, ∀ b ∈ l, f a = f b → a = b) :
    argmax f l = some m ↔ m ∈ l ∧ ∀ a ∈ l, f a ≤ f m := by
  rw [argmax_eq_some_iff]
  constructor
  · rintro ⟨hm, hle, -⟩
    exact ⟨hm, hle⟩
  · rintro ⟨hm, hle⟩
    refine ⟨hm, hle, fun a ha hma => ?_⟩
    rw [hinj a ha m hm (le_antisymm (hle a ha) hma)]

end Argmax

end List
