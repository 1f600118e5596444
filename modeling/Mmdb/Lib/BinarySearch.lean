import Mathlib.Data.List.TakeWhile
import Mathlib.Order.Basic

/-!
# Binary search for the end of a run by a test that may fail

The loop

    while left < right {
        let mid = left + (right - left) / 2;
        if test(mid)? { left = mid + 1 } else { right = mid }
    }

returns `left`. When the test does not fail on `[lo, hi)` and holds on an initial part of it
(it holds at `i` whenever it holds at some `j ≥ i`), the loop returns the end of that part
(`search_spec`). The proof keeps the invariant `Inv` of the interval still to search: the test
holds below it and fails from its end on.

`partitionPoint` is what `slice::partition_point` returns on a slice that the test partitions:
the length of the run at the front where it holds. Below it the test holds, and at it (when it
is an index) the test fails.
-/

namespace BinarySearch

variable {ε : Type}

/-- The search loop over `[left, right)`. -/
def search (test : Nat → Except ε Bool) (left right : Nat) : Except ε Nat :=
  if left < right then
    match test (left + (right - left) / 2) with
    | .error e => .error e
    | .ok true => search test (left + (right - left) / 2 + 1) right
    | .ok false => search test left (left + (right - left) / 2)
  else .ok left
termination_by right - left

section Steps

variable {test : Nat → Except ε Bool} {left right : Nat}

theorem search_of_true (hlt : left < right) (h : test (left + (right - left) / 2) = .ok true) :
    search test left right = search test (left + (right - left) / 2 + 1) right := by
  rw [search, if_pos hlt, h]

theorem search_of_false (hlt : left < right) (h : test (left + (right - left) / 2) = .ok false) :
    search test left right = search test left (left + (right - left) / 2) := by
  rw [search, if_pos hlt, h]

theorem search_of_ge (hge : ¬ left < right) : search test left right = .ok left := by
  rw [search, if_neg hge]

/-- The search ends inside its interval, whatever the test does. -/
theorem search_le (hle : left ≤ right) {r : Nat} (h : search test left right = .ok r) :
    r ≤ right := by
  induction left, right using search.induct test with
  | case1 left right hlt e hmid =>
    rw [search, if_pos hlt, hmid] at h
    cases h
  | case2 left right hlt hmid ih =>
    rw [search_of_true hlt hmid] at h
    exact ih (by omega) h
  | case3 left right hlt hmid ih =>
    rw [search_of_false hlt hmid] at h
    exact Nat.le_trans (ih (by omega) h) (by omega)
  | case4 left right hge =>
    rw [search_of_ge hge] at h
    cases h
    exact hle

end Steps

/-- Inside `[lo, hi)` the test holds below `left` and fails from `right` on. -/
def Inv (q : Nat → Bool) (lo hi left right : Nat) : Prop :=
  lo ≤ left ∧ left ≤ right ∧ right ≤ hi ∧ (∀ i, lo ≤ i → i < left → q i = true) ∧
    ∀ i, right ≤ i → i < hi → q i = false

section Spec

variable {test : Nat → Except ε Bool} {q : Nat → Bool} {lo hi : Nat}

theorem inv_start (hle : lo ≤ hi) : Inv q lo hi lo hi :=
  ⟨Nat.le_refl lo, hle, Nat.le_refl hi, fun _ h h' => absurd h' (by omega),
    fun _ h h' => absurd h' (by omega)⟩

/-- The test holding at the middle moves the left end past it. -/
theorem inv_right {left right : Nat} (hinv : Inv q lo hi left right) (hlt : left < right)
    (hmono : ∀ i j, lo ≤ i → i ≤ j → j < hi → q j = true → q i = true)
    (hmid : q (left + (right - left) / 2) = true) :
    Inv q lo hi (left + (right - left) / 2 + 1) right := by
  obtain ⟨hlo, -, hhi, hbelow, habove⟩ := hinv
  refine ⟨by omega, by omega, hhi, fun i hi hi' => ?_, habove⟩
  exact hmono i _ hi (by omega) (by omega) hmid

/-- The test failing at the middle moves the right end to it. -/
theorem inv_left {left right : Nat} (hinv : Inv q lo hi left right) (hlt : left < right)
    (hmono : ∀ i j, lo ≤ i → i ≤ j → j < hi → q j = true → q i = true)
    (hmid : q (left + (right - left) / 2) = false) :
    Inv q lo hi left (left + (right - left) / 2) := by
  obtain ⟨hlo, -, hhi, hbelow, habove⟩ := hinv
  refine ⟨hlo, by omega, by omega, hbelow, fun i hi hi' => ?_⟩
  cases hqi : q i with
  | false => rfl
  | true => rw [hmono _ i (by omega) hi hi' hqi] at hmid; cases hmid

/-- From an interval that keeps the invariant, the search returns a point that splits `[lo, hi)`
where the test stops holding. -/
theorem search_inv (htest : ∀ i, lo ≤ i → i < hi → test i = .ok (q i))
    (hmono : ∀ i j, lo ≤ i → i ≤ j → j < hi → q j = true → q i = true) (left right : Nat)
    (hinv : Inv q lo hi left right) : ∃ r, search test left right = .ok r ∧ Inv q lo hi r r := by
  induction left, right using search.induct test with
  | case1 left right hlt e herr =>
    rw [htest _ (by have := hinv.1; omega) (by have := hinv.2.2.1; omega)] at herr
    cases herr
  | case2 left right hlt htrue ih =>
    have hq : q (left + (right - left) / 2) = true := by
      rw [htest _ (by have := hinv.1; omega) (by have := hinv.2.2.1; omega)] at htrue
      exact Except.ok.inj htrue
    rw [search_of_true hlt htrue]
    exact ih (inv_right hinv hlt hmono hq)
  | case3 left right hlt hfalse ih =>
    have hq : q (left + (right - left) / 2) = false := by
      rw [htest _ (by have := hinv.1; omega) (by have := hinv.2.2.1; omega)] at hfalse
      exact Except.ok.inj hfalse
    rw [search_of_false hlt hfalse]
    exact ih (inv_left hinv hlt hmono hq)
  | case4 left right hge =>
    refine ⟨left, search_of_ge hge, ?_⟩
    obtain ⟨hlo, hle, hhi, hbelow, habove⟩ := hinv
    obtain rfl : right = left := by omega
    exact ⟨hlo, hle, hhi, hbelow, habove⟩

/-- **The search finds the end of the run**: over `[lo, hi)` the test holds exactly below the
point it returns. -/
theorem search_spec (hle : lo ≤ hi) (htest : ∀ i, lo ≤ i → i < hi → test i = .ok (q i))
    (hmono : ∀ i j, lo ≤ i → i ≤ j → j < hi → q j = true → q i = true) :
    ∃ r, search test lo hi = .ok r ∧ lo ≤ r ∧ r ≤ hi ∧ (∀ i, lo ≤ i → i < r → q i = true) ∧
      ∀ i, r ≤ i → i < hi → q i = false := by
  obtain ⟨r, hr, hlo, -, hhi, hbelow, habove⟩ := search_inv htest hmono lo hi (inv_start hle)
  exact ⟨r, hr, hlo, hhi, hbelow, habove⟩

end Spec

section PartitionPoint

variable {α : Type} {p : α → Bool}

/-- `slice::partition_point` on a slice that `p` partitions. -/
def partitionPoint (p : α → Bool) (l : List α) : Nat := (l.takeWhile p).length

theorem partitionPoint_le_length (l : List α) : partitionPoint p l ≤ l.length :=
  (List.takeWhile_prefix p).length_le

theorem partitionPoint_cons (x : α) (l : List α) :
    partitionPoint p (x :: l) = if p x then partitionPoint p l + 1 else 0 := by
  unfold partitionPoint
  by_cases hx : p x = true
  · rw [List.takeWhile_cons_of_pos hx, List.length_cons, if_pos hx]
  · rw [List.takeWhile_cons_of_neg hx, List.length_nil, if_neg hx]

theorem of_lt_partitionPoint {l : List α} {i : Nat} (hi : i < l.length)
    (h : i < partitionPoint p l) : p l[i] = true := by
  rw [← (List.takeWhile_prefix p).getElem h]
  exact List.mem_takeWhile_imp (List.getElem_mem h)

theorem getElem_partitionPoint {l : List α} (h : partitionPoint p l < l.length) :
    p l[partitionPoint p l] = false := by
  induction l with
  | nil => simp at h
  | cons x l ih =>
    by_cases hx : p x = true
    · have hpp : partitionPoint p (x :: l) = partitionPoint p l + 1 := by
        rw [partitionPoint_cons, if_pos hx]
      have hlt : partitionPoint p l < l.length := by
        rw [hpp, List.length_cons] at h
        omega
      simp only [hpp, List.getElem_cons_succ]
      exact ih hlt
    · have hpp : partitionPoint p (x :: l) = 0 := by rw [partitionPoint_cons, if_neg hx]
      simp only [hpp, List.getElem_cons_zero]
      exact Bool.eq_false_iff.mpr hx

/-- The partition point of the first `n` elements, read back in the whole list: the elements
before it pass. -/
theorem of_lt_partitionPoint_take {l : List α} {n i j : Nat}
    (hi : partitionPoint p (l.take n) = i) (hj : j < i) (hjn : j < n) (hn : n ≤ l.length) :
    p l[j] = true := by
  have h := of_lt_partitionPoint (p := p) (l := l.take n) (i := j)
    (by rw [List.length_take]; omega) (by omega)
  rwa [List.getElem_take] at h

/-- ... and the element at it fails, when it lies inside the first `n`. -/
theorem getElem_partitionPoint_take {l : List α} {n i : Nat}
    (hi : partitionPoint p (l.take n) = i) (hin : i < n) (hn : n ≤ l.length) :
    p l[i] = false := by
  have h := getElem_partitionPoint (p := p) (l := l.take n)
    (by rw [hi, List.length_take]; omega)
  simp only [hi, List.getElem_take] at h
  exact h

end PartitionPoint

end BinarySearch
