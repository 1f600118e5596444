import Mathlib.Data.List.Perm.Basic

/-!
# Bucketing a list by a bounded key

A list of entries whose keys are below `n` is, up to order, the concatenation of its buckets
`0, 1, …, n - 1`. A store that keeps one list per level and a map that keeps every entry with its
level therefore hold the same entries exactly when their buckets agree.
-/

namespace List

variable {α : Type}

theorem perm_flatMap_range_filter (key : α → Nat) :
    ∀ (n : Nat) (l : List α), (∀ a ∈ l, key a < n) →
      ((List.range n).flatMap fun k => l.filter (key · == k)).Perm l
  | 0, [], _ => by simp
  | 0, a :: _, h => absurd (h a (List.mem_cons_self ..)) (Nat.not_lt_zero _)
  | n + 1, l, h => by
    rw [List.range_succ, List.flatMap_append, List.flatMap_singleton]
    -- the first `n` buckets hold the entries below `n`, the last one those at `n`
    have below := perm_flatMap_range_filter key n (l.filter (key · < n)) (by simp)
    have buckets : ((List.range n).flatMap fun k => l.filter (key · == k)) =
        (List.range n).flatMap fun k => (l.filter (key · < n)).filter (key · == k) := by
      apply List.flatMap_congr
      intro k hk
      rw [List.filter_filter]
      apply List.filter_congr
      intro a _
      simp only [List.mem_range] at hk
      by_cases ha : key a = k <;> simp [ha, hk]
    have top : l.filter (key · == n) = l.filter fun a => !decide (key a < n) := by
      apply List.filter_congr
      intro a ha
      have := h a ha
      by_cases hn : key a = n
      · simp [hn]
      · have : key a < n := by omega
        simp [hn, this]
    rw [buckets, top]
    exact (below.append_right _).trans (List.filter_append_perm _ l)

/-- The bucket `level` of the entries `(k, x)`, `x ∈ g k`, for `k < n`. -/
theorem filter_flatMap_range_tag {β : Type} (g : Nat → List β) (level : Nat) :
    ∀ n : Nat, (((List.range n).flatMap fun k => (g k).map (k, ·)).filter (·.1 == level)) =
      if level < n then (g level).map (level, ·) else []
  | 0 => by simp
  | n + 1 => by
    rw [List.range_succ, List.flatMap_append, List.filter_append, filter_flatMap_range_tag g level n,
      List.flatMap_singleton]
    by_cases hn : n = level
    · subst hn
      simp [List.filter_map, Function.comp_def]
    · have empty : ((g n).map (n, ·)).filter (·.1 == level) = [] := by
        simp [List.filter_eq_nil_iff, hn]
      rw [empty, List.append_nil]
      by_cases hl : level < n
      · simp [hl, show level < n + 1 by omega]
      · simp [hl, show ¬level < n + 1 by omega]

end List
