import Mathlib

/-!
# Segment trees in heap numbering

Node `1` spans `[0, n)`; a node spanning `[a, b)` splits at `mid = a + (b - a) / 2` into node
`2 * node` over `[a, mid)` and node `2 * node + 1` over `[mid, b)`. A range update of `[lo, hi)`
stores its value at the canonical nodes `canonNodes lo hi 1 0 n`, and a point query for a leaf
reads the nodes of `path leaf 1 0 n`, the walk from the root down to the leaf.

**The law** (`exists_canon_mem_path_iff`): the canonical nodes of a range meet the path of a leaf
exactly when the leaf lies in the range, so a query sees every update that covers its leaf, and no
other. Every node of either list is below `4 * n` (`canonNodes_lt`, `path_lt`), the size of the
array that holds the tree.

The lists are the nodes the recursions of an implementation visit. `pushAt` and the fold lemmas
connect them to an array of per-node lists: the update pushes its value at each canonical node,
and the query folds a visit over the path. The query's answer is a maximum, so this module also
has the rules for maxima taken by a fold (`foldl_max_le_iff`, `foldl_max_congr`).
-/

namespace SegmentTree

/-- The canonical nodes of `[lo, hi)` below `node`, which spans `[a, b)`, in the order the range
update visits them. -/
def canonNodes (lo hi node a b : Nat) : List Nat :=
  if hi ≤ a ∨ b ≤ lo then []
  else if lo ≤ a ∧ b ≤ hi then [node]
  else canonNodes lo hi (2 * node) a (a + (b - a) / 2) ++
    canonNodes lo hi (2 * node + 1) (a + (b - a) / 2) b
termination_by b - a
decreasing_by all_goals omega

/-- The nodes a query for `leaf` visits from `node`, which spans `[a, b)`, down to a node whose
span is at most one leaf. -/
def path (leaf node a b : Nat) : List Nat :=
  node :: if b - a ≤ 1 then []
    else if leaf < a + (b - a) / 2 then path leaf (2 * node) a (a + (b - a) / 2)
    else path leaf (2 * node + 1) (a + (b - a) / 2) b
termination_by b - a
decreasing_by all_goals omega

/-! ## Subtrees -/

/-- `ν` lies in the subtree of `node`: halving `ν` some number of times gives `node`. -/
def InSubtree (ν node : Nat) : Prop := ∃ j, ν / 2 ^ j = node

theorem inSubtree_refl (ν : Nat) : InSubtree ν ν := ⟨0, by simp⟩

theorem InSubtree.of_left {ν node : Nat} (h : InSubtree ν (2 * node)) : InSubtree ν node := by
  obtain ⟨j, hj⟩ := h
  refine ⟨j + 1, ?_⟩
  rw [Nat.pow_succ, ← Nat.div_div_eq_div_mul, hj]
  omega

theorem InSubtree.of_right {ν node : Nat} (h : InSubtree ν (2 * node + 1)) : InSubtree ν node := by
  obtain ⟨j, hj⟩ := h
  refine ⟨j + 1, ?_⟩
  rw [Nat.pow_succ, ← Nat.div_div_eq_div_mul, hj]
  omega

theorem InSubtree.le {ν node : Nat} (h : InSubtree ν node) : node ≤ ν := by
  obtain ⟨j, rfl⟩ := h
  exact Nat.div_le_self ν _

/-- Halving at least once takes `x` at most to `x / 2`. -/
theorem div_two_pow_le_half (x : Nat) {k : Nat} (hk : 0 < k) : x / 2 ^ k ≤ x / 2 :=
  Nat.div_le_div_left (Nat.le_self_pow (Nat.ne_of_gt hk) 2) (by decide)

/-- The subtrees of the two children of a node are disjoint. -/
theorem not_inSubtree_left_right {ν node : Nat} (hnode : 0 < node) (hl : InSubtree ν (2 * node))
    (hr : InSubtree ν (2 * node + 1)) : False := by
  obtain ⟨i, hi⟩ := hl
  obtain ⟨j, hj⟩ := hr
  rcases Nat.le_total i j with hij | hji
  · obtain ⟨k, rfl⟩ := Nat.exists_eq_add_of_le hij
    rw [Nat.pow_add, ← Nat.div_div_eq_div_mul, hi] at hj
    rcases Nat.eq_zero_or_pos k with rfl | hk
    · simp at hj
    · have := div_two_pow_le_half (2 * node) hk
      omega
  · obtain ⟨k, rfl⟩ := Nat.exists_eq_add_of_le hji
    rw [Nat.pow_add, ← Nat.div_div_eq_div_mul, hj] at hi
    rcases Nat.eq_zero_or_pos k with rfl | hk
    · simp at hi
    · have := div_two_pow_le_half (2 * node + 1) hk
      omega

/-! ## Canonical nodes and paths -/

section Unfold

variable {lo hi leaf node a b : Nat}

theorem canonNodes_of_disjoint (h : hi ≤ a ∨ b ≤ lo) : canonNodes lo hi node a b = [] := by
  rw [canonNodes, if_pos h]

theorem canonNodes_of_covered (hdis : ¬ (hi ≤ a ∨ b ≤ lo)) (h : lo ≤ a ∧ b ≤ hi) :
    canonNodes lo hi node a b = [node] := by
  rw [canonNodes, if_neg hdis, if_pos h]

theorem canonNodes_of_split (hdis : ¬ (hi ≤ a ∨ b ≤ lo)) (hcov : ¬ (lo ≤ a ∧ b ≤ hi)) :
    canonNodes lo hi node a b = canonNodes lo hi (2 * node) a (a + (b - a) / 2) ++
      canonNodes lo hi (2 * node + 1) (a + (b - a) / 2) b := by
  rw [canonNodes, if_neg hdis, if_neg hcov]

theorem path_of_le_one (h : b - a ≤ 1) : path leaf node a b = [node] := by
  rw [path, if_pos h]

theorem path_of_left (h : ¬ b - a ≤ 1) (hleaf : leaf < a + (b - a) / 2) :
    path leaf node a b = node :: path leaf (2 * node) a (a + (b - a) / 2) := by
  rw [path, if_neg h, if_pos hleaf]

theorem path_of_right (h : ¬ b - a ≤ 1) (hleaf : ¬ leaf < a + (b - a) / 2) :
    path leaf node a b = node :: path leaf (2 * node + 1) (a + (b - a) / 2) b := by
  rw [path, if_neg h, if_neg hleaf]

end Unfold

theorem inSubtree_of_mem_canonNodes {lo hi ν : Nat} (node a b : Nat)
    (h : ν ∈ canonNodes lo hi node a b) : InSubtree ν node := by
  induction node, a, b using canonNodes.induct lo hi with
  | case1 node a b hdis => simp [canonNodes_of_disjoint hdis] at h
  | case2 node a b hdis hcov =>
    rw [canonNodes_of_covered hdis hcov, List.mem_singleton] at h
    exact h ▸ inSubtree_refl ν
  | case3 node a b hdis hcov ihl ihr =>
    rcases List.mem_append.mp (canonNodes_of_split hdis hcov ▸ h) with h | h
    · exact (ihl h).of_left
    · exact (ihr h).of_right

theorem inSubtree_of_mem_path {leaf ν : Nat} (node a b : Nat) (h : ν ∈ path leaf node a b) :
    InSubtree ν node := by
  induction node, a, b using path.induct leaf with
  | case1 node a b ihl ihr =>
    by_cases hone : b - a ≤ 1
    · rw [path_of_le_one hone, List.mem_singleton] at h
      exact h ▸ inSubtree_refl ν
    by_cases hleaf : leaf < a + (b - a) / 2
    · rcases List.mem_cons.mp (path_of_left hone hleaf ▸ h) with rfl | h
      · exact inSubtree_refl ν
      · exact (ihl hone h).of_left
    · rcases List.mem_cons.mp (path_of_right hone hleaf ▸ h) with rfl | h
      · exact inSubtree_refl ν
      · exact (ihr hone h).of_right

theorem exists_mem_append_comm {L R Q : List Nat} :
    (∃ ν ∈ L ++ R, ν ∈ Q) ↔ ∃ ν ∈ R ++ L, ν ∈ Q := by
  simp only [List.mem_append, or_comm]

/-- Below a split, the path goes on in the subtree of one child `c`, where the canonical nodes of
the other child `c'` are not. -/
theorem exists_mem_split_iff {L R P : List Nat} {node c c' : Nat} (hc : node < c) (hc' : node < c')
    (hL : ∀ ν ∈ L, InSubtree ν c) (hR : ∀ ν ∈ R, InSubtree ν c') (hP : ∀ ν ∈ P, InSubtree ν c)
    (hdis : ∀ ν, InSubtree ν c → InSubtree ν c' → False) :
    (∃ ν ∈ L ++ R, ν ∈ node :: P) ↔ ∃ ν ∈ L, ν ∈ P := by
  constructor
  · rintro ⟨ν, hν, hpath⟩
    -- the node itself is no canonical node of a child
    have hne : ν ≠ node := by
      rintro rfl
      rcases List.mem_append.mp hν with h | h
      · exact absurd (hL ν h).le (by omega)
      · exact absurd (hR ν h).le (by omega)
    have hνP : ν ∈ P := (List.mem_cons.mp hpath).resolve_left hne
    rcases List.mem_append.mp hν with h | h
    · exact ⟨ν, h, hνP⟩
    · exact (hdis ν (hP ν hνP) (hR ν h)).elim
  · rintro ⟨ν, hνL, hνP⟩
    exact ⟨ν, List.mem_append_left R hνL, List.mem_cons_of_mem node hνP⟩

/-- **A range's canonical nodes meet a leaf's path exactly when the range covers the leaf.** -/
theorem exists_canon_mem_path_iff {lo hi leaf : Nat} (node a b : Nat) (hnode : 0 < node)
    (ha : a ≤ leaf) (hb : leaf < b) :
    (∃ ν ∈ canonNodes lo hi node a b, ν ∈ path leaf node a b) ↔ lo ≤ leaf ∧ leaf < hi := by
  induction node, a, b using canonNodes.induct lo hi with
  | case1 node a b hdis =>
    rw [canonNodes_of_disjoint hdis]
    simp only [List.not_mem_nil, false_and, exists_false, false_iff]
    omega
  | case2 node a b hdis hcov =>
    rw [canonNodes_of_covered hdis hcov]
    refine ⟨fun _ => by omega, fun _ => ⟨node, List.mem_singleton_self node, ?_⟩⟩
    rw [path]
    exact List.mem_cons_self
  | case3 node a b hdis hcov ihl ihr =>
    -- a node of span one is covered by every range that reaches it, so this one splits
    have hone : ¬ b - a ≤ 1 := by omega
    rw [canonNodes_of_split hdis hcov]
    by_cases hleaf : leaf < a + (b - a) / 2
    · rw [path_of_left hone hleaf, exists_mem_split_iff (by omega) (by omega)
        (fun ν h => inSubtree_of_mem_canonNodes _ _ _ h)
        (fun ν h => inSubtree_of_mem_canonNodes _ _ _ h)
        (fun ν h => inSubtree_of_mem_path _ _ _ h)
        (fun ν hl hr => not_inSubtree_left_right hnode hl hr)]
      exact ihl (by omega) ha hleaf
    · rw [path_of_right hone hleaf, exists_mem_append_comm, exists_mem_split_iff (by omega) (by omega)
        (fun ν h => inSubtree_of_mem_canonNodes _ _ _ h)
        (fun ν h => inSubtree_of_mem_canonNodes _ _ _ h)
        (fun ν h => inSubtree_of_mem_path _ _ _ h)
        (fun ν hr hl => not_inSubtree_left_right hnode hl hr)]
      exact ihr (by omega) (by omega) hb

/-! ## The size of the array

At depth `d` a node's index is below `2 ^ (d + 1)` and its span at most `n / 2 ^ d` rounded up;
a node below the root has a parent of span two or more, so `2 ^ (d - 1) < n`. Hence every node
either recursion visits is below `4 * n`. -/

/-- The invariant of a node `node` spanning `[a, b)` at the depth where `scale = 2 ^ depth`. -/
structure NodeBound (n node a b scale : Nat) : Prop where
  index_lt : node < 2 * scale
  span : (b - a) * scale < n + scale
  shallow : scale = 1 ∨ scale < 2 * n

namespace NodeBound

variable {n node a b scale : Nat}

theorem root (n : Nat) : NodeBound n 1 0 n 1 :=
  ⟨by decide, by omega, Or.inl rfl⟩

theorem lt (h : NodeBound n node a b scale) (hn : 0 < n) : node < 4 * n := by
  have := h.index_lt
  rcases h.shallow with hs | hs <;> omega

/-- A node that splits is not deeper than its span allows. -/
theorem scale_lt (h : NodeBound n node a b scale) (hspan : 2 ≤ b - a) : scale < n := by
  have hle : 2 * scale ≤ (b - a) * scale := Nat.mul_le_mul_right scale hspan
  have := h.span
  omega

/-- A child's span is at most half its parent's, rounded up. -/
theorem child_span (h : NodeBound n node a b scale) {c : Nat} (hc : c * 2 ≤ b - a + 1) :
    c * (2 * scale) < n + 2 * scale := by
  have hle : c * 2 * scale ≤ (b - a + 1) * scale := Nat.mul_le_mul_right scale hc
  have := h.span
  calc c * (2 * scale) = c * 2 * scale := by rw [Nat.mul_assoc]
    _ ≤ (b - a + 1) * scale := hle
    _ = (b - a) * scale + scale := by rw [Nat.add_mul, Nat.one_mul]
    _ < n + 2 * scale := by omega

theorem left (h : NodeBound n node a b scale) (hspan : 2 ≤ b - a) :
    NodeBound n (2 * node) a (a + (b - a) / 2) (2 * scale) := by
  have := h.index_lt
  have := h.scale_lt hspan
  exact ⟨by omega, h.child_span (by omega), Or.inr (by omega)⟩

theorem right (h : NodeBound n node a b scale) (hspan : 2 ≤ b - a) :
    NodeBound n (2 * node + 1) (a + (b - a) / 2) b (2 * scale) := by
  have := h.index_lt
  have := h.scale_lt hspan
  exact ⟨by omega, h.child_span (by omega), Or.inr (by omega)⟩

end NodeBound

theorem canonNodes_lt {lo hi n : Nat} (hn : 0 < n) (node a b scale : Nat)
    (h : NodeBound n node a b scale) : ∀ ν ∈ canonNodes lo hi node a b, ν < 4 * n := by
  induction node, a, b using canonNodes.induct lo hi generalizing scale with
  | case1 node a b hdis => simp [canonNodes_of_disjoint hdis]
  | case2 node a b hdis hcov =>
    rw [canonNodes_of_covered hdis hcov]
    intro ν hν
    exact List.mem_singleton.mp hν ▸ h.lt hn
  | case3 node a b hdis hcov ihl ihr =>
    have hspan : 2 ≤ b - a := by omega
    rw [canonNodes_of_split hdis hcov]
    intro ν hν
    rcases List.mem_append.mp hν with hν | hν
    · exact ihl _ (h.left hspan) ν hν
    · exact ihr _ (h.right hspan) ν hν

theorem path_lt {leaf n : Nat} (hn : 0 < n) (node a b scale : Nat)
    (h : NodeBound n node a b scale) : ∀ ν ∈ path leaf node a b, ν < 4 * n := by
  induction node, a, b using path.induct leaf generalizing scale with
  | case1 node a b ihl ihr =>
    intro ν hν
    by_cases hone : b - a ≤ 1
    · rw [path_of_le_one hone, List.mem_singleton] at hν
      exact hν ▸ h.lt hn
    by_cases hleaf : leaf < a + (b - a) / 2
    · rcases List.mem_cons.mp (path_of_left hone hleaf ▸ hν) with rfl | hν
      · exact h.lt hn
      · exact ihl hone _ (h.left (by omega)) ν hν
    · rcases List.mem_cons.mp (path_of_right hone hleaf ▸ hν) with rfl | hν
      · exact h.lt hn
      · exact ihr hone _ (h.right (by omega)) ν hν

/-! ## The array of node lists -/

section Array

variable {α β : Type}

/-- `tree[node].push(val)`, `none` where `node` is out of bounds. -/
def pushAt (tree : List (List α)) (node : Nat) (val : α) : Option (List (List α)) :=
  if node < tree.length then some (tree.modify node fun entries => entries ++ [val]) else none

theorem mem_getD_modify_push {tree : List (List α)} {node : Nat} (hnode : node < tree.length)
    (val e : α) (μ : Nat) :
    e ∈ (tree.modify node fun entries => entries ++ [val]).getD μ [] ↔
      e ∈ tree.getD μ [] ∨ (μ = node ∧ e = val) := by
  rw [List.getD_eq_getElem?_getD, List.getElem?_modify, List.getD_eq_getElem?_getD]
  by_cases hμ : node = μ
  · subst hμ
    rw [List.getElem?_eq_getElem hnode]
    simp
  · cases tree[μ]? <;> simp [hμ, Ne.symm hμ]

/-- Pushing `val` at nodes that are all in bounds succeeds, keeps the array's length, and adds
`val` to exactly those nodes. -/
theorem foldlM_pushAt (val : α) (nodes : List Nat) (tree : List (List α))
    (h : ∀ ν ∈ nodes, ν < tree.length) :
    ∃ tree', nodes.foldlM (fun tree ν => pushAt tree ν val) tree = some tree' ∧
      tree'.length = tree.length ∧
      ∀ μ e, e ∈ tree'.getD μ [] ↔ e ∈ tree.getD μ [] ∨ (μ ∈ nodes ∧ e = val) := by
  induction nodes generalizing tree with
  | nil => exact ⟨tree, rfl, rfl, by simp⟩
  | cons ν nodes ih =>
    have hν : ν < tree.length := h ν List.mem_cons_self
    have hstep : pushAt tree ν val = some (tree.modify ν fun entries => entries ++ [val]) := by
      rw [pushAt, if_pos hν]
    obtain ⟨tree', hfold, hlen, hmem⟩ := ih (tree.modify ν fun entries => entries ++ [val])
      (fun μ hμ => by rw [List.length_modify]; exact h μ (List.mem_cons_of_mem ν hμ))
    refine ⟨tree', by rw [List.foldlM_cons, hstep]; exact hfold,
      by rw [hlen, List.length_modify], fun μ e => ?_⟩
    rw [hmem, mem_getD_modify_push hν, List.mem_cons]
    constructor
    · rintro ((h | ⟨rfl, rfl⟩) | ⟨hμ, rfl⟩)
      · exact Or.inl h
      · exact Or.inr ⟨Or.inl rfl, rfl⟩
      · exact Or.inr ⟨Or.inr hμ, rfl⟩
    · rintro (h | ⟨rfl | hμ, rfl⟩)
      · exact Or.inl (Or.inl h)
      · exact Or.inl (Or.inr ⟨rfl, rfl⟩)
      · exact Or.inr ⟨hμ, rfl⟩

/-- Visiting nodes that are all in bounds, each by its list. -/
theorem foldlM_visit (visit : List α → β → β) (tree : List (List α)) (nodes : List Nat)
    (init : β) (h : ∀ ν ∈ nodes, ν < tree.length) :
    nodes.foldlM (fun best ν => tree[ν]?.map fun entries => visit entries best) init =
      some (nodes.foldl (fun best ν => visit (tree.getD ν []) best) init) := by
  induction nodes generalizing init with
  | nil => rfl
  | cons ν nodes ih =>
    have hν : ν < tree.length := h ν List.mem_cons_self
    rw [List.foldlM_cons, List.getElem?_eq_getElem hν, Option.map_some, Option.bind_eq_bind,
      Option.bind_some, ih _ (fun μ hμ => h μ (List.mem_cons_of_mem ν hμ)), List.foldl_cons,
      List.getD_eq_getElem?_getD, List.getElem?_eq_getElem hν, Option.getD_some]

end Array

/-! ## Maxima by folds -/

section Maximum

variable {α γ β : Type} [LinearOrder β]

/-- A maximum over the elements a test keeps is at most `m` when its start and every kept value
are. -/
theorem foldl_max_le_iff (p : α → Bool) (f : α → β) (xs : List α) (init m : β) :
    xs.foldl (fun best x => if p x then max best (f x) else best) init ≤ m ↔
      init ≤ m ∧ ∀ x ∈ xs, p x = true → f x ≤ m := by
  induction xs generalizing init with
  | nil => simp
  | cons x xs ih =>
    rw [List.foldl_cons, ih]
    by_cases hx : p x = true
    · simp only [hx, if_true, max_le_iff, List.forall_mem_cons, true_implies, and_assoc]
    · simp only [hx, Bool.false_eq_true, if_false, List.forall_mem_cons, false_implies, true_and]

theorem le_foldl_max (p : α → Bool) (f : α → β) (xs : List α) (init : β) :
    init ≤ xs.foldl (fun best x => if p x then max best (f x) else best) init :=
  ((foldl_max_le_iff p f xs init _).mp le_rfl).1

theorem le_foldl_max_of_mem {p : α → Bool} {f : α → β} {xs : List α} {x : α} (hx : x ∈ xs)
    (hp : p x = true) (init : β) :
    f x ≤ xs.foldl (fun best x => if p x then max best (f x) else best) init :=
  ((foldl_max_le_iff p f xs init _).mp le_rfl).2 x hx hp

/-- A start at least every kept value is the maximum. -/
theorem foldl_max_of_le {p : α → Bool} {f : α → β} {xs : List α} {init : β}
    (h : ∀ x ∈ xs, p x = true → f x ≤ init) :
    xs.foldl (fun best x => if p x then max best (f x) else best) init = init :=
  le_antisymm ((foldl_max_le_iff p f xs init init).mpr ⟨le_rfl, h⟩) (le_foldl_max p f xs init)

/-- A maximum by a fold is its start or one of the kept values. -/
theorem foldl_max_eq_or_mem (p : α → Bool) (f : α → β) (xs : List α) (init : β) :
    xs.foldl (fun best x => if p x then max best (f x) else best) init = init ∨
      ∃ x ∈ xs, p x = true ∧
        f x = xs.foldl (fun best x => if p x then max best (f x) else best) init := by
  induction xs generalizing init with
  | nil => exact Or.inl rfl
  | cons x xs ih =>
    rw [List.foldl_cons]
    by_cases hx : p x = true
    · rw [if_pos hx]
      rcases ih (max init (f x)) with h | ⟨y, hy, hpy, hfy⟩
      · rw [h]
        rcases max_choice init (f x) with hm | hm
        · exact Or.inl hm
        · exact Or.inr ⟨x, List.mem_cons_self, hx, hm.symm⟩
      · exact Or.inr ⟨y, List.mem_cons_of_mem x hy, hpy, hfy⟩
    · rw [if_neg hx]
      rcases ih init with h | ⟨y, hy, hpy, hfy⟩
      · exact Or.inl h
      · exact Or.inr ⟨y, List.mem_cons_of_mem x hy, hpy, hfy⟩

/-- Two maxima from the same start agree when each value one keeps is at most a value the other
keeps. -/
theorem foldl_max_congr {p : α → Bool} {f : α → β} {q : γ → Bool} {g : γ → β} {xs : List α}
    {ys : List γ} (init : β) (hxy : ∀ x ∈ xs, p x = true → ∃ y ∈ ys, q y = true ∧ f x ≤ g y)
    (hyx : ∀ y ∈ ys, q y = true → ∃ x ∈ xs, p x = true ∧ g y ≤ f x) :
    xs.foldl (fun best x => if p x then max best (f x) else best) init =
      ys.foldl (fun best y => if q y then max best (g y) else best) init := by
  apply le_antisymm
  · refine (foldl_max_le_iff p f xs init _).mpr ⟨le_foldl_max q g ys init, fun x hx hp => ?_⟩
    obtain ⟨y, hy, hq, hle⟩ := hxy x hx hp
    exact hle.trans (le_foldl_max_of_mem hy hq init)
  · refine (foldl_max_le_iff q g ys init _).mpr ⟨le_foldl_max p f xs init, fun y hy hq => ?_⟩
    obtain ⟨x, hx, hp, hle⟩ := hyx y hy hq
    exact hle.trans (le_foldl_max_of_mem hx hp init)

end Maximum

end SegmentTree
