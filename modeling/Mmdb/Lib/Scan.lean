import Mathlib.Data.List.Induction

/-!
# Filtering with a state

A loop that walks a list, reads and updates a state at each element, and emits an output for some
of them: `List.scanFilter f s l` is the state after the loop and the outputs in order. The outputs
of a list split in two are those of the first part, then those of the second run from the state
the first part leaves (`scanFilter_append`), and a property of the processed prefix, the state and
the outputs that each step keeps holds after the whole list (`scanFilter_induction`).
-/

namespace List

variable {σ α β : Type} (f : σ → α → σ × Option β)

/-- Run `f` over the list from state `s`: the final state and the outputs emitted. -/
def scanFilter : σ → List α → σ × List β
  | s, [] => (s, [])
  | s, a :: l => ((scanFilter (f s a).1 l).1, (f s a).2.toList ++ (scanFilter (f s a).1 l).2)

@[simp] theorem scanFilter_nil (s : σ) : scanFilter f s [] = (s, []) := rfl

theorem scanFilter_cons (s : σ) (a : α) (l : List α) :
    scanFilter f s (a :: l) =
      ((scanFilter f (f s a).1 l).1, (f s a).2.toList ++ (scanFilter f (f s a).1 l).2) := rfl

theorem scanFilter_append (s : σ) (l₁ l₂ : List α) :
    scanFilter f s (l₁ ++ l₂) =
      ((scanFilter f (scanFilter f s l₁).1 l₂).1,
        (scanFilter f s l₁).2 ++ (scanFilter f (scanFilter f s l₁).1 l₂).2) := by
  induction l₁ generalizing s with
  | nil => rfl
  | cons a l₁ ih => simp [scanFilter_cons, ih]

theorem scanFilter_concat (s : σ) (l : List α) (a : α) :
    scanFilter f s (l ++ [a]) =
      ((f (scanFilter f s l).1 a).1, (scanFilter f s l).2 ++ (f (scanFilter f s l).1 a).2.toList) := by
  simp [scanFilter_append, scanFilter_cons]

/-- A property of the processed prefix, the state and the outputs so far, true at the start and
kept by every step taken inside `l`, holds when the loop is done. -/
theorem scanFilter_induction (P : List α → σ → List β → Prop) {s : σ} {l : List α}
    (h₀ : P [] s [])
    (hstep : ∀ pre a rest t out, l = pre ++ a :: rest → P pre t out →
      P (pre ++ [a]) (f t a).1 (out ++ (f t a).2.toList)) :
    P l (scanFilter f s l).1 (scanFilter f s l).2 := by
  -- walk the list from the end: the prefix grows one element at a time
  induction l using List.reverseRecOn with
  | nil => exact h₀
  | append_singleton l a ih =>
    rw [scanFilter_concat]
    exact hstep l a [] _ _ rfl
      (ih fun pre b rest t out hl => hstep pre b (rest ++ [a]) t out (by simp [hl]))

/-- Every output comes from one element, at the state the elements before it leave. -/
theorem mem_scanFilter {s : σ} {l : List α} {b : β} (hb : b ∈ (scanFilter f s l).2) :
    ∃ pre a rest, l = pre ++ a :: rest ∧ (f (scanFilter f s pre).1 a).2 = some b := by
  induction l using List.reverseRecOn with
  | nil => simp at hb
  | append_singleton l a ih =>
    rw [scanFilter_concat, List.mem_append] at hb
    rcases hb with hb | hb
    · obtain ⟨pre, a', rest, hl, ha'⟩ := ih hb
      exact ⟨pre, a', rest ++ [a], by simp [hl], ha'⟩
    · exact ⟨l, a, [], rfl, Option.mem_toList.mp hb⟩

/-- Two splits of one list around an element, the first before the first element that passes a
test and the second at an element that passes it: the second is the first, or lies after it. -/
theorem eq_or_exists_of_append_cons {p : α → Bool} {A B P R : List α} {v w : α}
    (hA : ∀ a ∈ A, p a = false) (hw : p w = true) (h : A ++ v :: B = P ++ w :: R) :
    (P = A ∧ w = v ∧ R = B) ∨ ∃ B₁, P = A ++ v :: B₁ := by
  rcases List.append_eq_append_iff.mp h with ⟨as, hP, hv⟩ | ⟨bs, hA', hR⟩
  · cases as with
    | nil =>
      simp only [List.nil_append, List.cons.injEq] at hv
      exact .inl ⟨by simpa using hP, hv.1.symm, hv.2.symm⟩
    | cons a as =>
      simp only [List.cons_append, List.cons.injEq] at hv
      obtain ⟨rfl, -⟩ := hv
      exact .inr ⟨as, hP⟩
  · cases bs with
    | nil =>
      simp only [List.nil_append, List.cons.injEq] at hR
      exact .inl ⟨by simpa using hA'.symm, hR.1, hR.2⟩
    | cons b bs =>
      -- `w` would lie in `A`, where nothing passes the test
      simp only [List.cons_append, List.cons.injEq] at hR
      obtain ⟨rfl, -⟩ := hR
      have := hA w (by simp [hA'])
      rw [hw] at this
      cases this

end List
