import Mathlib.Data.List.Basic

/-!
# Successful runs in the exception monad

A computation in `Except ε` that succeeds succeeded at every step. These lemmas peel a bind, a
check that throws, a left fold and a `forM` apart, so that a proof about a function written in `do` notation never
unfolds the monad.
-/

namespace Except

variable {ε α β : Type}

@[simp] theorem ok_bind {a : α} {f : α → Except ε β} : (Except.ok a >>= f) = f a := rfl

@[simp] theorem map_ok' {a : α} {f : α → β} : (f <$> (Except.ok a : Except ε α)) = .ok (f a) :=
  rfl

@[simp] theorem pure_eq_ok {a : α} : (pure a : Except ε α) = .ok a := rfl

/-- A step that throws ends the computation with its error. -/
@[simp] theorem throw_bind {e : ε} {f : α → Except ε β} : (throw e >>= f : Except ε β) = .error e :=
  rfl

theorem bind_eq_ok {x : Except ε α} {f : α → Except ε β} {b : β} :
    (x >>= f) = .ok b ↔ ∃ a, x = .ok a ∧ f a = .ok b := by
  cases x <;> simp [bind, Except.bind]

/-- A check that throws when it holds: a computation that succeeds passed it and went on. This is
the shape `if c then throw e` takes in `do` notation, the rest copied into both branches. -/
theorem ite_throw_bind_eq_ok {c : Prop} [Decidable c] {e : ε} {f : PUnit → Except ε β}
    {x : Except ε β} {b : β} (h : (if c then throw e >>= f else x) = .ok b) : ¬c ∧ x = .ok b := by
  by_cases hc : c
  · rw [if_pos hc, throw_bind] at h
    cases h
  · rw [if_neg hc] at h
    exact ⟨hc, h⟩

theorem foldlM_cons_eq_ok {f : β → α → Except ε β} {init b : β} {a : α} {l : List α} :
    (a :: l).foldlM f init = .ok b ↔ ∃ init', f init a = .ok init' ∧ l.foldlM f init' = .ok b := by
  rw [List.foldlM_cons, bind_eq_ok]

/-- Every element of a successful left fold passed its step, from some accumulator. -/
theorem foldlM_eq_ok_mem {f : β → α → Except ε β} {init b : β} {l : List α}
    (h : l.foldlM f init = .ok b) : ∀ a ∈ l, ∃ acc acc', f acc a = .ok acc' := by
  induction l generalizing init with
  | nil => simp
  | cons x l ih =>
    obtain ⟨init', hx, hl⟩ := foldlM_cons_eq_ok.mp h
    intro a ha
    rcases List.mem_cons.mp ha with rfl | ha
    · exact ⟨init, init', hx⟩
    · exact ih hl a ha

theorem forM_eq_ok {f : α → Except ε PUnit} {l : List α} :
    forM l f = .ok () ↔ ∀ a ∈ l, f a = .ok () := by
  induction l with
  | nil => simp [pure, Except.pure]
  | cons a l ih =>
    simp only [List.forM_cons, bind_eq_ok, ih, List.mem_cons, forall_eq_or_imp]
    constructor
    · rintro ⟨⟨⟩, head, rest⟩
      exact ⟨head, rest⟩
    · rintro ⟨head, rest⟩
      exact ⟨(), head, rest⟩

end Except
