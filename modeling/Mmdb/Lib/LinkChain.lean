import Mathlib.Data.List.Basic

/-!
# Chains of nullable links

Cells of a type `α` linked by `next : α → Option α`, where `none` is the null link: the shape of
every singly linked level of a pointer structure. `Seg next s l t` says that following the links
from `s` visits the cells of `l` in order and arrives at `t`; a `Chain` is a segment that ends at
the null link, the whole list a head pointer denotes.

Three loops walk a chain, each with a fuel that bounds the number of links it follows, and each
is right for any fuel at least the chain's length:

* `walk` advances while the next cell passes a test and returns the last cell that did
  (`walk_chain`: the last cell of the longest passing prefix);
* `scan` returns the first cell that passes (`scan_chain`: `List.find?`);
* `collect` reads every cell (`collect_chain`).

Linking a new cell in at the front (`Chain.splice_front`) or after a cell (`Chain.splice_after`)
gives the chain with the cell inserted there, provided no other link changes.
-/

namespace LinkChain

variable {α : Type} {next next' : α → Option α}

/-- `Seg next s l t`: following `next` from the link `s` visits the cells of `l`, in order, and
arrives at the link `t`. -/
inductive Seg (next : α → Option α) : Option α → List α → Option α → Prop
  | nil (t : Option α) : Seg next t [] t
  | cons {a : α} {l : List α} {t : Option α} : Seg next (next a) l t → Seg next (some a) (a :: l) t

/-- `Chain next s l`: the link `s` heads the list `l`, which ends at the null link. -/
def Chain (next : α → Option α) (s : Option α) (l : List α) : Prop := Seg next s l none

/-- The link that follows the cells of `l` when they are reached from `s`: `s` itself when `l` is
empty, else the link out of its last cell. -/
def after (next : α → Option α) (s : Option α) (l : List α) : Option α := l.getLast?.elim s next

@[simp] theorem after_nil (s : Option α) : after next s [] = s := rfl

theorem after_cons (s : Option α) (a : α) (l : List α) :
    after next s (a :: l) = after next (next a) l := by
  cases l with
  | nil => rfl
  | cons b l => simp [after, List.getLast?_cons]

@[simp] theorem after_concat (s : Option α) (l : List α) (a : α) :
    after next s (l ++ [a]) = next a := by
  simp [after]

/-! ## Segments -/

theorem Seg.append {s m t : Option α} {l₁ l₂ : List α} (h₁ : Seg next s l₁ m)
    (h₂ : Seg next m l₂ t) : Seg next s (l₁ ++ l₂) t := by
  induction h₁ with
  | nil => exact h₂
  | cons _ ih => exact .cons (ih h₂)

/-- A segment splits at any point, at the link that follows its first part. -/
theorem Seg.split {s t : Option α} {l₁ l₂ : List α} (h : Seg next s (l₁ ++ l₂) t) :
    Seg next s l₁ (after next s l₁) ∧ Seg next (after next s l₁) l₂ t := by
  induction l₁ generalizing s with
  | nil => exact ⟨.nil s, h⟩
  | cons a l₁ ih =>
    cases h with
    | cons h =>
      obtain ⟨h₁, h₂⟩ := ih h
      rw [after_cons]
      exact ⟨.cons h₁, h₂⟩

/-- A segment only reads the links out of its own cells. -/
theorem Seg.congr {s t : Option α} {l : List α} (h : Seg next s l t)
    (hagree : ∀ a ∈ l, next' a = next a) : Seg next' s l t := by
  induction h with
  | nil t => exact .nil t
  | @cons a l t _ ih =>
    apply Seg.cons
    rw [hagree a List.mem_cons_self]
    exact ih fun b hb => hagree b (List.mem_cons_of_mem a hb)

/-! ## Chains -/

theorem Chain.nil : Chain next none [] := Seg.nil none

theorem Chain.head?_eq {s : Option α} {l : List α} (h : Chain next s l) : s = l.head? := by
  cases h <;> rfl

/-- The rest of a chain past a prefix is the chain that starts at the link after the prefix. -/
theorem Chain.drop {s : Option α} {l₁ l₂ : List α} (h : Chain next s (l₁ ++ l₂)) :
    Chain next (after next s l₁) l₂ :=
  (Seg.split h).2

theorem Chain.congr {s : Option α} {l : List α} (h : Chain next s l)
    (hagree : ∀ a ∈ l, next' a = next a) : Chain next' s l :=
  Seg.congr h hagree

/-- The link out of a cell of a chain heads the rest of the chain. -/
theorem Chain.next_eq {s : Option α} {A B : List α} {p : α} (h : Chain next s (A ++ p :: B)) :
    next p = B.head? := by
  have hsplit : Chain next s ((A ++ [p]) ++ B) := by simpa using h
  have hrest := Chain.drop hsplit
  rw [after_concat] at hrest
  exact hrest.head?_eq

/-- Linking a cell in front of a chain. -/
theorem Chain.splice_front {s : Option α} {l : List α} {x : α} (h : Chain next s l)
    (hx : next' x = s) (hagree : ∀ a ∈ l, next' a = next a) : Chain next' (some x) (x :: l) := by
  apply Seg.cons
  rw [hx]
  exact h.congr hagree

/-- Linking a cell in after the cell `p` of a chain. -/
theorem Chain.splice_after {s : Option α} {A B : List α} {p x : α} (h : Chain next s (A ++ p :: B))
    (hp : next' p = some x) (hx : next' x = next p) (hA : ∀ a ∈ A, next' a = next a)
    (hB : ∀ b ∈ B, next' b = next b) : Chain next' s (A ++ p :: x :: B) := by
  obtain ⟨hfront, hback⟩ := Seg.split h
  -- the segment past `A` starts at `p`: it is nonempty, so its link is `some p`
  have hp_link : after next s A = some p := by
    generalize after next s A = m at hback
    cases hback
    rfl
  rw [hp_link] at hfront hback
  cases hback with
  | cons hB' =>
    have hrest : Seg next' (some p) (p :: x :: B) none := by
      apply Seg.cons
      rw [hp]
      apply Seg.cons
      rw [hx]
      exact hB'.congr hB
    exact (hfront.congr hA).append hrest

/-! ## Walking a chain -/

/-- The loop that advances from the link `ptr` while the cell there passes `p`, keeping in `cur`
the last cell that passed; `fuel` bounds the links it follows. -/
def walk (next : α → Option α) (p : α → Bool) : Nat → Option α → Option α → Option α
  | _, cur, none => cur
  | 0, cur, some _ => cur
  | fuel + 1, cur, some a => if p a then walk next p fuel (some a) (next a) else cur

/-- The loop that returns the first cell from the link `ptr` on that passes `p`. -/
def scan (next : α → Option α) (p : α → Bool) : Nat → Option α → Option α
  | _, none => none
  | 0, some _ => none
  | fuel + 1, some a => if p a then some a else scan next p fuel (next a)

/-- The loop that reads every cell from the link `ptr` on. -/
def collect (next : α → Option α) : Nat → Option α → List α
  | _, none => []
  | 0, some _ => []
  | fuel + 1, some a => a :: collect next fuel (next a)

@[simp] theorem collect_zero (s : Option α) : collect next 0 s = [] := by
  cases s <;> rfl

/-- Walking on from the last cell of a passing prefix `A` over the chain `l` that follows it ends
at the last cell of the longest passing prefix of `A ++ l`. -/
theorem walk_chain {p : α → Bool} {A l : List α} {s : Option α} {fuel : Nat}
    (h : Chain next s l) (hfuel : l.length ≤ fuel) (hA : ∀ a ∈ A, p a) :
    walk next p fuel A.getLast? s = ((A ++ l).takeWhile p).getLast? := by
  induction l generalizing A s fuel with
  | nil =>
    cases h
    rw [walk, List.takeWhile_append_of_pos hA, List.takeWhile_nil, List.append_nil]
  | cons b l ih =>
    cases h with
    | cons h =>
      obtain ⟨fuel, rfl⟩ : ∃ f, fuel = f + 1 :=
        Nat.exists_eq_add_of_le' (by simp at hfuel; omega)
      rw [walk]
      by_cases hb : p b = true
      · rw [if_pos hb, ← List.getLast?_concat (l := A) (a := b),
          ih h (by simp at hfuel; omega) (by simpa [or_imp, forall_and] using ⟨hA, hb⟩),
          List.append_assoc, List.singleton_append]
      · rw [if_neg hb, List.takeWhile_append_of_pos hA, List.takeWhile_cons_of_neg hb,
          List.append_nil]

theorem scan_chain {p : α → Bool} {l : List α} {s : Option α} {fuel : Nat}
    (h : Chain next s l) (hfuel : l.length ≤ fuel) : scan next p fuel s = l.find? p := by
  induction l generalizing s fuel with
  | nil =>
    cases h
    rw [scan, List.find?_nil]
  | cons b l ih =>
    cases h with
    | cons h =>
      obtain ⟨fuel, rfl⟩ : ∃ f, fuel = f + 1 :=
        Nat.exists_eq_add_of_le' (by simp at hfuel; omega)
      rw [scan, List.find?_cons]
      by_cases hb : p b = true
      · rw [if_pos hb, hb]
      · rw [if_neg hb, Bool.not_eq_true _ |>.mp hb, ih h (by simp at hfuel; omega)]

theorem collect_chain {l : List α} {s : Option α} {fuel : Nat} (h : Chain next s l)
    (hfuel : l.length ≤ fuel) : collect next fuel s = l := by
  induction l generalizing s fuel with
  | nil =>
    cases h
    rw [collect]
  | cons b l ih =>
    cases h with
    | cons h =>
      obtain ⟨fuel, rfl⟩ : ∃ f, fuel = f + 1 :=
        Nat.exists_eq_add_of_le' (by simp at hfuel; omega)
      rw [collect, ih h (by simp at hfuel; omega)]

end LinkChain
