import Mathlib
import Mmdb.Lib.LittleEndian
import Mmdb.Lib.BinarySearch

/-!
# Operations that panic

Rust panics on a slice range out of bounds, on an index past the end, and, in a debug build, on
an unsigned result outside its type or a shift by the type's width or more. Each such operation
is here a function into `Option`, `none` standing for the panic, with a lemma giving its value
when the operands are in range (`range_eq`, `add_eq`, ...). `Slice` is a Rust slice or vector,
which holds at most `isize::MAX` elements; `usize` is 64 bits wide.

A function written with these operations runs in `ExceptT ε Option`: `none` is a panic and
`some (.error e)` an error it returns. `Refines c r` says that `c` does not panic and returns
what the total function `r` returns. Its rules follow the monad: `Refines.bind` for a step whose
result the rest uses, `lift_some` for an operation in range, `Refines.foldlM` for a loop over a
list. The refinement of a decoder is proved along its code with them, and the `if`s it shares
with the total function are split on both sides at once.

Code with state runs in `ExceptT ε (StateT σ Option)`. `Keeps inv c post` says that from any state
where `inv` holds it does not panic and keeps `inv`; `Runs c s r s'` says what one run from `s`
returns and where it ends. Both have a rule for each operation of the monad, applied along the
code in the same way.
-/

namespace Panic

variable {α β ε : Type}

/-- A Rust slice or vector: at most `isize::MAX` elements. -/
abbrev Slice (α : Type) := {s : List α // s.length < 2 ^ 63}

/-! ## The operations -/

/-- `s[lo..hi]`. -/
def range (s : List α) (lo hi : Nat) : Option (List α) :=
  if lo ≤ hi ∧ hi ≤ s.length then some (s.slice lo (hi - lo)) else none

/-- `s[lo..]`. -/
def rangeFrom (s : List α) (lo : Nat) : Option (List α) :=
  if lo ≤ s.length then some (s.drop lo) else none

/-- `s[..hi]`. -/
def rangeTo (s : List α) (hi : Nat) : Option (List α) :=
  if hi ≤ s.length then some (s.take hi) else none

/-- `s[i]`. -/
def index (s : List α) (i : Nat) : Option α := s[i]?

/-- `a + b` on a `w`-bit unsigned type; also `checked_add`, whose `None` is not a panic. -/
def add (w a b : Nat) : Option Nat := if a + b < 2 ^ w then some (a + b) else none

/-- `a - b` on an unsigned type. -/
def sub (a b : Nat) : Option Nat := if b ≤ a then some (a - b) else none

/-- `a * b` on a `w`-bit unsigned type. -/
def mul (w a b : Nat) : Option Nat := if a * b < 2 ^ w then some (a * b) else none

/-- `a << s` on a `w`-bit unsigned type: the bits shifted past the width are lost, and a shift
by the width or more panics. -/
def shl (w a s : Nat) : Option Nat := if s < w then some (a <<< s % 2 ^ w) else none

theorem range_eq {s : List α} {lo hi : Nat} (hle : lo ≤ hi) (hhi : hi ≤ s.length) :
    range s lo hi = some (s.slice lo (hi - lo)) :=
  if_pos ⟨hle, hhi⟩

theorem range_add_eq {s : List α} {lo n : Nat} (h : lo + n ≤ s.length) :
    range s lo (lo + n) = some (s.slice lo n) := by
  rw [range_eq (Nat.le_add_right lo n) h, Nat.add_sub_cancel_left]

theorem rangeFrom_eq {s : List α} {lo : Nat} (hlo : lo ≤ s.length) :
    rangeFrom s lo = some (s.drop lo) :=
  if_pos hlo

theorem rangeTo_eq {s : List α} {hi : Nat} (hhi : hi ≤ s.length) :
    rangeTo s hi = some (s.take hi) :=
  if_pos hhi

theorem index_eq {s : List α} {i : Nat} (hi : i < s.length) (d : α) :
    index s i = some (s.getD i d) := by
  simp [index, List.getD_eq_getElem?_getD, List.getElem?_eq_getElem hi]

theorem add_eq {w a b : Nat} (h : a + b < 2 ^ w) : add w a b = some (a + b) := if_pos h

theorem sub_eq {a b : Nat} (h : b ≤ a) : sub a b = some (a - b) := if_pos h

theorem mul_eq {w a b : Nat} (h : a * b < 2 ^ w) : mul w a b = some (a * b) := if_pos h

/-- A shift that keeps every bit inside the width. -/
theorem shl_eq {w a s : Nat} (hs : s < w) (h : a <<< s < 2 ^ w) : shl w a s = some (a <<< s) := by
  rw [shl, if_pos hs, Nat.mod_eq_of_lt h]

/-- A `k`-bit value shifted by `s` fits in `s + k` bits. -/
theorem shiftLeft_lt {x k : Nat} (hx : x < 2 ^ k) (s : Nat) : x <<< s < 2 ^ (s + k) := by
  rw [Nat.shiftLeft_eq, pow_add, mul_comm (2 ^ s)]
  exact Nat.mul_lt_mul_of_pos_right hx (Nat.two_pow_pos s)

/-! ## Refinement -/

/-- `c` does not panic and returns what `r` returns. -/
def Refines (c : ExceptT ε Option α) (r : Except ε α) : Prop := c.run = some r

/-- An operation in range goes on with its value. -/
@[simp] theorem lift_some (a : α) : (liftM (some a) : ExceptT ε Option α) = pure a := rfl

namespace Refines

/-- A step and the rest: the rest is only run on a value the step returns. -/
theorem bind {c : ExceptT ε Option α} {r : Except ε α} {f : α → ExceptT ε Option β}
    {g : α → Except ε β} (hc : Refines c r) (hf : ∀ a, r = .ok a → Refines (f a) (g a)) :
    Refines (c >>= f) (r >>= g) := by
  unfold Refines at hc ⊢
  rw [ExceptT.run_bind, hc]
  cases r with
  | error e => rfl
  | ok a => exact hf a rfl

/-- A step known to return `a`: the rest goes on with it. -/
theorem bind_ok {c : ExceptT ε Option α} {a : α} {f : α → ExceptT ε Option β} {r : Except ε β}
    (hc : Refines c (.ok a)) (hf : Refines (f a) r) : Refines (c >>= f) r :=
  bind (g := fun _ => r) hc (fun _ h => by cases h; exact hf)

/-- A step known to return the error `e`: so does the whole. -/
theorem bind_error {c : ExceptT ε Option α} {e : ε} {f : α → ExceptT ε Option β}
    (hc : Refines c (.error e)) : Refines (c >>= f) (.error e) :=
  bind (g := fun _ => .error e) hc (fun _ h => by cases h)

/-- An operation in range: the rest goes on with its value. -/
theorem lift {o : Option β} {a : β} (ho : o = some a) {f : β → ExceptT ε Option α}
    {r : Except ε α} (h : Refines (f a) r) : Refines (liftM o >>= f) r := by
  subst ho
  exact h

/-- A check made on both sides. -/
theorem ite {p : Prop} [Decidable p] {c₁ c₂ : ExceptT ε Option α} {r₁ r₂ : Except ε α}
    (h₁ : p → Refines c₁ r₁) (h₂ : ¬ p → Refines c₂ r₂) :
    Refines (if p then c₁ else c₂) (if p then r₁ else r₂) := by
  by_cases hp : p
  · rw [if_pos hp, if_pos hp]
    exact h₁ hp
  · rw [if_neg hp, if_neg hp]
    exact h₂ hp

/-- A test made on the checked side only, whose branches both refine `r`. -/
theorem ite_left {p : Prop} [Decidable p] {c₁ c₂ : ExceptT ε Option α} {r : Except ε α}
    (h₁ : p → Refines c₁ r) (h₂ : ¬ p → Refines c₂ r) : Refines (if p then c₁ else c₂) r := by
  by_cases hp : p
  · rw [if_pos hp]
    exact h₁ hp
  · rw [if_neg hp]
    exact h₂ hp

/-- An error ends both sides. -/
theorem throw_bind (e : ε) (f : β → ExceptT ε Option α) (g : β → Except ε α) :
    Refines (throw e >>= f) (throw e >>= g) := rfl

/-- A check made on both sides, the total one followed by `k`. -/
theorem ite_bind {γ : Type} {p : Prop} [Decidable p] {c₁ c₂ : ExceptT ε Option α}
    {r₁ r₂ : Except ε γ} {k : γ → Except ε α} (h₁ : p → Refines c₁ (r₁ >>= k))
    (h₂ : ¬ p → Refines c₂ (r₂ >>= k)) :
    Refines (if p then c₁ else c₂) ((if p then r₁ else r₂) >>= k) := by
  by_cases hp : p
  · rw [if_pos hp, if_pos hp]
    exact h₁ hp
  · rw [if_neg hp, if_neg hp]
    exact h₂ hp

/-- A check made plainly on one side and with its proof on the total one, followed by `k`. -/
theorem ite_dite_bind {γ : Type} {p : Prop} [Decidable p] {c₁ c₂ : ExceptT ε Option α}
    {r₁ : p → Except ε γ} {r₂ : ¬ p → Except ε γ} {k : γ → Except ε α}
    (h₁ : ∀ hp : p, Refines c₁ (r₁ hp >>= k)) (h₂ : ∀ hp : ¬ p, Refines c₂ (r₂ hp >>= k)) :
    Refines (if p then c₁ else c₂) ((if hp : p then r₁ hp else r₂ hp) >>= k) := by
  by_cases hp : p
  · rw [if_pos hp, dif_pos hp]
    exact h₁ hp
  · rw [if_neg hp, dif_neg hp]
    exact h₂ hp

/-- A step whose value is mapped. -/
theorem map {c : ExceptT ε Option α} {r : Except ε α} (f : α → β) (h : Refines c r) :
    Refines (f <$> c) (f <$> r) := by
  unfold Refines at h ⊢
  rw [ExceptT.run_map, h]
  cases r <;> rfl

/-- A step and the rest, the total side followed by `k`. -/
theorem bind_bind {γ δ : Type} {c : ExceptT ε Option γ} {r : Except ε γ}
    {f : γ → ExceptT ε Option α} {g : γ → Except ε δ} {k : δ → Except ε α} (hc : Refines c r)
    (hf : ∀ a, r = .ok a → Refines (f a) (g a >>= k)) : Refines (c >>= f) ((r >>= g) >>= k) := by
  unfold Refines at hc ⊢
  rw [ExceptT.run_bind, hc]
  cases r with
  | error e => rfl
  | ok a => exact hf a rfl

/-- An error ends both sides, the total one followed by `k`. -/
theorem throw_bind_bind {γ : Type} (e : ε) (f : β → ExceptT ε Option α) (g : β → Except ε γ)
    (k : γ → Except ε α) : Refines (throw e >>= f) ((throw e >>= g) >>= k) := rfl

/-- A loop over a list, each pass refining the total one on what the loop can reach. -/
theorem foldlM {f : β → α → ExceptT ε Option β} {g : β → α → Except ε β} {l : List α}
    (hstep : ∀ b, ∀ a ∈ l, Refines (f b a) (g b a)) (init : β) :
    Refines (l.foldlM f init) (l.foldlM g init) := by
  induction l generalizing init with
  | nil => rfl
  | cons a l ih =>
    rw [List.foldlM_cons, List.foldlM_cons]
    exact (hstep init a List.mem_cons_self).bind fun b _ =>
      ih (fun b' a' ha' => hstep b' a' (List.mem_cons_of_mem a ha')) b

end Refines

/-- A panic. -/
def fail : ExceptT ε Option α := ExceptT.mk none

theorem rangeTo_length_le {s d : List α} {hi : Nat} (h : rangeTo s hi = some d) :
    d.length ≤ s.length := by
  unfold rangeTo at h
  split at h
  · cases h
    exact List.length_take_le' _ _
  · cases h

/-! ## The binary search loop -/

/-- The loop of `BinarySearch.search` on `w`-bit indices, with a test that may panic. The
operations `right - left`, `left + (right - left) / 2` and `mid + 1` are each checked for their
panic, and go on with the exact value. -/
def search (w : Nat) (test : Nat → ExceptT ε Option Bool) (left right : Nat) :
    ExceptT ε Option Nat :=
  if left < right then do
    let _ ← sub right left
    let _ ← add w left ((right - left) / 2)
    let mid := left + (right - left) / 2
    if ← test mid then
      let _ ← add w mid 1
      search w test (mid + 1) right
    else search w test left mid
  else pure left
termination_by right - left

/-- Indices below `2 ^ w` keep every step of the search in range: the search refines the total
one whenever the test does on the interval. -/
theorem search_refines {w : Nat} {test : Nat → ExceptT ε Option Bool} {test' : Nat → Except ε Bool}
    {left right : Nat} (hright : right < 2 ^ w)
    (htest : ∀ i, left ≤ i → i < right → Refines (test i) (test' i)) :
    Refines (search w test left right) (BinarySearch.search test' left right) := by
  induction left, right using BinarySearch.search.induct test' with
  | case1 left right hlt e hmid =>
    have hm := htest (left + (right - left) / 2) (by omega) (by omega)
    rw [hmid] at hm
    rw [search, if_pos hlt, BinarySearch.search, if_pos hlt, hmid]
    exact Refines.lift (sub_eq (by omega)) (Refines.lift (add_eq (by omega)) hm.bind_error)
  | case2 left right hlt hmid ih =>
    have hm := htest (left + (right - left) / 2) (by omega) (by omega)
    rw [hmid] at hm
    rw [search, if_pos hlt, BinarySearch.search, if_pos hlt, hmid]
    have hrest := ih hright fun i hi hi' => htest i (by omega) hi'
    exact Refines.lift (sub_eq (by omega)) (Refines.lift (add_eq (by omega))
      (hm.bind_ok (Refines.lift (add_eq (by omega)) hrest)))
  | case3 left right hlt hmid ih =>
    have hm := htest (left + (right - left) / 2) (by omega) (by omega)
    rw [hmid] at hm
    rw [search, if_pos hlt, BinarySearch.search, if_pos hlt, hmid]
    have hrest := ih (by omega) fun i hi hi' => htest i hi (by omega)
    exact Refines.lift (sub_eq (by omega)) (Refines.lift (add_eq (by omega)) (hm.bind_ok hrest))
  | case4 left right hge =>
    rw [search, if_neg hge, BinarySearch.search, if_neg hge]
    rfl

/-! ## Runs with state

A function that also changes state (`&mut` arguments) runs in `ExceptT ε (StateT σ Option)`: an
error it returns keeps the state changed so far, and `none` is a panic. `Keeps inv c post` says
that from any state where `inv` holds, `c` does not panic, ends in a state where `inv` holds
whether it returns or throws, and returns only values that satisfy `post`. Its rules follow the
monad, as those of `Refines` do. -/

section State

variable {σ : Type} (inv : σ → Prop)

/-- From a state where `inv` holds, `c` does not panic, ends where `inv` holds and returns a
value that satisfies `post`. -/
def Keeps (c : ExceptT ε (StateT σ Option) α) (post : α → Prop) : Prop :=
  ∀ s, inv s → ∃ r s', c.run.run s = some (r, s') ∧ inv s' ∧ ∀ a, r = .ok a → post a

namespace Keeps

variable {inv} {post : α → Prop}

/-- An error ends the run, in the state it was thrown from. -/
theorem throw_bind (e : ε) (f : β → ExceptT ε (StateT σ Option) α) :
    Keeps inv (throw e >>= f) post :=
  fun s hs => ⟨.error e, s, rfl, hs, fun _ ha => by cases ha⟩

theorem pure {a : α} (h : post a) : Keeps inv (pure a : ExceptT ε (StateT σ Option) α) post :=
  fun s hs => ⟨.ok a, s, rfl, hs, fun _ ha => by cases ha; exact h⟩

theorem throw (e : ε) : Keeps inv (throw e : ExceptT ε (StateT σ Option) α) post :=
  fun s hs => ⟨.error e, s, rfl, hs, fun _ ha => by cases ha⟩

/-- A step and the rest, the rest run on what the step returns. -/
theorem bind {c : ExceptT ε (StateT σ Option) β} {mid : β → Prop}
    {f : β → ExceptT ε (StateT σ Option) α} (hc : Keeps inv c mid)
    (hf : ∀ b, mid b → Keeps inv (f b) post) : Keeps inv (c >>= f) post := by
  intro s hs
  obtain ⟨r, s', hrun, hs', hmid⟩ := hc s hs
  cases r with
  | error e =>
    refine ⟨.error e, s', ?_, hs', fun _ ha => by cases ha⟩
    simp only [ExceptT.run_bind, StateT.run_bind, hrun]
    rfl
  | ok b =>
    obtain ⟨r', s'', hrun', hs'', hpost⟩ := hf b (hmid b rfl) s' hs'
    refine ⟨r', s'', ?_, hs'', hpost⟩
    simp only [ExceptT.run_bind, StateT.run_bind, hrun]
    exact hrun'

/-- An operation in range: the rest goes on with its value. -/
theorem lift {o : Option β} {b : β} (ho : o = some b) {f : β → ExceptT ε (StateT σ Option) α}
    (h : Keeps inv (f b) post) : Keeps inv (liftM o >>= f) post := by
  subst ho
  exact h

theorem ite {p : Prop} [Decidable p] {c₁ c₂ : ExceptT ε (StateT σ Option) α}
    (h₁ : p → Keeps inv c₁ post) (h₂ : ¬ p → Keeps inv c₂ post) :
    Keeps inv (if p then c₁ else c₂) post := by
  by_cases hp : p
  · rw [if_pos hp]
    exact h₁ hp
  · rw [if_neg hp]
    exact h₂ hp

/-- A change of state that keeps the invariant. -/
theorem modify {g : σ → σ} (hg : ∀ s, inv s → inv (g s)) :
    Keeps inv (modify g : ExceptT ε (StateT σ Option) PUnit) fun _ => True :=
  fun s hs => ⟨.ok (), g s, rfl, hg s hs, fun _ _ => trivial⟩

end Keeps

/-- From `s`, `c` does not panic, returns `r` and ends in `s'`: a run whose outcome is known, for
code followed on an input it accepts. -/
def Runs (c : ExceptT ε (StateT σ Option) α) (s : σ) (r : Except ε α) (s' : σ) : Prop :=
  c.run.run s = some (r, s')

namespace Runs

variable {s s₁ s₂ : σ} {r : Except ε α}

theorem pure (a : α) (s : σ) : Runs (pure a : ExceptT ε (StateT σ Option) α) s (.ok a) s := rfl

theorem modify (g : σ → σ) (s : σ) :
    Runs (modify g : ExceptT ε (StateT σ Option) PUnit) s (.ok ()) (g s) := rfl

/-- A step that succeeds, and the rest run on what it returns from where it ends. -/
theorem bind {c : ExceptT ε (StateT σ Option) β} {f : β → ExceptT ε (StateT σ Option) α} {b : β}
    (hc : Runs c s (.ok b) s₁) (hf : Runs (f b) s₁ r s₂) : Runs (c >>= f) s r s₂ := by
  unfold Runs at *
  simp only [ExceptT.run_bind, StateT.run_bind, hc]
  exact hf

/-- An operation in range: the rest goes on with its value. -/
theorem lift {o : Option β} {b : β} (ho : o = some b) {f : β → ExceptT ε (StateT σ Option) α}
    (h : Runs (f b) s r s₁) : Runs (liftM o >>= f) s r s₁ := by
  subst ho
  exact h

theorem ite_neg {p : Prop} [Decidable p] {c₁ c₂ : ExceptT ε (StateT σ Option) α} (hp : ¬ p)
    (h : Runs c₂ s r s₁) : Runs (if p then c₁ else c₂) s r s₁ := by
  rw [if_neg hp]
  exact h

end Runs

end State

end Panic
