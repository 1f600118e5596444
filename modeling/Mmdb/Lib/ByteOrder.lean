import Mathlib

/-!
# Big-endian numbers under the lexicographic order

General facts about the lexicographic order of byte strings, `List UInt8` with the order Lean
gives lists. Lists of one length compare as the big-endian numbers they spell
(`compare_eq_compare_beValue`), and the low bytes of a number, most significant first, spell it
back modulo a power of 256 (`beValue_map_shiftRight`).
-/

/-- Two-digit numbers in base `B` compare digit by digit. -/
theorem Nat.compare_mul_add {B x y p q : Nat} (hp : p < B) (hq : q < B) :
    compare (x * B + p) (y * B + q) = (compare x y).then (compare p q) := by
  rcases lt_trichotomy x y with h | rfl | h
  · have hlt : x * B + p < y * B + q := by nlinarith
    rw [compare_lt_iff_lt.mpr h, compare_lt_iff_lt.mpr hlt]
    rfl
  · simp only [Std.ReflCmp.compare_self, Ordering.eq_then]
    rcases lt_trichotomy p q with h | rfl | h
    · rw [compare_lt_iff_lt.mpr h, compare_lt_iff_lt.mpr (by omega)]
    · simp
    · rw [compare_gt_iff_gt.mpr h, compare_gt_iff_gt.mpr (by omega)]
  · have hgt : y * B + q < x * B + p := by nlinarith
    rw [compare_gt_iff_gt.mpr h, compare_gt_iff_gt.mpr hgt]
    rfl

/-- Subtracting from a common bound reverses the order. -/
theorem Nat.compare_sub_sub {c x y : Nat} (hx : x ≤ c) (hy : y ≤ c) :
    compare (c - x) (c - y) = compare y x := by
  rcases lt_trichotomy x y with h | rfl | h
  · rw [compare_gt_iff_gt.mpr h, compare_gt_iff_gt.mpr (by omega)]
  · simp
  · rw [compare_lt_iff_lt.mpr h, compare_lt_iff_lt.mpr (by omega)]

theorem UInt8.compare_eq_compare_toNat (x y : UInt8) : compare x y = compare x.toNat y.toNat := by
  simp [compare, compareOfLessAndEq, UInt8.lt_iff_toNat_lt, UInt8.toNat_inj]

namespace List

section BigEndian

/-- The big-endian number a byte string spells. -/
def beValue (bytes : List UInt8) : Nat := bytes.foldl (fun acc byte => acc * 256 + byte.toNat) 0

theorem foldl_beValue_start (bytes : List UInt8) (start : Nat) :
    bytes.foldl (fun acc byte => acc * 256 + byte.toNat) start =
      start * 256 ^ bytes.length + beValue bytes := by
  induction bytes generalizing start with
  | nil => simp [beValue]
  | cons b bytes ih =>
    rw [beValue, foldl_cons, foldl_cons, ih, ih, length_cons]
    ring

theorem beValue_cons (b : UInt8) (bytes : List UInt8) :
    beValue (b :: bytes) = b.toNat * 256 ^ bytes.length + beValue bytes := by
  rw [beValue, foldl_cons, foldl_beValue_start]
  simp

theorem beValue_lt (bytes : List UInt8) : beValue bytes < 256 ^ bytes.length := by
  induction bytes with
  | nil => simp [beValue]
  | cons b bytes ih =>
    rw [beValue_cons, length_cons, pow_succ]
    have hb : b.toNat + 1 ≤ 256 := UInt8.toNat_lt b
    calc b.toNat * 256 ^ bytes.length + beValue bytes
        < b.toNat * 256 ^ bytes.length + 256 ^ bytes.length := by omega
      _ = (b.toNat + 1) * 256 ^ bytes.length := by ring
      _ ≤ 256 * 256 ^ bytes.length := Nat.mul_le_mul_right _ hb
      _ = 256 ^ bytes.length * 256 := by ring

/-- The `n` low bytes of `x`, most significant first, spell `x` modulo `2 ^ (8 * n)`. -/
theorem beValue_map_shiftRight (x n : Nat) :
    beValue ((range n).reverse.map fun i => UInt8.ofNat (x >>> (8 * i))) = x % 2 ^ (8 * n) := by
  induction n with
  | zero => simp [beValue, Nat.mod_one]
  | succ n ih =>
    rw [range_succ, reverse_append, reverse_singleton, singleton_append, map_cons, beValue_cons, ih,
      length_map, length_reverse, length_range, UInt8.toNat_ofNat', Nat.shiftRight_eq_div_pow]
    -- the new byte is the digit of `x` at `2 ^ (8 * n)`
    rw [Nat.mul_add, pow_add, Nat.mod_mul, pow_mul 2 8 n]
    ring

/-- Byte strings of one length compare as their big-endian numbers. -/
theorem compare_eq_compare_beValue :
    ∀ {a b : List UInt8}, a.length = b.length → compare a b = compare (beValue a) (beValue b)
  | [], [], _ => rfl
  | x :: a, y :: b, hlen => by
    have hlen' : a.length = b.length := by simpa using hlen
    rw [List.compare_cons_cons, compare_eq_compare_beValue hlen', UInt8.compare_eq_compare_toNat,
      beValue_cons, beValue_cons, hlen',
      Nat.compare_mul_add (hlen' ▸ beValue_lt a) (beValue_lt b)]

end BigEndian

end List
