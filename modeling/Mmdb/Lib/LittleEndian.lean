import Mathlib.Data.List.Basic
import Mathlib.Data.Nat.Bitwise
import Mathlib.Tactic.Ring

/-!
# Fixed-width little-endian numbers, and reading a byte string at a position

`leBytes w x` is the `w` low bytes of `x`, least significant first, as `to_le_bytes` writes a
number of a `w`-byte type; `leValue` reads them back (`leValue_leBytes`): a number that fits
its width round-trips.

Decoders that keep a position `pos` into their input and read `data[pos..pos + n]` after a
bounds check are proved field by field from a statement of where the field sits:
`data.drop pos = field ++ rest`. `take_drop_of_eq_append` and `drop_add_of_eq_append` read the
field and step over it; `read_field`, `read_le` and `tag_of_eq_cons` add the bounds check
the decoder makes before it.
-/

/-- The `w` low bytes of `x`, least significant first. -/
def leBytes : Nat → Nat → List UInt8
  | 0, _ => []
  | w + 1, x => UInt8.ofNat x :: leBytes w (x / 256)

/-- The number little-endian bytes spell. -/
def leValue : List UInt8 → Nat
  | [] => 0
  | b :: bs => b.toNat + 256 * leValue bs

@[simp] theorem length_leBytes (w x : Nat) : (leBytes w x).length = w := by
  induction w generalizing x with
  | zero => rfl
  | succ w ih => simp [leBytes, ih]

theorem leValue_leBytes (w x : Nat) : leValue (leBytes w x) = x % 256 ^ w := by
  induction w generalizing x with
  | zero => simp [leBytes, leValue, Nat.mod_one]
  | succ w ih =>
    rw [leBytes, leValue, ih, UInt8.toNat_ofNat', pow_succ' (256 : Nat) w,
      @Nat.mod_mul 256 (256 ^ w) x]

theorem leValue_leBytes_of_lt {w x : Nat} (h : x < 256 ^ w) : leValue (leBytes w x) = x := by
  rw [leValue_leBytes, Nat.mod_eq_of_lt h]

theorem leValue_lt (bs : List UInt8) : leValue bs < 256 ^ bs.length := by
  induction bs with
  | nil => simp [leValue]
  | cons b bs ih =>
    have hb := UInt8.toNat_lt b
    rw [leValue, List.length_cons, pow_succ]
    omega

/-- `data[pos..pos + n]`, cut short at the end of the input. -/
def List.slice {α : Type} (data : List α) (pos n : Nat) : List α := (data.drop pos).take n

/-- An `n`-byte field reads below `256 ^ n`, whatever the input holds there. -/
theorem leValue_slice_lt (data : List UInt8) (pos n : Nat) : leValue (data.slice pos n) < 256 ^ n :=
  Nat.lt_of_lt_of_le (leValue_lt _)
    (Nat.pow_le_pow_right (by decide) (by simp only [List.slice, List.length_take]; omega))

section Position

variable {α : Type} {data field rest : List α} {pos : Nat}

/-- A field written at `pos` is what `data[pos..pos + n]` reads. -/
theorem take_drop_of_eq_append (h : data.drop pos = field ++ rest) :
    (data.drop pos).take field.length = field := by
  rw [h, List.take_left]

/-- After the field, the input goes on with what followed it. -/
theorem drop_add_of_eq_append (h : data.drop pos = field ++ rest) :
    data.drop (pos + field.length) = rest := by
  rw [← List.drop_drop, h, List.drop_left]

/-- A position with something left to read lies inside the input. -/
theorem le_length_of_eq_append (h : data.drop pos = field ++ rest) (hne : field ++ rest ≠ []) :
    pos ≤ data.length := by
  by_contra hgt
  rw [List.drop_eq_nil_of_le (by omega)] at h
  exact hne h.symm

/-- Inside the input, the input is as long as the position and what is left: the bounds check
before a field passes. -/
theorem length_eq_of_eq_append (h : data.drop pos = field ++ rest) (hpos : pos ≤ data.length) :
    data.length = pos + field.length + rest.length := by
  have hlen := congrArg List.length h
  simp only [List.length_drop, List.length_append] at hlen
  omega

theorem slice_of_eq_append (h : data.drop pos = field ++ rest) :
    data.slice pos field.length = field :=
  take_drop_of_eq_append h

/-- A field written at a position inside the input: its bounds check passes and it reads back. -/
theorem read_field (h : data.drop pos = field ++ rest) (hpos : pos ≤ data.length) :
    ¬ pos + field.length > data.length ∧ data.slice pos field.length = field ∧
      data.drop (pos + field.length) = rest :=
  ⟨by have := length_eq_of_eq_append h hpos; omega, slice_of_eq_append h,
    drop_add_of_eq_append h⟩

/-- A one-element field (a tag) at `pos`: what the element read with a default finds, and the
input after it. -/
theorem tag_of_eq_cons (d : α) {tag : α} (h : data.drop pos = tag :: (field ++ rest)) :
    data.getD pos d = tag ∧ data.drop (pos + 1) = field ++ rest ∧ pos < data.length := by
  have h' : data.drop pos = [tag] ++ (field ++ rest) := h
  have hlen := length_eq_of_eq_append h' (le_length_of_eq_append h' (by simp))
  have hhead : data[pos]? = some tag := by
    have := congrArg List.head? h
    rwa [List.head?_drop, List.head?_cons] at this
  refine ⟨by simp [List.getD_eq_getElem?_getD, hhead], ?_, by simp at hlen; omega⟩
  simpa using drop_add_of_eq_append h'

end Position

/-- A number of `w > 0` bytes written at `pos` reads back. -/
theorem read_le {data rest : List UInt8} {pos w n : Nat} (hw : 0 < w) (hn : n < 256 ^ w)
    (h : data.drop pos = leBytes w n ++ rest) :
    ¬ pos + w > data.length ∧ leValue (data.slice pos w) = n ∧ data.drop (pos + w) = rest := by
  have hne : leBytes w n ++ rest ≠ [] := by
    intro hnil
    have := congrArg List.length hnil
    simp only [List.length_append, length_leBytes, List.length_nil] at this
    omega
  obtain ⟨hbound, hslice, hafter⟩ := read_field h (le_length_of_eq_append h hne)
  simp only [length_leBytes] at hbound hslice hafter
  exact ⟨hbound, by rw [hslice, leValue_leBytes_of_lt hn], hafter⟩

/-! ## Seven-bit groups

A variable-width number is written seven bits a byte, least significant group first, with the
high bit of every byte but the last set. These are the byte facts its reader and writer rest on.
-/

namespace UInt8

/-- The low seven bits of a byte written with its high bit set. -/
theorem toNat_ofNat_or_and_low (v : Nat) : ((UInt8.ofNat v ||| 0x80) &&& 0x7F).toNat = v % 128 := by
  rw [UInt8.toNat_and, UInt8.toNat_or, UInt8.toNat_ofNat']
  show (v % 2 ^ 8 ||| 2 ^ 7) &&& 2 ^ 7 - 1 = v % 2 ^ 7
  rw [Nat.and_two_pow_sub_one_eq_mod, Nat.or_mod_two_pow, Nat.mod_self, Nat.or_zero,
    Nat.mod_mod_of_dvd _ (by decide)]

theorem ofNat_or_and_high_ne (v : Nat) : (UInt8.ofNat v ||| 0x80) &&& 0x80 ≠ 0 := by
  intro h
  have hnat := congrArg UInt8.toNat h
  rw [UInt8.toNat_and, UInt8.toNat_or, Nat.and_or_distrib_right] at hnat
  have hle := @Nat.right_le_or ((UInt8.ofNat v).toNat &&& (0x80 : UInt8).toNat)
    ((0x80 : UInt8).toNat &&& (0x80 : UInt8).toNat)
  rw [hnat] at hle
  simp at hle

theorem toNat_ofNat_and_low {v : Nat} (h : v < 128) : ((UInt8.ofNat v) &&& 0x7F).toNat = v := by
  rw [UInt8.toNat_and, UInt8.toNat_ofNat']
  show v % 2 ^ 8 &&& 2 ^ 7 - 1 = v
  rw [Nat.and_two_pow_sub_one_eq_mod, Nat.mod_mod_of_dvd _ (by decide), Nat.mod_eq_of_lt h]

/-- A byte below `2^k` has no bit in common with a mask that is a multiple of `2^k`. -/
theorem and_eq_zero_of_lt {b m : UInt8} {k : Nat} (hb : b.toNat < 2 ^ k)
    (hm : m.toNat % 2 ^ k = 0) : b &&& m = 0 := by
  apply UInt8.toNat_inj.mp
  have hmod : (b.toNat &&& m.toNat) % 2 ^ k = 0 := by
    rw [Nat.and_mod_two_pow, hm, Nat.and_zero]
  have hlt : b.toNat &&& m.toNat < 2 ^ k := Nat.lt_of_le_of_lt Nat.and_le_left hb
  rw [UInt8.toNat_and]
  exact Nat.eq_zero_of_dvd_of_lt (Nat.dvd_of_mod_eq_zero hmod) hlt

end UInt8

/-- A group shifted above the bits read so far adds to them. -/
theorem Nat.or_shiftLeft_eq_add {acc d s : Nat} (h : acc < 2 ^ s) : acc ||| d <<< s = acc + d * 2 ^ s := by
  rw [Nat.shiftLeft_eq, Nat.or_comm, Nat.mul_comm, ← Nat.two_pow_add_eq_or_of_lt h, Nat.add_comm]
