import Mathlib
import Mmdb.Sst.Format
import Mmdb.Lib.Panic

/-!
# Index values under Rust's bounds and overflow checks

`BlockHandle::decode` and `decode_index_value_with_props` of `src/sst/format.rs`, with every
slice and every `usize` addition written as an operation that can panic (`Mmdb.Lib.Panic`).

**No panic** (`decodeIndexValueWithProps_refines`): on any slice the decoder refines the total
model of `Mmdb.Sst.Format`, so it never panics and returns what the total model returns. Every
slice comes after the length check that covers it, and a position inside the data plus a `u16`
or a `u32` length stays far below `2^64`. The property loop keeps its position inside the data
from one property to the next (`decodeProperties_refines`).
-/

namespace Mmdb.Checked

open Panic

/-- `BlockHandle::decode`. -/
def BlockHandle.decode (buf : Bytes) : ExceptT Error Option Mmdb.BlockHandle := do
  let got := buf.length
  if buf.length < 16 then throw (.corruption s!"BlockHandle::decode: need 16 bytes, got {got}")
  let offset := leValue (← range buf 0 8)
  let size := leValue (← range buf 8 16)
  pure ⟨UInt64.ofNat offset, UInt64.ofNat size⟩

theorem BlockHandle.decode_refines (buf : Bytes) :
    Refines (BlockHandle.decode buf) (Mmdb.BlockHandle.decode buf) := by
  unfold BlockHandle.decode Mmdb.BlockHandle.decode
  refine Refines.ite (fun _ => rfl) fun hlong => ?_
  exact Refines.lift (range_eq (by omega) (by omega)) (Refines.lift (range_eq (by omega) (by omega)) rfl)

/-- The property loop of `decode_index_value_with_props`. -/
def decodeProperties (data : Bytes) : Nat → Nat →
    ExceptT Error Option (List (Bytes × Bytes) × Nat)
  | 0, offset => pure ([], offset)
  | count + 1, offset => do
    if data.length < (← add 64 offset 2) then
      throw (.corruption "truncated block property name length")
    let nameLen := leValue (← range data offset (← add 64 offset 2))
    let offset ← add 64 offset 2
    if data.length < (← add 64 offset nameLen) then throw (.corruption "truncated block property name")
    let name ← range data offset (← add 64 offset nameLen)
    let offset ← add 64 offset nameLen
    if data.length < (← add 64 offset 2) then
      throw (.corruption "truncated block property data length")
    let dataLen := leValue (← range data offset (← add 64 offset 2))
    let offset ← add 64 offset 2
    if data.length < (← add 64 offset dataLen) then throw (.corruption "truncated block property data")
    let propData ← range data offset (← add 64 offset dataLen)
    let (properties, offset) ← decodeProperties data count (← add 64 offset dataLen)
    pure ((name, propData) :: properties, offset)

/-- From a position inside the data, the property loop does not panic. -/
theorem decodeProperties_refines {data : Bytes} (hlen : data.length < 2 ^ 63) (count : Nat) :
    ∀ offset, offset ≤ data.length →
      Refines (decodeProperties data count offset) (Mmdb.decodeProperties data count offset) := by
  induction count with
  | zero => intro _ _; rfl
  | succ count ih =>
    intro offset hoff
    rw [decodeProperties, Mmdb.decodeProperties]
    -- the two lengths are `u16`s
    have hname := leValue_slice_lt data offset 2
    have hvalue := leValue_slice_lt data (offset + 2 + leValue (data.slice offset 2)) 2
    -- the name's length, then the name
    refine Refines.lift (add_eq (by omega)) ?_
    refine Refines.ite (fun _ => Refines.throw_bind _ _ _) fun h₁ => ?_
    refine Refines.lift (add_eq (by omega)) (Refines.lift (range_add_eq (by omega)) ?_)
    refine Refines.lift (add_eq (by omega)) (Refines.lift (add_eq (by omega)) ?_)
    refine Refines.ite (fun _ => Refines.throw_bind _ _ _) fun h₂ => ?_
    refine Refines.lift (add_eq (by omega)) (Refines.lift (range_add_eq (by omega)) ?_)
    -- the data's length, then the data
    refine Refines.lift (add_eq (by omega)) (Refines.lift (add_eq (by omega)) ?_)
    refine Refines.ite (fun _ => Refines.throw_bind _ _ _) fun h₃ => ?_
    refine Refines.lift (add_eq (by omega)) (Refines.lift (range_add_eq (by omega)) ?_)
    refine Refines.lift (add_eq (by omega)) (Refines.lift (add_eq (by omega)) ?_)
    refine Refines.ite (fun _ => Refines.throw_bind _ _ _) fun h₄ => ?_
    refine Refines.lift (add_eq (by omega)) (Refines.lift (range_add_eq (by omega)) ?_)
    refine Refines.lift (add_eq (by omega)) ?_
    exact (ih _ (by omega)).bind fun _ _ => rfl

/-- `decode_index_value_with_props`. -/
def decodeIndexValueWithProps (data : Bytes) : ExceptT Error Option DecodedIndexValue := do
  let handle ← BlockHandle.decode data
  if data.length ≤ 16 then return ⟨handle, none, []⟩
  let offset := 16
  let (firstKey, offset) ←
    if data.length ≥ (← add 64 offset 4) then do
      let fkLen := leValue (← range data offset (← add 64 offset 4))
      let offset ← add 64 offset 4
      if data.length < (← add 64 offset fkLen) then throw (.corruption "truncated index first_key")
      let firstKey ←
        if fkLen > 0 then do pure (some (← range data offset (← add 64 offset fkLen)))
        else pure none
      pure (firstKey, ← add 64 offset fkLen)
    else if data.length > 16 then throw (.corruption "truncated index first_key length")
    else pure (none, offset)
  if data.length ≥ (← add 64 offset 2) then
    let numProps := leValue (← range data offset (← add 64 offset 2))
    let (properties, offset) ← decodeProperties data numProps (← add 64 offset 2)
    if offset ≠ data.length then throw (.corruption "trailing bytes after block properties")
    return ⟨handle, firstKey, properties⟩
  else if data.length > offset then throw (.corruption "truncated block property count")
  else return ⟨handle, firstKey, []⟩

theorem decodeIndexValueWithProps_refines {data : Bytes} (hlen : data.length < 2 ^ 63) :
    Refines (decodeIndexValueWithProps data) (Mmdb.decodeIndexValueWithProps data) := by
  unfold decodeIndexValueWithProps Mmdb.decodeIndexValueWithProps
  refine (BlockHandle.decode_refines data).bind fun handle _ => ?_
  refine Refines.ite (fun _ => rfl) fun hlong => ?_
  have hkey := leValue_slice_lt data 16 4
  refine Refines.lift (add_eq (by omega)) ?_
  -- the first key: a length, then the key unless it is empty
  refine Refines.ite (fun hfirst => ?_) fun hnofirst =>
    Refines.ite (fun _ => Refines.throw_bind _ _ _) fun hshort => ?_
  on_goal 1 =>
    refine Refines.lift (add_eq (by omega)) (Refines.lift (range_add_eq (by omega)) ?_)
    refine Refines.lift (add_eq (by omega)) (Refines.lift (add_eq (by omega)) ?_)
    refine Refines.ite (fun _ => Refines.throw_bind _ _ _) fun hkeyEnd => ?_
    refine Refines.ite_left (fun hpos => ?_) (fun hzero => ?_)
    on_goal 1 =>
      rw [if_pos hpos]
      refine Refines.lift (add_eq (by omega)) (Refines.lift (range_add_eq (by omega)) ?_)
      refine Refines.lift (add_eq (by omega)) ?_
    on_goal 2 =>
      rw [if_neg hzero]
      refine Refines.lift (add_eq (by omega)) ?_
  -- the three ways out of the first key meet in the properties, from a position inside the data
  all_goals
    simp only [pure_bind]
    refine Refines.lift (add_eq (by omega)) ?_
    refine Refines.ite (fun hprops => ?_) fun _ => Refines.ite (fun _ => rfl) fun _ => rfl
    refine Refines.lift (add_eq (by omega)) (Refines.lift (range_add_eq (by omega)) ?_)
    refine Refines.lift (add_eq (by omega)) ?_
    refine (decodeProperties_refines hlen _ _ (by omega)).bind fun _ _ => ?_
    exact Refines.ite (fun _ => Refines.throw_bind _ _ _) fun _ => rfl

end Mmdb.Checked
