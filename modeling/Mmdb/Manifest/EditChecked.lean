import Mathlib
import Mmdb.Manifest.EditCodec
import Mmdb.Lib.Panic

/-!
# Version edits under Rust's bounds and overflow checks

`VersionEdit::decode` of `src/manifest/version_edit.rs`, with the tag read `data[pos]`, every
slice and every `usize` addition written as an operation that can panic (`Mmdb.Lib.Panic`).

**No panic** (`decode_refines`): on any slice the decoder refines the total model of
`Mmdb.Manifest.EditCodec`, so it never panics and returns the edit, or the error, that the total
model returns. The loop reads a tag only while the position is inside the data, every field comes
after the check that covers it, and the position plus a `u32` key length stays below `2^64`. A
record moves the position forward (`decodeRecord_advance`), which is what makes the loop end.
-/

namespace Mmdb.Checked

open Panic

namespace VersionEdit

/-- The new-file record after its tag, at `pos`: the file and the position after it. The
position moves field by field, as the source's `pos += ...` do. -/
def decodeNewFile (data : Bytes) (tag : UInt8) (pos : Nat) :
    ExceptT Error Option ((Nat × FileMetaData) × Nat) := do
  if (← add 64 (← add 64 (← add 64 pos 4) 8) 8) > data.length then
    throw (.corruption "truncated new_file header")
  let level := leValue (← range data pos (← add 64 pos 4))
  let pos ← add 64 pos 4
  let number := leValue (← range data pos (← add 64 pos 8))
  let pos ← add 64 pos 8
  let fileSize := leValue (← range data pos (← add 64 pos 8))
  let pos ← add 64 pos 8
  if (← add 64 pos 4) > data.length then throw (.corruption "truncated smallest_key_len")
  let skLen := leValue (← range data pos (← add 64 pos 4))
  let pos ← add 64 pos 4
  if (← add 64 pos skLen) > data.length then throw (.corruption "truncated smallest_key")
  let smallestKey ← range data pos (← add 64 pos skLen)
  let pos ← add 64 pos skLen
  if (← add 64 pos 4) > data.length then throw (.corruption "truncated largest_key_len")
  let lkLen := leValue (← range data pos (← add 64 pos 4))
  let pos ← add 64 pos 4
  if (← add 64 pos lkLen) > data.length then throw (.corruption "truncated largest_key")
  let largestKey ← range data pos (← add 64 pos lkLen)
  let pos ← add 64 pos lkLen
  let (hasRangeDeletions, pos) ←
    if tag = 6 then do
      if pos ≥ data.length then throw (.corruption "truncated has_range_deletions")
      let v := (← (index data pos : Option UInt8)) != 0
      pure (v, ← add 64 pos 1)
    else pure (false, pos)
  pure ((level, ⟨number, fileSize, smallestKey, largestKey, hasRangeDeletions⟩), pos)

theorem decodeNewFile_refines {data : Bytes} (hlen : data.length < 2 ^ 63) (tag : UInt8)
    (pos : Nat) (hpos : pos ≤ data.length) :
    Refines (decodeNewFile data tag pos) (Mmdb.VersionEdit.decodeNewFile data tag pos) := by
  unfold decodeNewFile Mmdb.VersionEdit.decodeNewFile
  -- the header: the level, the number and the size
  refine Refines.lift (add_eq (by omega)) (Refines.lift (add_eq (by omega)) ?_)
  refine Refines.lift (add_eq (by omega)) ?_
  refine Refines.ite (fun _ => rfl) fun hheader => ?_
  refine Refines.lift (add_eq (by omega)) (Refines.lift (range_add_eq (by omega)) ?_)
  refine Refines.lift (add_eq (by omega)) ?_
  refine Refines.lift (add_eq (by omega)) (Refines.lift (range_add_eq (by omega)) ?_)
  refine Refines.lift (add_eq (by omega)) ?_
  refine Refines.lift (add_eq (by omega)) (Refines.lift (range_add_eq (by omega)) ?_)
  refine Refines.lift (add_eq (by omega)) ?_
  -- the smallest key
  have hsk := leValue_slice_lt data (pos + 4 + 8 + 8) 4
  refine Refines.lift (add_eq (by omega)) ?_
  refine Refines.ite (fun _ => rfl) fun hskLen => ?_
  refine Refines.lift (add_eq (by omega)) (Refines.lift (range_add_eq (by omega)) ?_)
  refine Refines.lift (add_eq (by omega)) (Refines.lift (add_eq (by omega)) ?_)
  refine Refines.ite (fun _ => rfl) fun hskEnd => ?_
  refine Refines.lift (add_eq (by omega)) (Refines.lift (range_add_eq (by omega)) ?_)
  refine Refines.lift (add_eq (by omega)) ?_
  -- the largest key
  have hlk := leValue_slice_lt data (pos + 4 + 8 + 8 + 4 + leValue (data.slice (pos + 4 + 8 + 8) 4)) 4
  refine Refines.lift (add_eq (by omega)) ?_
  refine Refines.ite (fun _ => rfl) fun hlkLen => ?_
  refine Refines.lift (add_eq (by omega)) (Refines.lift (range_add_eq (by omega)) ?_)
  refine Refines.lift (add_eq (by omega)) (Refines.lift (add_eq (by omega)) ?_)
  refine Refines.ite (fun _ => rfl) fun hlkEnd => ?_
  refine Refines.lift (add_eq (by omega)) (Refines.lift (range_add_eq (by omega)) ?_)
  refine Refines.lift (add_eq (by omega)) ?_
  -- the range-deletion flag of tag `6`
  refine Refines.ite (fun _ => Refines.ite (fun _ => rfl) fun hflag => ?_) fun _ => rfl
  refine Refines.lift (index_eq (by omega) 0) (Refines.lift (add_eq (by omega)) rfl)

/-- One pass of the loop of `VersionEdit::decode`: the record whose tag is at `pos`, applied to
the edit, and the position after it. -/
def decodeRecord (data : Bytes) (edit : VersionEdit) (pos : Nat) :
    ExceptT Error Option (VersionEdit × Nat) := do
  let tag ← (index data pos : Option UInt8)
  let pos ← add 64 pos 1
  if tag = 1 then
    if (← add 64 pos 8) > data.length then throw (.corruption "truncated log_number")
    let logNumber := leValue (← range data pos (← add 64 pos 8))
    pure ({ edit with logNumber := some logNumber }, ← add 64 pos 8)
  else if tag = 2 then
    if (← add 64 pos 8) > data.length then throw (.corruption "truncated next_file_number")
    let nextFileNumber := leValue (← range data pos (← add 64 pos 8))
    pure ({ edit with nextFileNumber := some nextFileNumber }, ← add 64 pos 8)
  else if tag = 3 then
    if (← add 64 pos 8) > data.length then throw (.corruption "truncated last_sequence")
    let lastSequence := leValue (← range data pos (← add 64 pos 8))
    pure ({ edit with lastSequence := some lastSequence }, ← add 64 pos 8)
  else if tag = 4 ∨ tag = 6 then
    let (entry, pos) ← decodeNewFile data tag pos
    pure ({ edit with newFiles := edit.newFiles ++ [entry] }, pos)
  else if tag = 5 then
    if (← add 64 (← add 64 pos 4) 8) > data.length then throw (.corruption "truncated deleted_file")
    let level := leValue (← range data pos (← add 64 pos 4))
    let pos ← add 64 pos 4
    let number := leValue (← range data pos (← add 64 pos 8))
    let pos ← add 64 pos 8
    pure ({ edit with deletedFiles := edit.deletedFiles ++ [(level, number)] }, pos)
  else throw (.corruption s!"unknown tag: {tag}")

/-- A tag inside the data starts a record that does not panic. -/
theorem decodeRecord_refines {data : Bytes} (hlen : data.length < 2 ^ 63) (edit : VersionEdit)
    {pos : Nat} (hpos : pos < data.length) :
    Refines (decodeRecord data edit pos) (Mmdb.VersionEdit.decodeRecord data edit pos) := by
  unfold decodeRecord Mmdb.VersionEdit.decodeRecord
  refine Refines.lift (index_eq hpos 0) (Refines.lift (add_eq (by omega)) ?_)
  -- the three counters, a new file, a deleted file; an unknown tag is an error on both sides
  refine Refines.ite (fun _ => ?_) fun _ => Refines.ite (fun _ => ?_) fun _ =>
    Refines.ite (fun _ => ?_) fun _ => Refines.ite (fun _ => ?_) fun _ =>
      Refines.ite (fun _ => ?_) fun _ => rfl
  on_goal 4 =>
    have hfile := decodeNewFile_refines hlen (data.getD pos 0) (pos + 1) (by omega)
    cases hres : Mmdb.VersionEdit.decodeNewFile data (data.getD pos 0) (pos + 1) with
    | error e =>
      rw [hres] at hfile
      exact hfile.bind_error
    | ok r =>
      rw [hres] at hfile
      exact hfile.bind_ok rfl
  on_goal 4 =>
    refine Refines.lift (add_eq (by omega)) (Refines.lift (add_eq (by omega)) ?_)
    refine Refines.ite (fun _ => rfl) fun hin => ?_
    refine Refines.lift (add_eq (by omega)) (Refines.lift (range_add_eq (by omega)) ?_)
    refine Refines.lift (add_eq (by omega)) ?_
    refine Refines.lift (add_eq (by omega)) (Refines.lift (range_add_eq (by omega)) ?_)
    exact Refines.lift (add_eq (by omega)) rfl
  all_goals
    refine Refines.lift (add_eq (by omega)) ?_
    refine Refines.ite (fun _ => rfl) fun hin => ?_
    refine Refines.lift (add_eq (by omega)) (Refines.lift (range_add_eq (by omega)) ?_)
    exact Refines.lift (add_eq (by omega)) rfl

/-- A record the checked decoder reads moves the position forward: inside the data it reads what
the total one reads, and outside it the tag read panics. -/
theorem decodeRecord_advance {data : Slice UInt8} {edit edit' : VersionEdit} {pos pos' : Nat}
    (h : (decodeRecord data.1 edit pos).run = some (.ok (edit', pos'))) : pos < pos' := by
  by_cases hpos : pos < data.1.length
  · have htotal := h.symm.trans (decodeRecord_refines data.2 edit hpos)
    exact Mmdb.VersionEdit.decodeRecord_advance (Option.some.inj htotal).symm
  · unfold decodeRecord at h
    rw [index, List.getElem?_eq_none (Nat.le_of_not_lt hpos)] at h
    cases h

/-- The loop of `VersionEdit::decode` from `pos`, while input is left. The match on the run is
the `?` of the record. -/
def decodeLoop (data : Slice UInt8) (edit : VersionEdit) (pos : Nat) :
    ExceptT Error Option VersionEdit :=
  if pos < data.1.length then
    match hrecord : (decodeRecord data.1 edit pos).run with
    | none => fail
    | some (.error err) => throw err
    | some (.ok (edit', pos')) =>
      have := decodeRecord_advance hrecord
      decodeLoop data edit' pos'
  else pure edit
termination_by data.1.length - pos

/-- `VersionEdit::decode`. -/
def decode (data : Slice UInt8) : ExceptT Error Option VersionEdit := decodeLoop data .new 0

/-- One pass of the loop, given what the total record read returns. -/
theorem decodeLoop_step {data : Slice UInt8} {edit : VersionEdit} {pos : Nat}
    (hpos : pos < data.1.length) :
    decodeLoop data edit pos =
      match Mmdb.VersionEdit.decodeRecord data.1 edit pos with
      | .error err => throw err
      | .ok (edit', pos') => decodeLoop data edit' pos' := by
  have hread := decodeRecord_refines data.2 edit hpos
  rw [decodeLoop, if_pos hpos]
  split
  · rename_i heq
    rw [hread] at heq
    cases heq
  · rename_i e heq
    rw [Option.some.inj (hread.symm.trans heq)]
  · rename_i edit' pos' heq
    rw [Option.some.inj (hread.symm.trans heq)]

theorem decodeLoop_refines (data : Slice UInt8) (edit : VersionEdit) (pos : Nat) :
    Refines (decodeLoop data edit pos) (Mmdb.VersionEdit.decodeLoop data.1 edit pos) := by
  induction edit, pos using Mmdb.VersionEdit.decodeLoop.induct data.1 with
  | case1 edit pos hpos err herror =>
    rw [decodeLoop_step hpos, Mmdb.VersionEdit.decodeLoop_of_error hpos herror, herror]
    rfl
  | case2 edit pos hpos edit' pos' hrecord _ ih =>
    rw [decodeLoop_step hpos, Mmdb.VersionEdit.decodeLoop_of_record hpos hrecord, hrecord]
    exact ih
  | case3 edit pos hge =>
    rw [decodeLoop, Mmdb.VersionEdit.decodeLoop_done (Nat.le_of_not_lt hge), if_neg hge]
    rfl

/-- **`VersionEdit::decode` does not panic**, and returns what the total model returns. -/
theorem decode_refines (data : Slice UInt8) :
    Refines (decode data) (Mmdb.VersionEdit.decode data.1) :=
  decodeLoop_refines data .new 0

end VersionEdit

end Mmdb.Checked
