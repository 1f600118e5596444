import Mathlib
import Mmdb.Compaction.Leveled
import Mmdb.Lib.Saturate

/-!
# The overlap closure of `overlapping_files_for_inputs`

`overlapping_files_for_inputs` of `src/compaction/leveled.rs` is the saturation loop of
`Mmdb.Lib.Saturate` at the files of a level: the key is the file number, a file meets an extent by
`file_overlaps_extent`, and its extents are those `add_file_extents` appends
(`closureLoop_eq_loop`). The seed is the inputs' extents and their aggregate range
(`overlappingFilesForInputs_eq`).

**The closure** (`overlappingFilesForInputs_least_closed`): for candidates with distinct file
numbers, `files.length + 1` passes always suffice; a failed tombstone read of an input gives back
every candidate, and so does one of a candidate once some input has both bounds; when every read
succeeds the result is the least closed set of candidates, so no candidate left out overlaps an
extent of the inputs or of the result. Candidates that share a number, or inputs without bounds,
break the last two (`overlappingFilesForInputs_counterexamples`).
-/

namespace Mmdb

/-! ## `add_file_extents` -/

/-- `add_file_extents` appends to the extents it is given. -/
theorem addFileExtents_eq_map (readers : TableReaders) (extents : List UserKeyRange)
    (f : FileMetaData) :
    addFileExtents readers extents f = (addFileExtents readers [] f).map (extents ++ ·) := by
  unfold addFileExtents
  split <;> split <;> (try split) <;> simp

/-- `add_file_extents` fails exactly when the file's tombstones are read and the read fails. -/
theorem addFileExtents_eq_none_iff (readers : TableReaders) (extents : List UserKeyRange)
    (f : FileMetaData) :
    addFileExtents readers extents f = none ↔
      f.hasRangeDeletions = true ∧ ∃ err, readers.rangeTombstones f.number = .error err := by
  unfold addFileExtents
  cases f.hasRangeDeletions <;> cases readers.rangeTombstones f.number <;> simp

/-- A file whose tombstones cannot be read overlaps every extent. -/
theorem fileOverlapsExtent_of_error {readers : TableReaders} {f : FileMetaData}
    (hdel : f.hasRangeDeletions = true) {err : String}
    (herr : readers.rangeTombstones f.number = .error err) (extent : UserKeyRange) :
    fileOverlapsExtent readers f extent = true := by
  unfold fileOverlapsExtent
  simp [hdel, herr]

/-- The inputs' extents, gathered from the empty list: the extents of each input in turn, or
`none` when a read fails. -/
theorem foldlM_addFileExtents (readers : TableReaders) (inputs : List FileMetaData)
    (extents : List UserKeyRange) :
    inputs.foldlM (addFileExtents readers) extents =
      if inputs.all fun f => (addFileExtents readers [] f).isSome then
        some (extents ++ inputs.flatMap fun f => (addFileExtents readers [] f).getD [])
      else none := by
  induction inputs generalizing extents with
  | nil => simp
  | cons f inputs ih =>
    rw [List.foldlM_cons, addFileExtents_eq_map, List.all_cons, List.flatMap_cons]
    cases addFileExtents readers [] f with
    | none => simp
    | some X =>
      simp only [Option.map_some, Option.bind_eq_bind, Option.bind_some, ih, Option.isSome_some,
        Bool.true_and, Option.getD_some, List.append_assoc]

/-! ## The loop is the saturation loop -/

/-- The extents `overlapping_files_for_inputs` starts from: those of the inputs, then their
aggregate range. -/
def seedExtents (readers : TableReaders) (inputs : List FileMetaData) : List UserKeyRange :=
  inputs.flatMap (fun f => (addFileExtents readers [] f).getD []) ++
    ((aggregateRange inputs).map fun r => UserKeyRange.file r.1 r.2).toList

theorem closurePass_eq_pass (readers : TableReaders) (files : List FileMetaData)
    (acc : List FileMetaData × List UserKeyRange × Bool) :
    closurePass readers files acc =
      Saturate.pass FileMetaData.number (fileOverlapsExtent readers) (addFileExtents readers [])
        files acc := by
  induction files generalizing acc with
  | nil => rfl
  | cons f files ih =>
    obtain ⟨selected, extents, changed⟩ := acc
    simp only [closurePass, Saturate.pass, ih, addFileExtents_eq_map readers extents f]
    cases addFileExtents readers [] f <;> rfl

theorem closureLoop_eq_loop (readers : TableReaders) (files : List FileMetaData) (fuel : Nat)
    (selected : List FileMetaData) (extents : List UserKeyRange) :
    closureLoop readers files fuel selected extents =
      Saturate.loop FileMetaData.number (fileOverlapsExtent readers) (addFileExtents readers [])
        files fuel selected extents := by
  induction fuel generalizing selected extents with
  | zero => rfl
  | succ fuel ih =>
    rw [closureLoop, Saturate.loop, closurePass_eq_pass]
    rcases Saturate.pass FileMetaData.number (fileOverlapsExtent readers) (addFileExtents readers [])
      files (selected, extents, false) with _ | ⟨selected, extents, changed⟩
    · rfl
    · simp only [ih]

/-- `overlapping_files_for_inputs` gives back every candidate when an input's tombstones cannot be
read, and otherwise saturates from the seed. -/
theorem overlappingFilesForInputs_eq (readers : TableReaders) (files inputs : List FileMetaData) :
    overlappingFilesForInputs readers files inputs =
      if inputs.all fun f => (addFileExtents readers [] f).isSome then
        Saturate.loop FileMetaData.number (fileOverlapsExtent readers) (addFileExtents readers [])
          files (files.length + 1) [] (seedExtents readers inputs)
      else files := by
  unfold overlappingFilesForInputs
  rw [foldlM_addFileExtents]
  by_cases hok : (inputs.all fun f => (addFileExtents readers [] f).isSome) = true
  · rw [if_pos hok, if_pos hok]
    dsimp only
    rw [closureLoop_eq_loop, seedExtents, List.nil_append]
    cases aggregateRange inputs <;> simp
  · rw [if_neg hok, if_neg hok]

/-- An input with both bounds puts its range in the seed. -/
theorem seedExtents_ne_nil {readers : TableReaders} {inputs : List FileMetaData}
    (hok : inputs.all fun f => (addFileExtents readers [] f).isSome) {f : FileMetaData}
    (hf : f ∈ inputs) (hbounds : f.smallestKey ≠ [] ∧ f.largestKey ≠ []) :
    seedExtents readers inputs ≠ [] := by
  obtain ⟨X, hX⟩ := Option.isSome_iff_exists.mp (List.all_eq_true.mp hok f hf)
  have hmem : UserKeyRange.file (userKey f.smallestKey) (userKey f.largestKey) ∈ X := by
    have hb : (!f.smallestKey.isEmpty && !f.largestKey.isEmpty) = true := by
      simp [hbounds.1, hbounds.2]
    unfold addFileExtents at hX
    rw [if_pos hb, List.nil_append] at hX
    split at hX
    · split at hX
      · cases hX
        exact List.mem_append_left _ (List.mem_singleton_self _)
      · cases hX
    · cases hX
      exact List.mem_singleton_self _
  intro hnil
  have : UserKeyRange.file (userKey f.smallestKey) (userKey f.largestKey) ∈
      seedExtents readers inputs :=
    List.mem_append_left _ (List.mem_flatMap.mpr ⟨f, hf, by rw [hX]; exact hmem⟩)
  rw [hnil] at this
  cases this

/-! ## The closure -/

/-- **The overlap closure.** For candidates with distinct file numbers: `files.length + 1` passes
suffice; a failed tombstone read of an input, or of a candidate once some input has both bounds,
gives back every candidate; and when every read succeeds the result is the least set of
candidates that holds every candidate overlapping an extent of the inputs, of their aggregate
range or of a member, so that no candidate left out overlaps any of those extents. -/
theorem overlappingFilesForInputs_least_closed (readers : TableReaders)
    (files inputs : List FileMetaData) (hnum : (files.map FileMetaData.number).Nodup) :
    (∀ (extents : List UserKeyRange) (fuel : Nat), files.length + 1 ≤ fuel →
        closureLoop readers files fuel [] extents =
          closureLoop readers files (files.length + 1) [] extents) ∧
      ((∃ f ∈ inputs, f.hasRangeDeletions = true ∧
          ∃ err, readers.rangeTombstones f.number = .error err) →
        overlappingFilesForInputs readers files inputs = files) ∧
      ((∃ f ∈ files, f.hasRangeDeletions = true ∧
          ∃ err, readers.rangeTombstones f.number = .error err) →
        (∃ f ∈ inputs, f.smallestKey ≠ [] ∧ f.largestKey ≠ []) →
        overlappingFilesForInputs readers files inputs = files) ∧
      ((∀ f ∈ inputs ++ files, f.hasRangeDeletions = true →
          ∃ tombstones, readers.rangeTombstones f.number = .ok tombstones) →
        IsLeast {S | Saturate.Closed (fileOverlapsExtent readers) (addFileExtents readers []) files
            (seedExtents readers inputs) S}
          {f | f ∈ overlappingFilesForInputs readers files inputs} ∧
        ∀ f ∈ files, f ∉ overlappingFilesForInputs readers files inputs →
          ∀ e ∈ seedExtents readers inputs ++
              (overlappingFilesForInputs readers files inputs).flatMap
                (fun g => (addFileExtents readers [] g).getD []),
            fileOverlapsExtent readers f e = false) := by
  -- a file passes `add_file_extents` unless its tombstones are read and fail
  have hsome : ∀ f, (f.hasRangeDeletions = true →
      ∃ tombstones, readers.rangeTombstones f.number = .ok tombstones) →
      (addFileExtents readers [] f).isSome := by
    intro f hf
    rw [Option.isSome_iff_ne_none, ne_eq, addFileExtents_eq_none_iff]
    rintro ⟨hdel, err, herr⟩
    obtain ⟨ts, hts⟩ := hf hdel
    rw [hts] at herr
    cases herr
  refine ⟨?_, ?_, ?_, ?_⟩
  · -- fuel
    intro extents fuel hfuel
    rw [closureLoop_eq_loop, closureLoop_eq_loop]
    exact Saturate.loop_eq_of_le (Saturate.inv_nil files extents) (by simpa using hfuel)
      (by simp)
  · -- a failed read of an input
    rintro ⟨f, hf, hfail⟩
    have hnone : (addFileExtents readers [] f).isSome = false := by
      rw [Option.isSome_eq_false_iff, Option.isNone_iff_eq_none, addFileExtents_eq_none_iff]
      exact hfail
    rw [overlappingFilesForInputs_eq, if_neg]
    intro hall
    rw [List.all_eq_true.mp hall f hf] at hnone
    cases hnone
  · -- a failed read of a candidate
    rintro ⟨f, hf, hdel, err, herr⟩ ⟨g, hg, hbounds⟩
    rw [overlappingFilesForInputs_eq]
    split
    · rename_i hok
      exact Saturate.loop_eq_of_ext_none hnum hf
        ((addFileExtents_eq_none_iff readers [] f).mpr ⟨hdel, err, herr⟩)
        (fileOverlapsExtent_of_error hdel herr) (seedExtents_ne_nil hok hg hbounds) _
    · rfl
  · -- every read succeeds
    intro hreads
    have hok : (inputs.all fun f => (addFileExtents readers [] f).isSome) = true :=
      List.all_eq_true.mpr fun f hf => hsome f (hreads f (List.mem_append_left _ hf))
    have hleast : IsLeast {S | Saturate.Closed (fileOverlapsExtent readers)
        (addFileExtents readers []) files (seedExtents readers inputs) S} _ :=
      Saturate.loop_isLeast hnum (fun f hf => hsome f (hreads f (List.mem_append_right _ hf)))
        (Saturate.inv_nil files (seedExtents readers inputs))
        (fun _ _ _ h => absurd h List.not_mem_nil) (files.length + 1) (by simp)
    rw [overlappingFilesForInputs_eq, if_pos hok]
    refine ⟨hleast, fun f hf hout e he => ?_⟩
    -- a candidate outside a closed set meets none of its extents
    rw [← Bool.not_eq_true]
    intro hmeets
    exact hout (hleast.1.mem_of_meets f hf e (Saturate.extents_subset (fun _ h => h) e he) hmeets)

/-- A candidate reached through the range tombstone of another: the input `[1, 3]` selects the
file `6` at `[2, 2]`, whose tombstone `[2, 9)` reaches the file `7` at `[8, 8]`, and the two are
the least closed set. -/
theorem overlappingFilesForInputs_tombstone_reach :
    overlappingFilesForInputs ⟨fun _ => .ok [([2], [9])]⟩
        [⟨6, 0, [2], [2], true⟩, ⟨7, 0, [8], [8], false⟩] [⟨1, 0, [1], [3], false⟩] =
      [⟨6, 0, [2], [2], true⟩, ⟨7, 0, [8], [8], false⟩] ∧
    IsLeast {S | Saturate.Closed (fileOverlapsExtent ⟨fun _ => .ok [([2], [9])]⟩)
        (addFileExtents ⟨fun _ => .ok [([2], [9])]⟩ [])
        [⟨6, 0, [2], [2], true⟩, ⟨7, 0, [8], [8], false⟩]
        (seedExtents ⟨fun _ => .ok [([2], [9])]⟩ [⟨1, 0, [1], [3], false⟩]) S}
      {f | f ∈ overlappingFilesForInputs ⟨fun _ => .ok [([2], [9])]⟩
        [⟨6, 0, [2], [2], true⟩, ⟨7, 0, [8], [8], false⟩] [⟨1, 0, [1], [3], false⟩]} :=
  ⟨by decide, ((overlappingFilesForInputs_least_closed _ _ _ (by decide)).2.2.2
    fun _ _ _ => ⟨_, rfl⟩).1⟩

/-- The selection keys candidates by number, and the seed needs an input with bounds. Of two
candidates numbered `5` only the first is selected, although the second overlaps the input too,
so the result is not closed. An input without bounds leaves the seed empty: no candidate meets
an extent, the tombstones of a candidate that cannot be read are never asked for, and the result
is empty. -/
theorem overlappingFilesForInputs_counterexamples :
    overlappingFilesForInputs ⟨fun _ => .ok []⟩ [⟨5, 0, [1], [1], false⟩, ⟨5, 0, [2], [2], false⟩]
        [⟨1, 0, [1], [3], false⟩] = [⟨5, 0, [1], [1], false⟩] ∧
      ¬ Saturate.Closed (fileOverlapsExtent ⟨fun _ => .ok []⟩) (addFileExtents ⟨fun _ => .ok []⟩ [])
        [⟨5, 0, [1], [1], false⟩, ⟨5, 0, [2], [2], false⟩]
        (seedExtents ⟨fun _ => .ok []⟩ [⟨1, 0, [1], [3], false⟩])
        {f | f ∈ overlappingFilesForInputs ⟨fun _ => .ok []⟩
          [⟨5, 0, [1], [1], false⟩, ⟨5, 0, [2], [2], false⟩] [⟨1, 0, [1], [3], false⟩]} ∧
      ∀ err : String, overlappingFilesForInputs ⟨fun _ => .error err⟩ [⟨7, 0, [1], [2], true⟩]
        [⟨1, 0, [], [], false⟩] = [] := by
  have hdup : overlappingFilesForInputs ⟨fun _ => .ok []⟩
      [⟨5, 0, [1], [1], false⟩, ⟨5, 0, [2], [2], false⟩] [⟨1, 0, [1], [3], false⟩] =
      [⟨5, 0, [1], [1], false⟩] := by decide
  refine ⟨hdup, ?_, fun err => rfl⟩
  rw [hdup]
  intro hclosed
  -- the second file overlaps the input's range, so a closed set holds it
  have h := hclosed.mem_of_meets ⟨5, 0, [2], [2], false⟩ (by simp) (.file [1] [3])
    (.inl (by decide)) (by decide)
  simp at h

end Mmdb
