import Mmdb.Types
import Mmdb.Lib.Except
import Mmdb.Lib.Buckets

/-!
# Versions and version edits

`src/manifest/version.rs` and `src/manifest/version_edit.rs`. A version lists the SST files of
every level: level 0 newest first, levels 1 and up sorted by key range with no overlap inside a
level. A version edit adds files at levels and deletes files by level and number, and carries
the bookkeeping counters of the MANIFEST. The open table readers a version holds are not
modelled: whether a file opens is a question the file system answers (`ManifestIo`).

`validateLevelDisjointness` is the check of `src/manifest/version_set.rs` that both the
in-memory application of an edit and recovery run before a version is installed: adjacent files
of a level 1 and up must have disjoint user-key ranges. `Version.Invariant` is what the read
path relies on: well-formed file metadata, distinct file numbers, level 0 in strictly descending
number order, and every level 1 and up sorted with pairwise-disjoint user-key ranges.
-/

namespace Mmdb

/-- `FileMetaData`. -/
structure FileMetaData where
  number : Nat
  fileSize : Nat
  smallestKey : Bytes
  largestKey : Bytes
  hasRangeDeletions : Bool
  deriving DecidableEq, Repr

/-- File metadata as a flush or a compaction writes it: both bounds are internal keys, and the
smallest user key is at most the largest. -/
def FileMetaData.WellFormed (f : FileMetaData) : Prop :=
  8 ≤ f.smallestKey.length ∧ 8 ≤ f.largestKey.length ∧ userKey f.smallestKey ≤ userKey f.largestKey

instance : DecidablePred FileMetaData.WellFormed := fun f =>
  inferInstanceAs (Decidable
    (8 ≤ f.smallestKey.length ∧ 8 ≤ f.largestKey.length ∧ userKey f.smallestKey ≤ userKey f.largestKey))

/-- `Version`: the files of each level. -/
structure Version where
  files : List (List FileMetaData)
  deriving DecidableEq, Repr

/-- `num_levels`: `Version::new` makes one list per level. -/
def Version.numLevels (v : Version) : Nat := v.files.length

/-- `Version::new`. -/
def Version.new (numLevels : Nat) : Version := ⟨List.replicate numLevels []⟩

/-- `level_files`. -/
def Version.levelFiles (v : Version) (level : Nat) : List FileMetaData := v.files.getD level []

/-- Apply `f` to the files of one level. -/
def Version.modifyLevel (v : Version) (level : Nat) (f : List FileMetaData → List FileMetaData) :
    Version :=
  ⟨v.files.modify level f⟩

/-- `VersionEdit`. Levels are `u32` and file numbers `u64` in the source. -/
structure VersionEdit where
  logNumber : Option Nat
  nextFileNumber : Option Nat
  lastSequence : Option SequenceNumber
  newFiles : List (Nat × FileMetaData)
  deletedFiles : List (Nat × Nat)
  deriving DecidableEq, Repr

/-! ## The level check -/

/-- The check of one level: every two adjacent files whose bounds are both present have
disjoint user-key ranges. -/
def validateLevel (level : Nat) : List FileMetaData → Result Unit
  | prev :: next :: rest =>
    if prev.largestKey.isEmpty || next.smallestKey.isEmpty then validateLevel level (next :: rest)
    else if userKey prev.largestKey ≥ userKey next.smallestKey then
      let prevNumber := prev.number
      let nextNumber := next.number
      .error (.corruption
        s!"SST {prevNumber} and SST {nextNumber} have overlapping key ranges at level {level}")
    else validateLevel level (next :: rest)
  | _ => .ok ()

/-- `VersionSet::validate_level_disjointness`: the check of every level from 1 on. -/
def validateLevelDisjointness (v : Version) : Result Unit :=
  forM (List.range' 1 (v.numLevels - 1)) fun level => validateLevel level (v.levelFiles level)

/-! ## Levels -/

@[simp] theorem Version.numLevels_modifyLevel (v : Version) (level : Nat)
    (f : List FileMetaData → List FileMetaData) : (v.modifyLevel level f).numLevels = v.numLevels :=
  List.length_modify _ _ _

theorem Version.levelFiles_modifyLevel_self {v : Version} {level : Nat} (h : level < v.numLevels)
    (f : List FileMetaData → List FileMetaData) :
    (v.modifyLevel level f).levelFiles level = f (v.levelFiles level) := by
  simp only [Version.levelFiles, Version.modifyLevel, List.getD_eq_getElem?_getD,
    List.getElem?_modify]
  rw [List.getElem?_eq_getElem h]
  simp

theorem Version.levelFiles_modifyLevel_of_ne (v : Version) {level level' : Nat}
    (h : level ≠ level') (f : List FileMetaData → List FileMetaData) :
    (v.modifyLevel level f).levelFiles level' = v.levelFiles level' := by
  simp only [Version.levelFiles, Version.modifyLevel, List.getD_eq_getElem?_getD,
    List.getElem?_modify, h, if_false]
  cases v.files[level']? <;> rfl

theorem Version.levelFiles_eq_nil {v : Version} {level : Nat} (h : v.numLevels ≤ level) :
    v.levelFiles level = [] := by
  rw [Version.levelFiles, List.getD_eq_getElem?_getD, List.getElem?_eq_none h]
  rfl

theorem Version.lt_numLevels_of_mem {v : Version} {level : Nat} {f : FileMetaData}
    (h : f ∈ v.levelFiles level) : level < v.numLevels := by
  by_contra hlevel
  rw [v.levelFiles_eq_nil (Nat.le_of_not_lt hlevel)] at h
  cases h

@[simp] theorem Version.numLevels_new (n : Nat) : (Version.new n).numLevels = n :=
  List.length_replicate

@[simp] theorem Version.levelFiles_new (n level : Nat) : (Version.new n).levelFiles level = [] := by
  simp only [Version.levelFiles, Version.new, List.getD_eq_getElem?_getD, List.getElem?_replicate]
  split <;> rfl

/-- Two versions with the same levels are equal. -/
theorem Version.ext_levelFiles {v w : Version} (hlen : v.numLevels = w.numLevels)
    (h : ∀ level < v.numLevels, v.levelFiles level = w.levelFiles level) : v = w := by
  obtain ⟨files⟩ := v
  obtain ⟨files'⟩ := w
  congr
  apply List.ext_getElem hlen
  intro level hv hw
  have := h level hv
  simp only [Version.levelFiles, List.getD_eq_getElem?_getD, List.getElem?_eq_getElem hv,
    List.getElem?_eq_getElem hw, Option.getD_some] at this
  exact this

/-! ## What the level check establishes -/

/-- Adjacent files of a level do not overlap. -/
def Disjoint (a b : FileMetaData) : Prop := userKey a.largestKey < userKey b.smallestKey

instance : DecidableRel Disjoint := fun a b =>
  inferInstanceAs (Decidable (userKey a.largestKey < userKey b.smallestKey))

theorem FileMetaData.WellFormed.largestKey_ne_nil {f : FileMetaData} (wf : f.WellFormed) :
    f.largestKey ≠ [] := by
  intro h
  have := wf.2.1
  simp [h] at this

theorem FileMetaData.WellFormed.smallestKey_ne_nil {f : FileMetaData} (wf : f.WellFormed) :
    f.smallestKey ≠ [] := by
  intro h
  have := wf.1
  simp [h] at this

/-- Well-formed files are disjoint exactly when adjacent ones are: the largest key of a file
bounds its smallest. -/
theorem Disjoint.trans {a b c : FileMetaData} (hb : b.WellFormed) (hab : Disjoint a b)
    (hbc : Disjoint b c) : Disjoint a c :=
  calc userKey a.largestKey < userKey b.smallestKey := hab
    _ ≤ userKey b.largestKey := hb.2.2
    _ < userKey c.smallestKey := hbc

/-- A level of well-formed files passes the check exactly when its files are pairwise
disjoint: the check compares adjacent files only, and disjointness is transitive through a
well-formed file. -/
theorem validateLevel_eq_ok_iff {level : Nat} :
    ∀ {files : List FileMetaData}, (∀ f ∈ files, f.WellFormed) →
      (validateLevel level files = .ok () ↔ files.Pairwise Disjoint)
  | [], _ => by simp [validateLevel]
  | [_], _ => by simp [validateLevel]
  | prev :: next :: rest, wf => by
    have tail := @validateLevel_eq_ok_iff level (next :: rest)
      fun f hf => wf f (List.mem_cons_of_mem _ hf)
    have present : (prev.largestKey.isEmpty || next.smallestKey.isEmpty) = false := by
      simp [(wf prev (by simp)).largestKey_ne_nil,
        (wf next (by simp)).smallestKey_ne_nil]
    rw [validateLevel, present, if_neg Bool.false_ne_true]
    by_cases hoverlap : userKey prev.largestKey ≥ userKey next.smallestKey
    · rw [if_pos hoverlap]
      constructor
      · intro h
        cases h
      · intro sorted
        exact absurd (List.rel_of_pairwise_cons sorted List.mem_cons_self) (not_lt.mpr hoverlap)
    · rw [if_neg hoverlap, tail]
      constructor
      · intro sorted
        refine List.Pairwise.cons (fun b hb => ?_) sorted
        rcases List.mem_cons.mp hb with rfl | hb
        · exact lt_of_not_ge hoverlap
        · exact Disjoint.trans (wf next (by simp)) (lt_of_not_ge hoverlap)
            (List.rel_of_pairwise_cons sorted hb)
      · exact List.Pairwise.of_cons

theorem validateLevelDisjointness_eq_ok {v : Version} (h : validateLevelDisjointness v = .ok ())
    {level : Nat} (above : 1 ≤ level) (within : level < v.numLevels) :
    validateLevel level (v.levelFiles level) = .ok () := by
  apply Except.forM_eq_ok.mp h
  simp only [List.mem_range'_1]
  omega

/-! ## A version as a set of entries

The files of a version with their levels: what recovery's map holds, and what two versions
that agree level by level have in common. -/

/-- Every file of the version with its level. -/
def Version.entries (v : Version) : List (Nat × FileMetaData) :=
  (List.range v.numLevels).flatMap fun level => (v.levelFiles level).map (level, ·)

/-- The files of a list of entries at one level, in the list's order. -/
def filesAt (entries : List (Nat × FileMetaData)) (level : Nat) : List FileMetaData :=
  (entries.filter (·.1 == level)).map (·.2)

@[simp] theorem filesAt_nil (level : Nat) : filesAt [] level = [] := rfl

@[simp] theorem filesAt_append (es es' : List (Nat × FileMetaData)) (level : Nat) :
    filesAt (es ++ es') level = filesAt es level ++ filesAt es' level := by
  simp [filesAt]

@[simp] theorem filesAt_reverse (es : List (Nat × FileMetaData)) (level : Nat) :
    filesAt es.reverse level = (filesAt es level).reverse := by
  simp [filesAt]

theorem filesAt_cons (e : Nat × FileMetaData) (es : List (Nat × FileMetaData)) (level : Nat) :
    filesAt (e :: es) level = if e.1 = level then e.2 :: filesAt es level else filesAt es level := by
  by_cases h : e.1 = level <;> simp [filesAt, h]

@[simp] theorem mem_filesAt {es : List (Nat × FileMetaData)} {level : Nat} {f : FileMetaData} :
    f ∈ filesAt es level ↔ (level, f) ∈ es := by
  simp only [filesAt, List.mem_map, List.mem_filter, beq_iff_eq]
  constructor
  · rintro ⟨e, ⟨he, rfl⟩, rfl⟩
    exact he
  · intro h
    exact ⟨(level, f), ⟨h, rfl⟩, rfl⟩

/-- Filtering entries by their file filters every level. -/
theorem filesAt_filter (p : FileMetaData → Bool) (es : List (Nat × FileMetaData)) (level : Nat) :
    filesAt (es.filter fun e => p e.2) level = (filesAt es level).filter p := by
  simp only [filesAt, List.filter_filter, List.filter_map]
  congr 1
  apply List.filter_congr
  intro e _
  simp [Bool.and_comm]

theorem filesAt_perm {es es' : List (Nat × FileMetaData)} (h : es.Perm es') (level : Nat) :
    (filesAt es level).Perm (filesAt es' level) :=
  (h.filter _).map _

theorem Version.mem_entries {v : Version} {level : Nat} {f : FileMetaData} :
    (level, f) ∈ v.entries ↔ level < v.numLevels ∧ f ∈ v.levelFiles level := by
  simp [Version.entries]

theorem Version.forall_levelFiles_iff {v : Version} {p : FileMetaData → Prop} :
    (∀ level, ∀ f ∈ v.levelFiles level, p f) ↔ ∀ e ∈ v.entries, p e.2 := by
  constructor
  · rintro h ⟨level, f⟩ he
    exact h level f (Version.mem_entries.mp he).2
  · intro h level f hf
    exact h (level, f) (Version.mem_entries.mpr ⟨Version.lt_numLevels_of_mem hf, hf⟩)

/-- The entries of one level are the files of that level. -/
theorem Version.filesAt_entries (v : Version) {level : Nat} (h : level < v.numLevels) :
    filesAt v.entries level = v.levelFiles level := by
  rw [filesAt, Version.entries, List.filter_flatMap_range_tag, if_pos h, List.map_map]
  exact List.map_id _

/-- A version whose every level holds, up to order, the files of a list of entries at that level
holds exactly the entries of the list. -/
theorem Version.entries_perm {v : Version} {entries : List (Nat × FileMetaData)}
    (bounded : ∀ e ∈ entries, e.1 < v.numLevels)
    (levels : ∀ level < v.numLevels, (v.levelFiles level).Perm (filesAt entries level)) :
    v.entries.Perm entries := by
  refine List.Perm.trans ?_ (List.perm_flatMap_range_filter (·.1) v.numLevels entries bounded)
  apply List.Perm.flatMap_left
  intro level hlevel
  rw [List.mem_range] at hlevel
  refine ((levels level hlevel).map _).trans (.of_eq ?_)
  rw [filesAt, List.map_map]
  conv_rhs => rw [← List.map_id (entries.filter _)]
  apply List.map_congr_left
  intro e he
  simp only [List.mem_filter, beq_iff_eq] at he
  simp [he.2.symm]

/-! ## The invariant of a version -/

/-- What the read path relies on: well-formed metadata, distinct file numbers, level 0 newest
first, and every level from 1 on sorted with pairwise-disjoint user-key ranges. -/
structure Version.Invariant (v : Version) (numLevels : Nat) : Prop where
  num_levels : v.numLevels = numLevels
  well_formed : ∀ level, ∀ f ∈ v.levelFiles level, f.WellFormed
  numbers_nodup : (v.entries.map (·.2.number)).Nodup
  newest_first : (v.levelFiles 0).Pairwise fun a b => b.number < a.number
  disjoint : ∀ level, 1 ≤ level → (v.levelFiles level).Pairwise Disjoint

/-- The invariant over the levels that exist, which makes it decidable. -/
theorem Version.invariant_iff {v : Version} {n : Nat} :
    v.Invariant n ↔ v.numLevels = n ∧ (∀ e ∈ v.entries, e.2.WellFormed) ∧
      (v.entries.map (·.2.number)).Nodup ∧
      (v.levelFiles 0).Pairwise (fun a b => b.number < a.number) ∧
      ∀ level ∈ List.range' 1 (v.numLevels - 1), (v.levelFiles level).Pairwise Disjoint := by
  constructor
  · intro inv
    refine ⟨inv.num_levels, Version.forall_levelFiles_iff.mp inv.well_formed, inv.numbers_nodup,
      inv.newest_first, fun level h => inv.disjoint level (List.mem_range'_1.mp h).1⟩
  · rintro ⟨hn, wf, nodup, newest, disjoint⟩
    refine ⟨hn, Version.forall_levelFiles_iff.mpr wf, nodup, newest, fun level above => ?_⟩
    by_cases within : level < v.numLevels
    · exact disjoint level (List.mem_range'_1.mpr ⟨above, by omega⟩)
    · rw [v.levelFiles_eq_nil (by omega)]
      exact .nil

instance (v : Version) (n : Nat) : Decidable (v.Invariant n) :=
  decidable_of_iff _ Version.invariant_iff.symm

@[simp] theorem Version.entries_new (n : Nat) : (Version.new n).entries = [] := by
  simp only [Version.entries, Version.levelFiles_new, List.map_nil]
  exact List.flatMap_eq_nil_iff.mpr fun _ _ => rfl

theorem Version.Invariant.new (n : Nat) : (Version.new n).Invariant n where
  num_levels := by simp
  well_formed := by simp
  numbers_nodup := by simp
  newest_first := by simp
  disjoint := by simp

/-- A version that keeps the invariant passes the level check. -/
theorem Version.Invariant.validateLevelDisjointness {v : Version} {n : Nat} (inv : v.Invariant n) :
    validateLevelDisjointness v = .ok () := by
  apply Except.forM_eq_ok.mpr
  intro level hlevel
  simp only [List.mem_range'_1] at hlevel
  exact (validateLevel_eq_ok_iff (inv.well_formed level)).mpr (inv.disjoint level hlevel.1)

end Mmdb
