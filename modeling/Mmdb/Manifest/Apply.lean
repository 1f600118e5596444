import Mmdb.Manifest.VersionSet

/-!
# What `log_and_apply` builds

The inversion of a successful `VersionSet.logAndApply`: which checks passed, and what the new
version holds level by level. Additions put level-0 files at the front in reverse edit order and
append files to other levels (re-sorted); deletions then filter each level by the numbers the
edit deletes there.

`log_and_apply` does not check everything recovery relies on. `VersionEdit.Agrees` names what
the callers (flush, compaction, trivial move) provide: fresh, distinct, well-formed new files,
level-0 files newer than the level's files and in ascending number order, no file deleted and
re-added at one level, and a sequence within 56 bits. Under it the new version is the file set
`VersionEdit.liveAfter` describes, and it keeps `Version.Invariant`; over a whole run of such
edits the invariant holds (`VersionSet.Reachable.invariant`).
-/

namespace Mmdb

/-! ## Adding files -/

@[simp] theorem Version.numLevels_addFile (v : Version) (level : Nat) (file : FileMetaData) :
    (v.addFile level file).numLevels = v.numLevels := by
  unfold Version.addFile
  split <;> simp

theorem Version.levelFiles_addFile_of_ne (v : Version) {level level' : Nat} (h : level ≠ level')
    (file : FileMetaData) : (v.addFile level file).levelFiles level' = v.levelFiles level' := by
  unfold Version.addFile
  split
  case isTrue hzero =>
    subst hzero
    exact v.levelFiles_modifyLevel_of_ne h _
  case isFalse => exact v.levelFiles_modifyLevel_of_ne h _

theorem Version.levelFiles_addFile_zero {v : Version} (h : 0 < v.numLevels) (file : FileMetaData) :
    (v.addFile 0 file).levelFiles 0 = file :: v.levelFiles 0 := by
  rw [Version.addFile, if_pos rfl, Version.levelFiles_modifyLevel_self h]

theorem Version.levelFiles_addFile_perm {v : Version} {level : Nat} (h : level < v.numLevels)
    (file : FileMetaData) :
    ((v.addFile level file).levelFiles level).Perm (v.levelFiles level ++ [file]) := by
  unfold Version.addFile
  split
  case isTrue hzero =>
    subst hzero
    rw [Version.levelFiles_modifyLevel_self h]
    exact (List.perm_append_singleton _ _).symm
  case isFalse =>
    rw [Version.levelFiles_modifyLevel_self h]
    exact List.mergeSort_perm _ _

/-- The additions of an edit, one after the other. -/
def Version.addFiles (v : Version) (adds : List (Nat × FileMetaData)) : Version :=
  adds.foldl (fun v p => v.addFile p.1 p.2) v

@[simp] theorem Version.numLevels_addFiles (adds : List (Nat × FileMetaData)) :
    ∀ v : Version, (v.addFiles adds).numLevels = v.numLevels := by
  induction adds with
  | nil => intro v; rfl
  | cons p rest ih =>
    intro v
    change ((v.addFile p.1 p.2).addFiles rest).numLevels = _
    rw [ih, Version.numLevels_addFile]

/-- Level 0 receives its new files at the front, the last one first. -/
theorem Version.levelFiles_addFiles_zero (adds : List (Nat × FileMetaData)) :
    ∀ {v : Version}, 0 < v.numLevels →
      (v.addFiles adds).levelFiles 0 = (filesAt adds 0).reverse ++ v.levelFiles 0 := by
  induction adds with
  | nil => intro v _; rfl
  | cons p rest ih =>
    intro v h
    obtain ⟨level, file⟩ := p
    change ((v.addFile level file).addFiles rest).levelFiles 0 = _
    rw [ih (by simpa using h), filesAt_cons]
    by_cases hlevel : level = 0
    · subst hlevel
      simp [Version.levelFiles_addFile_zero h]
    · simp [hlevel, v.levelFiles_addFile_of_ne hlevel]

/-- Every level receives its new files, in some order. -/
theorem Version.levelFiles_addFiles_perm (adds : List (Nat × FileMetaData)) :
    ∀ {v : Version} {level : Nat}, level < v.numLevels →
      ((v.addFiles adds).levelFiles level).Perm (v.levelFiles level ++ filesAt adds level) := by
  induction adds with
  | nil => intro v level _; simp [Version.addFiles]
  | cons p rest ih =>
    intro v level h
    obtain ⟨level', file⟩ := p
    change (((v.addFile level' file).addFiles rest).levelFiles level).Perm _
    refine (ih (by simpa using h)).trans ?_
    rw [filesAt_cons]
    by_cases hlevel : level' = level
    · subst hlevel
      simpa using (v.levelFiles_addFile_perm h file).append_right (filesAt rest level')
    · simp [hlevel, v.levelFiles_addFile_of_ne hlevel]

theorem Version.mem_addFiles {v : Version} {adds : List (Nat × FileMetaData)} {level : Nat}
    {f : FileMetaData} (h : f ∈ (v.addFiles adds).levelFiles level) :
    f ∈ v.levelFiles level ∨ (level, f) ∈ adds := by
  have within : level < v.numLevels := by
    simpa using Version.lt_numLevels_of_mem h
  simpa using (v.levelFiles_addFiles_perm adds within).subset h

theorem applyNewFile_eq_ok {io : ManifestIo} {n : Nat} {v v' : Version}
    {p : Nat × FileMetaData} :
    applyNewFile io n v p = .ok v' ↔
      p.1 < n ∧ io.openTable p.2.number = .ok () ∧ v' = v.addFile p.1 p.2 := by
  obtain ⟨level, file⟩ := p
  unfold applyNewFile
  dsimp only
  split_ifs with hlevel
  · simp [Nat.not_lt.mpr hlevel]
  · cases hopen : io.openTable file.number with
    | error e => simp
    | ok u =>
      have inRange : level < n := by omega
      simp [inRange, eq_comm]

theorem foldlM_applyNewFile_eq_ok {io : ManifestIo} {n : Nat} :
    ∀ {adds : List (Nat × FileMetaData)} {v v' : Version},
      adds.foldlM (applyNewFile io n) v = .ok v' →
        (∀ p ∈ adds, p.1 < n ∧ io.openTable p.2.number = .ok ()) ∧ v' = v.addFiles adds
  | [], v, v', h => by
    cases h
    exact ⟨by simp, rfl⟩
  | p :: rest, v, v', h => by
    obtain ⟨v₁, hp, hrest⟩ := Except.foldlM_cons_eq_ok.mp h
    obtain ⟨inRange, opens, rfl⟩ := applyNewFile_eq_ok.mp hp
    obtain ⟨checked, rfl⟩ := foldlM_applyNewFile_eq_ok hrest
    refine ⟨?_, rfl⟩
    simp only [List.mem_cons, forall_eq_or_imp]
    exact ⟨⟨inRange, opens⟩, checked⟩

/-! ## Deleting files -/

theorem applyDeletion_eq_ok {n : Nat} {v v' : Version} {d : Nat × Nat} (hn : v.numLevels = n) :
    applyDeletion n v d = .ok v' ↔
      d.1 < n ∧ (∃ f ∈ v.levelFiles d.1, f.number = d.2) ∧
        v' = v.modifyLevel d.1 (List.filter (·.number != d.2)) := by
  obtain ⟨level, number⟩ := d
  unfold applyDeletion
  dsimp only
  split_ifs with hlevel hsame
  · simp [Nat.not_lt.mpr hlevel]
  · -- nothing was removed: no file of that number lives at that level
    rw [Version.levelFiles_modifyLevel_self (by omega), List.length_filter_eq_length_iff] at hsame
    simp only [false_iff, not_and]
    intro _ ⟨f, hf, hnumber⟩
    simpa [hnumber] using hsame f hf
  · rw [Version.levelFiles_modifyLevel_self (by omega), List.length_filter_eq_length_iff] at hsame
    simp only [Except.ok.injEq]
    push Not at hsame
    obtain ⟨f, hf, hnumber⟩ := hsame
    simp only [bne_iff_ne, ne_eq, Decidable.not_not] at hnumber
    exact ⟨fun h => ⟨by omega, ⟨f, hf, hnumber⟩, h.symm⟩, fun h => h.2.2.symm⟩

/-- The deletions of an edit, one after the other, remove from each level the files whose
number the edit deletes at that level; every deletion removes a file, so none is repeated. -/
theorem foldlM_applyDeletion_eq_ok {n : Nat} :
    ∀ {dels : List (Nat × Nat)} {v v' : Version}, v.numLevels = n →
      dels.foldlM (applyDeletion n) v = .ok v' →
        v'.numLevels = n ∧ dels.Nodup ∧ (∀ d ∈ dels, d.1 < n ∧ ∃ f ∈ v.levelFiles d.1, f.number = d.2) ∧
          ∀ level, v'.levelFiles level = (v.levelFiles level).filter fun f => (level, f.number) ∉ dels
  | [], v, v', hn, h => by
    cases h
    exact ⟨hn, .nil, by simp, by simp⟩
  | d :: rest, v, v', hn, h => by
    obtain ⟨v₁, hd, hrest⟩ := Except.foldlM_cons_eq_ok.mp h
    obtain ⟨inRange, hit, rfl⟩ := (applyDeletion_eq_ok hn).mp hd
    obtain ⟨hn', nodup, hits, levels⟩ := foldlM_applyDeletion_eq_ok (by simpa using hn) hrest
    -- the level `d` names, after `d`
    have deleted : ∀ level, (v.modifyLevel d.1 (List.filter (·.number != d.2))).levelFiles level =
        (v.levelFiles level).filter fun f => (level, f.number) ≠ d := by
      intro level
      by_cases hlevel : d.1 = level
      · subst hlevel
        rw [Version.levelFiles_modifyLevel_self (by omega)]
        apply List.filter_congr
        intro f _
        by_cases hnumber : f.number = d.2 <;> simp [hnumber, Prod.ext_iff]
      · rw [Version.levelFiles_modifyLevel_of_ne _ hlevel, List.filter_eq_self.mpr]
        intro f _
        simp only [ne_eq, decide_eq_true_eq, Prod.ext_iff, not_and]
        exact fun h => absurd h.symm hlevel
    refine ⟨hn', List.nodup_cons.mpr ⟨?_, nodup⟩, ?_, ?_⟩
    · intro hmem
      obtain ⟨f, hf, hnumber⟩ := (hits d hmem).2
      rw [deleted] at hf
      simp [hnumber] at hf
    · simp only [List.mem_cons, forall_eq_or_imp]
      refine ⟨⟨inRange, hit⟩, fun d' hd' => ⟨(hits d' hd').1, ?_⟩⟩
      obtain ⟨f, hf, hnumber⟩ := (hits d' hd').2
      rw [deleted] at hf
      exact ⟨f, List.mem_of_mem_filter hf, hnumber⟩
    · intro level
      rw [levels, deleted, List.filter_filter]
      apply List.filter_congr
      intro f _
      by_cases hd : (level, f.number) = d
      · subst hd
        simp
      · simp [hd]

/-! ## A successful `log_and_apply` -/

theorem applyEdit_eq_ok {io : ManifestIo} {n : Nat} {v v' : Version} {edit : VersionEdit}
    (h : applyEdit io n v edit = .ok v') :
    ∃ v₁, edit.newFiles.foldlM (applyNewFile io n) v = .ok v₁ ∧
      edit.deletedFiles.foldlM (applyDeletion n) v₁ = .ok v' ∧ validateLevelDisjointness v' = .ok () := by
  simp only [applyEdit, Except.bind_eq_ok] at h
  obtain ⟨v₁, adds, v₂, dels, ⟨⟩, checked, done⟩ := h
  cases done
  exact ⟨v₁, adds, dels, checked⟩

/-- What `log_and_apply` can do: refuse or fail to build the new version, leaving the version
set as it was; fail to persist it, poisoning the writer; or install it and move the counters
forward. -/
theorem VersionSet.logAndApply_cases (io : ManifestIo) (vs : VersionSet) (edit : VersionEdit) :
    (∃ e, vs.logAndApply io edit = (.error e, vs)) ∨
      (∃ e, vs.logAndApply io edit = (.error e, { vs with poisoned := true })) ∨
      (vs.writable = true ∧ vs.poisoned = false ∧ ∃ v,
        applyEdit io vs.numLevels vs.current edit = .ok v ∧
        vs.logAndApply io edit = (.ok (), { vs with
          current := v
          nextFileNumber := (edit.nextFileNumber.map (max vs.nextFileNumber)).getD vs.nextFileNumber
          logNumber := edit.logNumber.getD vs.logNumber
          lastSequence := (edit.lastSequence.map (max vs.lastSequence)).getD vs.lastSequence })) := by
  unfold VersionSet.logAndApply
  cases hwritable : vs.writable
  · exact .inl ⟨_, rfl⟩
  cases hpoisoned : vs.poisoned
  case true => exact .inl ⟨_, rfl⟩
  rcases happly : applyEdit io vs.numLevels vs.current edit with e | v
  · exact .inl ⟨e, by simp⟩
  rcases hsync : (if edit.newFiles.isEmpty then Except.ok () else io.fsyncDirectory) with e | ⟨⟩
  · exact .inr (.inl ⟨e, by simp⟩)
  rcases happend : io.appendEdit edit with e | ⟨⟩
  · exact .inr (.inl ⟨e, by simp⟩)
  exact .inr (.inr ⟨rfl, rfl, v, rfl, by simp⟩)

/-- A successful `log_and_apply` installs the version `applyEdit` built and moves the counters
forward. -/
theorem VersionSet.logAndApply_eq_ok {io : ManifestIo} {vs vs' : VersionSet} {edit : VersionEdit}
    (h : vs.logAndApply io edit = (.ok (), vs')) :
    vs.writable = true ∧ vs.poisoned = false ∧
      applyEdit io vs.numLevels vs.current edit = .ok vs'.current ∧
      vs' = { vs with
        current := vs'.current
        nextFileNumber := (edit.nextFileNumber.map (max vs.nextFileNumber)).getD vs.nextFileNumber
        logNumber := edit.logNumber.getD vs.logNumber
        lastSequence := (edit.lastSequence.map (max vs.lastSequence)).getD vs.lastSequence } := by
  rcases VersionSet.logAndApply_cases io vs edit with ⟨e, he⟩ | ⟨e, he⟩ | ⟨hwritable, hpoisoned, v, happly, hv⟩
  · simp [he] at h
  · simp [he] at h
  · rw [hv] at h
    cases h
    exact ⟨hwritable, hpoisoned, happly, rfl⟩

/-- A failed `log_and_apply` leaves the version set as it was, apart from poisoning the writer
when the directory sync or the MANIFEST append failed. -/
theorem VersionSet.logAndApply_error {io : ManifestIo} {vs vs' : VersionSet} {edit : VersionEdit}
    {e : Error} (h : vs.logAndApply io edit = (.error e, vs')) :
    vs' = vs ∨ vs' = { vs with poisoned := true } := by
  rcases VersionSet.logAndApply_cases io vs edit with ⟨e', he⟩ | ⟨e', he⟩ | ⟨-, -, v, -, hv⟩
  · rw [he] at h
    cases h
    exact .inl rfl
  · rw [he] at h
    cases h
    exact .inr rfl
  · simp [hv] at h

/-- Whatever `log_and_apply` answers, the version it leaves is the old one or the one
`applyEdit` built. -/
theorem VersionSet.logAndApply_current (io : ManifestIo) (vs : VersionSet) (edit : VersionEdit) :
    let vs' := (vs.logAndApply io edit).2
    vs'.numLevels = vs.numLevels ∧
      (vs'.current = vs.current ∨ applyEdit io vs.numLevels vs.current edit = .ok vs'.current) := by
  intro vs'
  rcases h : vs.logAndApply io edit with ⟨_ | ⟨⟩, vs''⟩
  case error e =>
    rcases VersionSet.logAndApply_error h with rfl | rfl <;> simp [vs', h]
  case ok =>
    obtain ⟨-, -, happly, heq⟩ := VersionSet.logAndApply_eq_ok h
    simp only [vs', h]
    exact ⟨by rw [heq], .inr happly⟩

/-! ## Edits recovery agrees with -/

/-- What the callers of `log_and_apply` guarantee of an edit against the current version and
`log_and_apply` itself does not check. -/
structure VersionEdit.Agrees (edit : VersionEdit) (v : Version) : Prop where
  added_well_formed : ∀ p ∈ edit.newFiles, p.2.WellFormed
  added_nodup : (edit.newFiles.map (·.2.number)).Nodup
  /-- A new file reuses the number of a live file only when the edit deletes that file. -/
  added_fresh : ∀ p ∈ edit.newFiles,
    p.2.number ∈ v.entries.map (·.2.number) → p.2.number ∈ edit.deletedFiles.map (·.2)
  /-- A file is not deleted and re-added at one level, which `log_and_apply` would drop. -/
  added_not_deleted : ∀ p ∈ edit.newFiles, (p.1, p.2.number) ∉ edit.deletedFiles
  l0_ascending : (filesAt edit.newFiles 0).Pairwise fun a b => a.number < b.number
  l0_newer : ∀ a ∈ filesAt edit.newFiles 0, ∀ b ∈ v.levelFiles 0, b.number < a.number
  sequence_bounded : ∀ s ∈ edit.lastSequence, s ≤ maxSequenceNumber

/-- The file set after an edit: its new files, newest first, then the files of `v` whose number it
does not delete. -/
def VersionEdit.liveAfter (edit : VersionEdit) (v : Version) : List (Nat × FileMetaData) :=
  edit.newFiles.reverse ++ v.entries.filter fun e => e.2.number ∉ edit.deletedFiles.map (·.2)

section Agrees

variable {io : ManifestIo} {n : Nat} {v v' : Version} {edit : VersionEdit}

/-- A deletion of a successful edit names a file of the version it was applied to. -/
theorem VersionEdit.Agrees.deleted_live (agrees : edit.Agrees v) (hn : v.numLevels = n)
    (applied : applyEdit io n v edit = .ok v') :
    ∀ d ∈ edit.deletedFiles, ∃ f ∈ v.levelFiles d.1, f.number = d.2 := by
  intro d hd
  obtain ⟨v₁, adds, dels, -⟩ := applyEdit_eq_ok applied
  obtain ⟨-, rfl⟩ := foldlM_applyNewFile_eq_ok adds
  obtain ⟨-, -, hits, -⟩ := foldlM_applyDeletion_eq_ok (by simpa using hn) dels
  obtain ⟨-, f, hf, hnumber⟩ := hits d hd
  rcases Version.mem_addFiles hf with hf | hadded
  · exact ⟨f, hf, hnumber⟩
  · exact absurd (hnumber ▸ hd) (agrees.added_not_deleted _ hadded)

/-- The edit deletes every number at most once. -/
theorem VersionEdit.Agrees.deleted_numbers_nodup (inv : v.Invariant n) (agrees : edit.Agrees v)
    (applied : applyEdit io n v edit = .ok v') : (edit.deletedFiles.map (·.2)).Nodup := by
  obtain ⟨v₁, adds, dels, -⟩ := applyEdit_eq_ok applied
  obtain ⟨-, rfl⟩ := foldlM_applyNewFile_eq_ok adds
  obtain ⟨-, nodup, -, -⟩ := foldlM_applyDeletion_eq_ok (by simpa using inv.num_levels) dels
  refine nodup.map_on fun d hd d' hd' hnumber => ?_
  -- two deletions of one number delete the same file, so at the same level
  obtain ⟨f, hf, hfnumber⟩ := agrees.deleted_live inv.num_levels applied d hd
  obtain ⟨f', hf', hfnumber'⟩ := agrees.deleted_live inv.num_levels applied d' hd'
  have same := List.inj_on_of_nodup_map inv.numbers_nodup
    (Version.mem_entries.mpr ⟨Version.lt_numLevels_of_mem hf, hf⟩)
    (Version.mem_entries.mpr ⟨Version.lt_numLevels_of_mem hf', hf'⟩)
    (by simp [hfnumber, hfnumber', hnumber])
  simp only [Prod.mk.injEq] at same
  exact Prod.ext same.1 hnumber

/-- A file of the version is deleted at its own level exactly when its number is deleted: file
numbers are unique in the version. -/
theorem VersionEdit.Agrees.deleted_at_level_iff (inv : v.Invariant n) (agrees : edit.Agrees v)
    (applied : applyEdit io n v edit = .ok v') {level : Nat} {f : FileMetaData}
    (hf : f ∈ v.levelFiles level) :
    (level, f.number) ∈ edit.deletedFiles ↔ f.number ∈ edit.deletedFiles.map (·.2) := by
  constructor
  · intro h
    exact List.mem_map.mpr ⟨_, h, rfl⟩
  · intro h
    obtain ⟨d, hd, hnumber⟩ := List.mem_map.mp h
    obtain ⟨g, hg, hgnumber⟩ := agrees.deleted_live inv.num_levels applied d hd
    have same := List.inj_on_of_nodup_map inv.numbers_nodup
      (Version.mem_entries.mpr ⟨Version.lt_numLevels_of_mem hf, hf⟩)
      (Version.mem_entries.mpr ⟨Version.lt_numLevels_of_mem hg, hg⟩) (by simp [hnumber, hgnumber])
    simp only [Prod.mk.injEq] at same
    rw [show (level, f.number) = d from Prod.ext same.1 hnumber.symm]
    exact hd

theorem filesAt_liveAfter (edit : VersionEdit) {v : Version} {level : Nat}
    (h : level < v.numLevels) :
    filesAt (edit.liveAfter v) level = (filesAt edit.newFiles level).reverse ++
      (v.levelFiles level).filter fun f => f.number ∉ edit.deletedFiles.map (·.2) := by
  rw [VersionEdit.liveAfter, filesAt_append, filesAt_reverse,
    filesAt_filter (fun f => decide (f.number ∉ edit.deletedFiles.map (·.2))),
    Version.filesAt_entries v h]

/-- The deletions of an agreeing edit leave its new files and remove the deleted numbers. -/
theorem VersionEdit.Agrees.filter_deleted (inv : v.Invariant n) (agrees : edit.Agrees v)
    (applied : applyEdit io n v edit = .ok v') (level : Nat) :
    ((v.levelFiles level).filter fun f => (level, f.number) ∉ edit.deletedFiles) =
        (v.levelFiles level).filter (fun f => f.number ∉ edit.deletedFiles.map (·.2)) ∧
      (filesAt edit.newFiles level).filter (fun f => (level, f.number) ∉ edit.deletedFiles) =
        filesAt edit.newFiles level := by
  constructor
  · apply List.filter_congr
    intro f hf
    simp [agrees.deleted_at_level_iff inv applied hf]
  · apply List.filter_eq_self.mpr
    intro f hf
    simpa using agrees.added_not_deleted _ (mem_filesAt.mp hf)

/-- Up to order, a level of the new version holds the files `liveAfter` puts there. -/
theorem VersionEdit.Agrees.levelFiles_perm (inv : v.Invariant n) (agrees : edit.Agrees v)
    (applied : applyEdit io n v edit = .ok v') {level : Nat} (h : level < n) :
    (v'.levelFiles level).Perm (filesAt (edit.liveAfter v) level) := by
  obtain ⟨v₁, adds, dels, -⟩ := applyEdit_eq_ok applied
  obtain ⟨-, rfl⟩ := foldlM_applyNewFile_eq_ok adds
  obtain ⟨-, -, -, levels⟩ := foldlM_applyDeletion_eq_ok (by simpa using inv.num_levels) dels
  obtain ⟨kept, added⟩ := agrees.filter_deleted inv applied level
  rw [levels, filesAt_liveAfter edit (by rw [inv.num_levels]; exact h)]
  have split := (v.levelFiles_addFiles_perm edit.newFiles (by rw [inv.num_levels]; exact h)).filter
    (fun f => decide ((level, f.number) ∉ edit.deletedFiles))
  rw [List.filter_append, kept, added] at split
  -- the old files come first in the version and last in `liveAfter`
  exact split.trans (List.perm_append_comm.trans ((List.reverse_perm _).symm.append_right _))

/-- Level 0 of the new version holds, in order, the files `liveAfter` puts there: the new ones
newest first, then the old ones. -/
theorem VersionEdit.Agrees.levelFiles_zero (inv : v.Invariant n) (agrees : edit.Agrees v)
    (applied : applyEdit io n v edit = .ok v') (h : 0 < n) :
    v'.levelFiles 0 = filesAt (edit.liveAfter v) 0 := by
  obtain ⟨v₁, adds, dels, -⟩ := applyEdit_eq_ok applied
  obtain ⟨-, rfl⟩ := foldlM_applyNewFile_eq_ok adds
  obtain ⟨-, -, -, levels⟩ := foldlM_applyDeletion_eq_ok (by simpa using inv.num_levels) dels
  obtain ⟨kept, added⟩ := agrees.filter_deleted inv applied 0
  rw [levels, filesAt_liveAfter edit (by rw [inv.num_levels]; exact h),
    Version.levelFiles_addFiles_zero _ (by rw [inv.num_levels]; exact h), List.filter_append,
    List.filter_reverse, added, kept]

theorem VersionEdit.Agrees.numLevels_eq (inv : v.Invariant n) (applied : applyEdit io n v edit = .ok v') :
    v'.numLevels = n := by
  obtain ⟨v₁, adds, dels, -⟩ := applyEdit_eq_ok applied
  obtain ⟨-, rfl⟩ := foldlM_applyNewFile_eq_ok adds
  exact (foldlM_applyDeletion_eq_ok (by simpa using inv.num_levels) dels).1

theorem VersionEdit.Agrees.mem_liveAfter (inv : v.Invariant n) (agrees : edit.Agrees v)
    (applied : applyEdit io n v edit = .ok v') {e : Nat × FileMetaData}
    (he : e ∈ edit.liveAfter v) : e.1 < n ∧ e.2.WellFormed := by
  rcases List.mem_append.mp he with hadded | hkept
  · obtain ⟨v₁, adds, -⟩ := applyEdit_eq_ok applied
    have hadded := List.mem_reverse.mp hadded
    exact ⟨((foldlM_applyNewFile_eq_ok adds).1 e hadded).1, agrees.added_well_formed e hadded⟩
  · obtain ⟨level, f⟩ := e
    obtain ⟨within, hf⟩ := Version.mem_entries.mp (List.mem_of_mem_filter hkept)
    exact ⟨inv.num_levels ▸ within, inv.well_formed level f hf⟩

/-- The files of an agreeing edit's result, with their levels, are those of `liveAfter`. -/
theorem VersionEdit.Agrees.entries_perm (inv : v.Invariant n) (agrees : edit.Agrees v)
    (applied : applyEdit io n v edit = .ok v') : v'.entries.Perm (edit.liveAfter v) := by
  have hn := VersionEdit.Agrees.numLevels_eq inv applied
  apply Version.entries_perm
  · intro e he
    exact hn ▸ (agrees.mem_liveAfter inv applied he).1
  · intro level h
    exact agrees.levelFiles_perm inv applied (hn ▸ h)

/-- The numbers of `liveAfter` are distinct: new numbers are distinct and fresh unless deleted. -/
theorem VersionEdit.Agrees.liveAfter_numbers_nodup (inv : v.Invariant n) (agrees : edit.Agrees v) :
    ((edit.liveAfter v).map (·.2.number)).Nodup := by
  rw [VersionEdit.liveAfter, List.map_append, List.nodup_append, List.map_reverse,
    List.nodup_reverse]
  refine ⟨agrees.added_nodup, (inv.numbers_nodup.sublist (List.filter_sublist.map _)), ?_⟩
  intro a ha b hb hab
  subst hab
  obtain ⟨p, hp, rfl⟩ := List.mem_map.mp (List.mem_reverse.mp ha)
  obtain ⟨e, he, hnumber⟩ := List.mem_map.mp hb
  simp only [List.mem_filter, decide_eq_true_eq] at he
  exact he.2 (hnumber ▸ agrees.added_fresh p hp (List.mem_map.mpr ⟨e, he.1, hnumber⟩))

/-- `log_and_apply` with an agreeing edit keeps the invariant of the version. -/
theorem Version.Invariant.applyEdit (inv : v.Invariant n) (agrees : edit.Agrees v)
    (applied : applyEdit io n v edit = .ok v') : v'.Invariant n := by
  have hn := VersionEdit.Agrees.numLevels_eq inv applied
  have wellFormed : ∀ level, ∀ f ∈ v'.levelFiles level, f.WellFormed := by
    intro level f hf
    have within := hn ▸ Version.lt_numLevels_of_mem hf
    have hlive := mem_filesAt.mp ((agrees.levelFiles_perm inv applied within).subset hf)
    exact (agrees.mem_liveAfter inv applied hlive).2
  refine ⟨hn, wellFormed, ?_, ?_, ?_⟩
  · -- the numbers of the new version are those of `liveAfter`
    exact ((agrees.entries_perm inv applied).map _).nodup_iff.mpr
      (agrees.liveAfter_numbers_nodup inv)
  · rcases Nat.eq_zero_or_pos n with hzero | hpos
    · rw [Version.levelFiles_eq_nil (by omega)]
      exact .nil
    rw [agrees.levelFiles_zero inv applied hpos, filesAt_liveAfter edit (inv.num_levels ▸ hpos),
      List.pairwise_append, List.pairwise_reverse]
    refine ⟨agrees.l0_ascending, inv.newest_first.filter _, ?_⟩
    intro a ha b hb
    exact agrees.l0_newer a (List.mem_reverse.mp ha) b (List.mem_of_mem_filter hb)
  · -- levels from 1 on passed the check, and a checked level of well-formed files is disjoint
    intro level above
    by_cases within : level < n
    · obtain ⟨v₁, -, -, checked⟩ := applyEdit_eq_ok applied
      exact (validateLevel_eq_ok_iff (wellFormed level)).mp
        (validateLevelDisjointness_eq_ok checked above (hn ▸ within))
    · rw [Version.levelFiles_eq_nil (by omega)]
      exact .nil

end Agrees

/-! ## Runs -/

/-- The version sets a run of `log_and_apply` reaches from a fresh one, each edit of the run one
that recovery agrees with. Failed calls are steps of the run too. -/
inductive VersionSet.Reachable : VersionSet → Prop
  | fresh {vs : VersionSet} : vs.current = Version.new vs.numLevels → vs.Reachable
  | step {vs : VersionSet} (io : ManifestIo) (edit : VersionEdit) :
      vs.Reachable → edit.Agrees vs.current → (vs.logAndApply io edit).2.Reachable

/-- Every version a run reaches keeps the invariant: one step keeps it, whatever
`log_and_apply` answers. -/
theorem VersionSet.Reachable.invariant {vs : VersionSet} (reach : vs.Reachable) :
    vs.current.Invariant vs.numLevels := by
  induction reach with
  | fresh hnew =>
    rw [hnew]
    exact Version.Invariant.new _
  | step io edit _ agrees ih =>
    obtain ⟨hlevels, hcurrent⟩ := VersionSet.logAndApply_current io _ edit
    rw [hlevels]
    rcases hcurrent with hsame | happly
    · rw [hsame]
      exact ih
    · exact ih.applyEdit agrees happly

end Mmdb
