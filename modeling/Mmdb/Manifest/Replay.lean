import Mmdb.Manifest.Apply
import Mmdb.Lib.Sort

/-!
# Recovery agrees with `log_and_apply`

Recovery rebuilds a version from the MANIFEST in two passes: the first replays every edit on a
map from file number to level and metadata (deletions before additions), the second opens the
live files in the order the map yields them, appends each to its level and sorts the levels.
Neither pass looks at the order `log_and_apply` kept the files in, so recovery reproduces the
version exactly when that order is the one its sorts produce.

`recoverVersion_eq_ok` is the heart of it: from the files of a version that keeps
`Version.Invariant`, in any order, recovery rebuilds that very version, because the invariant
makes every level strictly sorted by the key recovery sorts it by. With the invariant that
agreeing edits keep (`Version.Invariant.applyEdit`), replaying an edit from the version it was
applied to rebuilds the version `log_and_apply` installed.
-/

namespace Mmdb

/-! ## The live-file map -/

/-- Recovery's map for a version: each file under its number, with its level. -/
def Version.liveFiles (v : Version) : LiveFiles := v.entries.map fun e => (e.2.number, e)

theorem LiveFiles.find_eq_some {live : LiveFiles} (nodup : (live.map (·.1)).Nodup) {number : Nat}
    {e : Nat × FileMetaData} (h : (number, e) ∈ live) : live.find number = some e := by
  have present : (live.find? (·.1 == number)).isSome := List.find?_isSome.mpr ⟨_, h, by simp⟩
  obtain ⟨x, hx⟩ := Option.isSome_iff_exists.mp present
  have hkey : x.1 = number := by simpa using List.find?_some hx
  -- numbers are keys of the map: the entry found is the one of that number
  have same := List.inj_on_of_nodup_map nodup (List.mem_of_find?_eq_some hx) h hkey
  simp [LiveFiles.find, hx, same]

theorem LiveFiles.find_eq_none {live : LiveFiles} {number : Nat} (h : number ∉ live.map (·.1)) :
    live.find number = none := by
  simp only [LiveFiles.find, Option.map_eq_none_iff, List.find?_eq_none, beq_iff_eq]
  intro x hx hkey
  exact h (List.mem_map.mpr ⟨x, hx, hkey⟩)

/-! ## The first pass -/

/-- Deletions of live files, each number once, remove those numbers from the map. -/
theorem foldlM_replayDeletion_eq_ok :
    ∀ {dels : List (Nat × Nat)} {live : LiveFiles}, (live.map (·.1)).Nodup →
      (dels.map (·.2)).Nodup → (∀ d ∈ dels, ∃ f, (d.2, d.1, f) ∈ live) →
        dels.foldlM replayDeletion live = .ok (live.filter fun e => e.1 ∉ dels.map (·.2))
  | [], live, _, _, _ => by simp [pure, Except.pure]
  | d :: rest, live, nodup, delsNodup, hits => by
    obtain ⟨f, hf⟩ := hits d List.mem_cons_self
    obtain ⟨fresh, restNodup⟩ := List.nodup_cons.mp delsNodup
    have step : replayDeletion live d = .ok (live.remove d.2) := by
      obtain ⟨level, number⟩ := d
      simp [replayDeletion, LiveFiles.find_eq_some nodup hf]
    refine Except.foldlM_cons_eq_ok.mpr ⟨_, step, ?_⟩
    have restHits : ∀ d' ∈ rest, ∃ f, (d'.2, d'.1, f) ∈ live.remove d.2 := by
      intro d' hd'
      obtain ⟨f', hf'⟩ := hits d' (List.mem_cons_of_mem _ hd')
      refine ⟨f', List.mem_filter.mpr ⟨hf', ?_⟩⟩
      have : d'.2 ≠ d.2 := fun h => fresh (List.mem_map.mpr ⟨d', hd', h⟩)
      simpa using this
    have restLiveNodup : ((live.remove d.2).map (·.1)).Nodup :=
      nodup.sublist (List.filter_sublist.map _)
    rw [foldlM_replayDeletion_eq_ok restLiveNodup restNodup restHits, LiveFiles.remove,
      List.filter_filter]
    congr 1
    apply List.filter_congr
    intro e _
    by_cases hnumber : e.1 = d.2
    · simp [hnumber]
    · have kept : (e.1 != d.2) = true := bne_iff_ne.mpr hnumber
      simp [hnumber, kept]

/-- Additions of fresh, distinct numbers at existing levels put the files in the map. -/
theorem foldlM_replayAddition_eq_ok {n : Nat} :
    ∀ {adds : List (Nat × FileMetaData)} {live : LiveFiles}, (∀ p ∈ adds, p.1 < n) →
      (adds.map (·.2.number)).Nodup → (∀ p ∈ adds, p.2.number ∉ live.map (·.1)) →
        adds.foldlM (replayAddition n) live = .ok ((adds.map fun p => (p.2.number, p)).reverse ++ live)
  | [], live, _, _, _ => by simp [pure, Except.pure]
  | p :: rest, live, inRange, nodup, fresh => by
    obtain ⟨freshInEdit, restNodup⟩ := List.nodup_cons.mp nodup
    have step : replayAddition n live p = .ok ((p.2.number, p) :: live) := by
      obtain ⟨level, file⟩ := p
      have within : level < n := inRange _ List.mem_cons_self
      simp [replayAddition, Nat.not_le.mpr within,
        LiveFiles.find_eq_none (fresh _ List.mem_cons_self)]
    refine Except.foldlM_cons_eq_ok.mpr ⟨_, step, ?_⟩
    have restFresh : ∀ p' ∈ rest, p'.2.number ∉ ((p.2.number, p) :: live).map (·.1) := by
      intro p' hp'
      simp only [List.map_cons, List.mem_cons, not_or]
      exact ⟨fun h => freshInEdit (List.mem_map.mpr ⟨p', hp', h⟩),
        fresh p' (List.mem_cons_of_mem _ hp')⟩
    rw [foldlM_replayAddition_eq_ok (fun p' hp' => inRange p' (List.mem_cons_of_mem _ hp'))
      restNodup restFresh]
    simp

/-- A replayed edit whose deletions and additions go through moves the counters as
`log_and_apply` does. -/
theorem Replay.replayEdit_eq_ok {n : Nat} {st : Replay} {edit : VersionEdit} {live live' : LiveFiles}
    (bounded : ∀ s ∈ edit.lastSequence, s ≤ maxSequenceNumber)
    (deletions : edit.deletedFiles.foldlM replayDeletion st.liveFiles = .ok live)
    (additions : edit.newFiles.foldlM (replayAddition n) live = .ok live') :
    Replay.replayEdit n st edit = .ok
      { nextFileNumber := (edit.nextFileNumber.map (max st.nextFileNumber)).getD st.nextFileNumber
        logNumber := edit.logNumber.getD st.logNumber
        lastSequence := (edit.lastSequence.map (max st.lastSequence)).getD st.lastSequence
        liveFiles := live' } := by
  unfold Replay.replayEdit
  cases hsequence : edit.lastSequence with
  | none => simp [deletions, additions]
  | some s =>
    have within : ¬s > maxSequenceNumber := Nat.not_lt.mpr (bounded s hsequence)
    simp [within, deletions, additions]

/-! ## The second pass -/

@[simp] theorem Version.numLevels_pushFile (v : Version) (level : Nat) (file : FileMetaData) :
    (v.pushFile level file).numLevels = v.numLevels :=
  v.numLevels_modifyLevel _ _

/-- The files recovery pushes, one after the other. -/
def Version.pushFiles (v : Version) (values : List (Nat × FileMetaData)) : Version :=
  values.foldl (fun v e => v.pushFile e.1 e.2) v

@[simp] theorem Version.numLevels_pushFiles (values : List (Nat × FileMetaData)) :
    ∀ v : Version, (v.pushFiles values).numLevels = v.numLevels := by
  induction values with
  | nil => intro v; rfl
  | cons e rest ih =>
    intro v
    change ((v.pushFile e.1 e.2).pushFiles rest).numLevels = _
    rw [ih, Version.numLevels_pushFile]

/-- Every level receives its files in the order the map yields them. -/
theorem Version.levelFiles_pushFiles (values : List (Nat × FileMetaData)) :
    ∀ {v : Version} {level : Nat}, level < v.numLevels →
      (v.pushFiles values).levelFiles level = v.levelFiles level ++ filesAt values level := by
  induction values with
  | nil => intro v level _; simp [Version.pushFiles]
  | cons e rest ih =>
    intro v level h
    obtain ⟨level', file⟩ := e
    change ((v.pushFile level' file).pushFiles rest).levelFiles level = _
    rw [ih (by simpa using h), filesAt_cons]
    by_cases hlevel : level' = level
    · subst hlevel
      simp [Version.pushFile, Version.levelFiles_modifyLevel_self h]
    · simp [hlevel, Version.pushFile, v.levelFiles_modifyLevel_of_ne hlevel]

theorem foldlM_recoverFile_eq_ok {io : ManifestIo} :
    ∀ {values : List (Nat × FileMetaData)} {v : Version},
      (∀ e ∈ values, io.openTable e.2.number = .ok ()) →
        values.foldlM (recoverFile io) v = .ok (v.pushFiles values)
  | [], v, _ => rfl
  | e :: rest, v, opens => by
    have step : recoverFile io v e = .ok (v.pushFile e.1 e.2) := by
      simp [recoverFile, opens e List.mem_cons_self]
    exact Except.foldlM_cons_eq_ok.mpr ⟨_, step,
      foldlM_recoverFile_eq_ok fun e' he' => opens e' (List.mem_cons_of_mem _ he')⟩

@[simp] theorem Version.numLevels_sortLevels (v : Version) : v.sortLevels.numLevels = v.numLevels :=
  List.length_mapIdx

theorem Version.levelFiles_sortLevels (v : Version) (level : Nat) :
    v.sortLevels.levelFiles level = sortLevel level (v.levelFiles level) := by
  simp only [Version.sortLevels, Version.levelFiles, List.getD_eq_getElem?_getD,
    List.getElem?_mapIdx]
  cases v.files[level]? <;> simp [sortLevel]

/-- Files of a level from 1 on that keep the invariant are sorted by smallest key, strictly. -/
theorem Disjoint.compare_smallestKey {a b : FileMetaData} (ha : a.WellFormed) (hb : b.WellFormed)
    (h : Disjoint a b) : compareInternalKey a.smallestKey b.smallestKey = .lt :=
  compareInternalKey_of_userKey_lt ha.1 hb.1 (lt_of_le_of_lt ha.2.2 h)

theorem Disjoint.le_bySmallestKey {a b : FileMetaData} (ha : a.WellFormed) (hb : b.WellFormed)
    (h : Disjoint a b) : bySmallestKey a b := by
  simp [bySmallestKey, h.compare_smallestKey ha hb]

theorem Disjoint.not_ge_bySmallestKey {a b : FileMetaData} (ha : a.WellFormed) (hb : b.WellFormed)
    (h : Disjoint a b) : ¬bySmallestKey b a := by
  rw [bySmallestKey, show compareInternalKey b.smallestKey a.smallestKey =
    (compareInternalKey a.smallestKey b.smallestKey).swap from Std.OrientedCmp.eq_swap,
    h.compare_smallestKey ha hb]
  decide

/-- Recovery's sort puts any permutation of a level of an invariant version back in the
version's order: level 0 is strictly descending by number, every other level strictly
ascending by smallest key, so neither stable sort has ties to keep. -/
theorem Version.Invariant.sortLevel_eq {v : Version} {n : Nat} (inv : v.Invariant n) {level : Nat}
    {files : List FileMetaData} (perm : files.Perm (v.levelFiles level)) :
    sortLevel level files = v.levelFiles level := by
  unfold sortLevel
  split
  case isTrue hzero =>
    subst hzero
    refine List.mergeSort_eq_of_perm ?_ ?_ ?_ ?_ inv.newest_first perm
    · intro a b c
      simp only [decide_eq_true_eq]
      omega
    · intro a b
      simp only [Bool.or_eq_true, decide_eq_true_eq]
      omega
    · intro a b h
      simpa using h.le
    · intro a b h
      simpa using h
  case isFalse hpos =>
    have sorted : (v.levelFiles level).Pairwise fun a b => a.WellFormed ∧ b.WellFormed ∧ Disjoint a b :=
      (inv.disjoint level (by omega)).imp_of_mem fun ha hb h =>
        ⟨inv.well_formed level _ ha, inv.well_formed level _ hb, h⟩
    refine List.mergeSort_eq_of_perm (fun a b c => bySmallestKey_trans) bySmallestKey_total
      ?_ ?_ sorted perm
    · rintro a b ⟨ha, hb, h⟩
      exact h.le_bySmallestKey ha hb
    · rintro a b ⟨ha, hb, h⟩
      exact h.not_ge_bySmallestKey ha hb

/-- From the files of a version that keeps the invariant, in any order, recovery rebuilds that
version, provided every file still opens. -/
theorem recoverVersion_eq_ok {io : ManifestIo} {n : Nat} {v : Version} (inv : v.Invariant n)
    (opens : ∀ e ∈ v.entries, io.openTable e.2.number = .ok ())
    {values : List (Nat × FileMetaData)} (perm : values.Perm v.entries) :
    recoverVersion io n values = .ok v := by
  have pushed := foldlM_recoverFile_eq_ok (v := Version.new n) fun e he => opens e (perm.subset he)
  have sorted : ((Version.new n).pushFiles values).sortLevels = v := by
    apply Version.ext_levelFiles (by simp [inv.num_levels])
    intro level hlevel
    have within : level < v.numLevels := by simpa [inv.num_levels] using hlevel
    rw [Version.levelFiles_sortLevels, Version.levelFiles_pushFiles _ (by simpa [inv.num_levels]
      using within), Version.levelFiles_new, List.nil_append]
    exact inv.sortLevel_eq ((filesAt_perm perm level).trans (.of_eq (v.filesAt_entries within)))
  simp [recoverVersion, pushed, sorted, inv.validateLevelDisjointness]

/-! ## Replaying an applied edit -/

/-- The bookkeeping of recovery's first pass when it has replayed the edits up to `vs`. -/
def VersionSet.replayState (vs : VersionSet) : Replay :=
  ⟨vs.nextFileNumber, vs.logNumber, vs.lastSequence, vs.current.liveFiles⟩

section Replay

variable {io : ManifestIo} {n : Nat} {v v' : Version} {edit : VersionEdit}

/-- An agreeing edit that `log_and_apply` applied replays from the version's map: every deletion
finds its file live at its level, every addition finds its number free, and the map ends up
holding `liveAfter`. -/
theorem VersionEdit.Agrees.replayEdit (inv : v.Invariant n) (agrees : edit.Agrees v)
    (applied : applyEdit io n v edit = .ok v') {st : Replay} (hlive : st.liveFiles = v.liveFiles) :
    Replay.replayEdit n st edit = .ok
      { nextFileNumber := (edit.nextFileNumber.map (max st.nextFileNumber)).getD st.nextFileNumber
        logNumber := edit.logNumber.getD st.logNumber
        lastSequence := (edit.lastSequence.map (max st.lastSequence)).getD st.lastSequence
        liveFiles := (edit.liveAfter v).map fun e => (e.2.number, e) } := by
  obtain ⟨nextFileNumber, logNumber, lastSequence, live⟩ := st
  dsimp only at hlive
  subst hlive
  have liveNodup : (v.liveFiles.map (·.1)).Nodup := by
    simpa [Version.liveFiles, Function.comp_def] using inv.numbers_nodup
  have hits : ∀ d ∈ edit.deletedFiles, ∃ f, (d.2, d.1, f) ∈ v.liveFiles := by
    intro d hd
    obtain ⟨f, hf, hnumber⟩ := agrees.deleted_live inv.num_levels applied d hd
    refine ⟨f, List.mem_map.mpr ⟨(d.1, f), ?_, by simp [hnumber]⟩⟩
    exact Version.mem_entries.mpr ⟨Version.lt_numLevels_of_mem hf, hf⟩
  have deletions := foldlM_replayDeletion_eq_ok liveNodup
    (agrees.deleted_numbers_nodup inv applied) hits
  -- the map after the deletions is the tagged list of the kept entries
  have kept : (v.liveFiles.filter fun e => e.1 ∉ edit.deletedFiles.map (·.2)) =
      (v.entries.filter fun e => e.2.number ∉ edit.deletedFiles.map (·.2)).map
        fun e => (e.2.number, e) := by
    simp [Version.liveFiles, List.filter_map, Function.comp_def]
  have fresh : ∀ p ∈ edit.newFiles, p.2.number ∉
      (v.liveFiles.filter fun e => e.1 ∉ edit.deletedFiles.map (·.2)).map (·.1) := by
    intro p hp hlive
    obtain ⟨e, he, hnumber⟩ := List.mem_map.mp hlive
    obtain ⟨hmem, hkept⟩ := List.mem_filter.mp he
    have hold : p.2.number ∈ v.entries.map (·.2.number) := by
      rw [← hnumber]
      simpa [Version.liveFiles, Function.comp_def] using List.mem_map_of_mem (f := (·.1)) hmem
    exact (of_decide_eq_true hkept) (hnumber ▸ agrees.added_fresh p hp hold)
  obtain ⟨v₁, adds, -⟩ := applyEdit_eq_ok applied
  have additions := foldlM_replayAddition_eq_ok (n := n)
    (fun p hp => ((foldlM_applyNewFile_eq_ok adds).1 p hp).1) agrees.added_nodup fresh
  rw [Replay.replayEdit_eq_ok agrees.sequence_bounded deletions additions, kept]
  simp [VersionEdit.liveAfter]

/-- Every file of the new version still opens: the old ones by assumption, the new ones because
`log_and_apply` opened them. -/
theorem VersionEdit.Agrees.opens (inv : v.Invariant n) (agrees : edit.Agrees v)
    (applied : applyEdit io n v edit = .ok v')
    (opens : ∀ e ∈ v.entries, io.openTable e.2.number = .ok ()) :
    ∀ e ∈ v'.entries, io.openTable e.2.number = .ok () := by
  intro e he
  rcases List.mem_append.mp ((agrees.entries_perm inv applied).subset he) with hadded | hkept
  · obtain ⟨v₁, adds, -⟩ := applyEdit_eq_ok applied
    exact ((foldlM_applyNewFile_eq_ok adds).1 e (List.mem_reverse.mp hadded)).2
  · exact opens e (List.mem_of_mem_filter hkept)

end Replay

/-- In-memory application and MANIFEST replay agree on every edit that recovery agrees with:
after `log_and_apply` installs an edit on a reachable version set, replaying the same edit from
the version's file map succeeds with the same counters and file map, and recovery's second pass,
over the map's files in any order, rebuilds level by level the version `log_and_apply`
installed, which keeps the invariant. -/
theorem VersionSet.logAndApply_replay {io : ManifestIo} {vs vs' : VersionSet} {edit : VersionEdit}
    (reach : vs.Reachable) (agrees : edit.Agrees vs.current)
    (opens : ∀ e ∈ vs.current.entries, io.openTable e.2.number = .ok ())
    (applied : vs.logAndApply io edit = (.ok (), vs')) :
    vs'.current.Invariant vs.numLevels ∧
      ∃ replay, Replay.replayEdit vs.numLevels vs.replayState edit = .ok replay ∧
        replay.nextFileNumber = vs'.nextFileNumber ∧ replay.logNumber = vs'.logNumber ∧
        replay.lastSequence = vs'.lastSequence ∧ replay.liveFiles.Perm vs'.current.liveFiles ∧
        ∀ values, values.Perm (replay.liveFiles.map (·.2)) →
          recoverVersion io vs.numLevels values = .ok vs'.current := by
  have inv := reach.invariant
  obtain ⟨-, -, happly, hvs'⟩ := VersionSet.logAndApply_eq_ok applied
  have inv' := inv.applyEdit agrees happly
  have entries := agrees.entries_perm inv happly
  refine ⟨inv', _, agrees.replayEdit inv happly rfl, ?_, ?_, ?_, ?_, ?_⟩
  · rw [hvs']
    rfl
  · rw [hvs']
    rfl
  · rw [hvs']
    rfl
  · exact (entries.map _).symm
  · intro values hvalues
    have untagged : ((edit.liveAfter vs.current).map fun e => (e.2.number, e)).map (·.2) =
        edit.liveAfter vs.current := by
      simp [Function.comp_def]
    rw [untagged] at hvalues
    exact recoverVersion_eq_ok inv' (agrees.opens inv happly opens) (hvalues.trans entries.symm)

/-- A flush of level-0 files 2, 3 and 4 into a fresh version set, then a compaction edit that
deletes level-0 file 2 and adds file 5 at level 1: replaying the compaction from the flushed
version's file map rebuilds level 0 newest first without the deleted file, and level 1. -/
theorem logAndApply_replay_compaction :
    let io : ManifestIo := ⟨fun _ => .ok (), fun _ => "", fun _ => true, .ok (), fun _ => .ok ()⟩
    let table (number : Nat) (first last : UInt8) : FileMetaData :=
      ⟨number, 4096, [first, 0, 0, 0, 0, 0, 0, 1, 1], [last, 0, 0, 0, 0, 0, 0, 1, 1], false⟩
    let flush : VersionEdit := ⟨some 1, some 6, some 12,
      [(0, table 2 0x61 0x7a), (0, table 3 0x62 0x6d), (0, table 4 0x61 0x63)], []⟩
    let flushed := (VersionSet.logAndApply io ⟨2, Version.new 2, 2, 1, 9, true, false⟩ flush).2
    let edit : VersionEdit := ⟨none, some 7, none, [(1, table 5 0x61 0x7a)], [(0, 2)]⟩
    let vs' := (flushed.logAndApply io edit).2
    flushed.current.levelFiles 0 = [table 4 0x61 0x63, table 3 0x62 0x6d, table 2 0x61 0x7a] ∧
      vs'.current.levelFiles 0 = [table 4 0x61 0x63, table 3 0x62 0x6d] ∧
      vs'.current.levelFiles 1 = [table 5 0x61 0x7a] ∧
      flushed.logAndApply io edit = (.ok (), vs') ∧ vs'.current.Invariant flushed.numLevels ∧
      ∃ replay, Replay.replayEdit flushed.numLevels flushed.replayState edit = .ok replay ∧
        replay.nextFileNumber = vs'.nextFileNumber ∧ replay.logNumber = vs'.logNumber ∧
        replay.lastSequence = vs'.lastSequence ∧ replay.liveFiles.Perm vs'.current.liveFiles ∧
        ∀ values, values.Perm (replay.liveFiles.map (·.2)) →
          recoverVersion io flushed.numLevels values = .ok vs'.current := by
  intro io table flush flushed edit vs'
  have hflushed : flushed =
      ⟨2, ⟨[[table 4 0x61 0x63, table 3 0x62 0x6d, table 2 0x61 0x7a], []]⟩, 6, 1, 12, true, false⟩ :=
    rfl
  -- the level-1 addition goes through `mergeSort`, which `rfl` does not unfold
  have happlied : flushed.logAndApply io edit = (.ok (),
      ⟨2, ⟨[[table 4 0x61 0x63, table 3 0x62 0x6d], [table 5 0x61 0x7a]]⟩, 7, 1, 12, true, false⟩) := by
    rw [hflushed]
    simp [io, edit, VersionSet.logAndApply, applyEdit, applyNewFile, applyDeletion, Version.addFile,
      Version.modifyLevel, Version.levelFiles, List.modify, List.mergeSort_singleton]
    decide
  have hvs' : vs' =
      ⟨2, ⟨[[table 4 0x61 0x63, table 3 0x62 0x6d], [table 5 0x61 0x7a]]⟩, 7, 1, 12, true, false⟩ :=
    congrArg Prod.snd happlied
  have applied : flushed.logAndApply io edit = (.ok (), vs') := by
    rw [happlied, hvs']
  have reach : flushed.Reachable :=
    .step io flush (.fresh rfl) ⟨by decide, by decide, by decide, by decide, by decide, by decide,
      by decide⟩
  have agrees : edit.Agrees flushed.current := by
    rw [hflushed]
    exact ⟨by decide, by decide, by decide, by decide, by decide, by decide, by decide⟩
  have opens : ∀ e ∈ flushed.current.entries, io.openTable e.2.number = .ok () := fun _ _ => rfl
  refine ⟨by rw [hflushed]; rfl, by rw [hvs']; rfl, by rw [hvs']; rfl, applied, ?_⟩
  exact VersionSet.logAndApply_replay reach agrees opens applied

/-- Two flushes whose level-0 files arrive in ascending number order: `log_and_apply` accepts
both and keeps level 0 oldest first, while recovery from the same MANIFEST, in any order of its
map, sorts level 0 newest first. -/
theorem logAndApply_l0_out_of_order :
    let io : ManifestIo := ⟨fun _ => .ok (), fun _ => "", fun _ => true, .ok (), fun _ => .ok ()⟩
    let key : Bytes := [0x61, 0, 0, 0, 0, 0, 0, 0, 1]
    let older : FileMetaData := ⟨1, 4096, key, key, false⟩
    let newer : FileMetaData := ⟨2, 4096, key, key, false⟩
    let vs : VersionSet := ⟨2, Version.new 2, 3, 0, 0, true, false⟩
    let first : VersionEdit := ⟨none, none, none, [(0, newer)], []⟩
    let second : VersionEdit := ⟨none, none, none, [(0, older)], []⟩
    let vs₁ := (vs.logAndApply io first).2
    let vs₂ := (vs₁.logAndApply io second).2
    (vs.logAndApply io first).1 = .ok () ∧ (vs₁.logAndApply io second).1 = .ok () ∧
      vs₂.current.levelFiles 0 = [older, newer] ∧ ¬vs₂.current.Invariant 2 ∧
      ∃ replay, Replay.replayEdits 2 [first, second] = .ok replay ∧
        ∀ values, values.Perm (replay.liveFiles.map (·.2)) →
          recoverVersion io 2 values = .ok ⟨[[newer, older], []]⟩ := by
  intro io key older newer vs first second vs₁ vs₂
  refine ⟨rfl, rfl, rfl, by decide, _, rfl, fun values hvalues => ?_⟩
  -- the version recovery builds keeps the invariant and holds the replayed files
  exact recoverVersion_eq_ok (n := 2) (v := ⟨[[newer, older], []]⟩) (by decide) (by simp [io])
    (hvalues.trans (by decide))

end Mmdb
