import Mmdb.Compaction.Survivors

/-!
# The loop of a sub-compaction: what it writes

`mergeLoop` and `execute_sub_compaction_io` against the choice of what to keep. The loop body is
taken in its phases: the deferred cut (`Written.cut`), the table an entry is written to
(`Written.openTable`, giving `Opened`) and the write (`Opened.write`). With the survivors `S` of the
entries taken, `Written` says that the tables written and the one being built hold exactly `S`,
point entries in the data blocks and range deletions in their block, and that the files entered in
`new_files` are well formed, at the target level, in order with disjoint user-key ranges, numbered
from the counter up, with bounds that are keys of survivors; `Output` is what is left of it once
the last table is finished.

**It never panics** (`executeSubCompactionIo_ne_none`): the key given to `TableBuilder::add` is
either the first of a new table or the survivor after the table's last key, and survivors
increase (`survivors_increasing`).

**Its files form a sorted run** (`executeSubCompactionIo_files`): a table is cut only where the
user key changes, so the last user key of a file is below the first of the next.

**It writes exactly the survivors** (`executeSubCompactionIo_tables`) of the merged stream up to
the upper bound. The merged stream is the model's (`SubCompactionTask.merger`);
`Mmdb.Compaction.Merger` shows that the heap the code builds returns it, when the input tables are
sorted and no internal key occurs twice.
-/

namespace Mmdb

open RangeDel

/-! ## Decoding the entries -/

/-- An entry whose key decodes: its parts are the entry's. -/
theorem Entry.decodes_of_decodeInternalKey {e : Entry} {x : Bytes × SequenceNumber × ValueType}
    (h : decodeInternalKey e.key = .ok x) : e.Decodes ∧ x = (e.userKey, e.seq, e.valueType) := by
  have hdec : e.Decodes := by
    unfold decodeInternalKey at h
    split_ifs at h with hlen
    dsimp only at h
    split at h
    · cases h
    · rename_i vt hvt
      refine ⟨by omega, ?_⟩
      simp only [Entry.valueType?, trailerNum]
      rw [hvt]
      rfl
  refine ⟨hdec, ?_⟩
  rw [Entry.decodeInternalKey_eq hdec] at h
  exact (Except.ok.inj h).symm

section Written

variable {params : SubCompactionParams}

/-- The entry written for a decoded entry decodes, with the entry's user key and value type; its
sequence is zero where the entry is zeroed. -/
theorem Entry.decodes_of_outputKey {o e : Entry} (he : e.Decodes)
    (ho : o.key = outputKey params e.key e.userKey e.seq e.valueType) :
    o.Decodes ∧ o.userKey = e.userKey ∧ o.valueType = e.valueType ∧
      o.seq = if Zeroed params e then 0 else e.seq := by
  by_cases hz : Zeroed params e
  · rw [outputKey_of_zeroed hz] at ho
    have hdec := decodeInternalKey_new e.userKey (Nat.zero_le maxSequenceNumber) .value
    rw [← ho] at hdec
    obtain ⟨hod, hx⟩ := Entry.decodes_of_decodeInternalKey hdec
    simp only [Prod.mk.injEq] at hx
    exact ⟨hod, hx.1.symm, hx.2.2.symm.trans hz.2.2.2.symm, by rw [if_pos hz, ← hx.2.1]⟩
  · rw [outputKey_of_not_zeroed hz] at ho
    refine ⟨?_, ?_, ?_, ?_⟩
    · unfold Entry.Decodes Entry.valueType?
      rw [ho]
      exact he
    · unfold Entry.userKey
      rw [ho]
    · unfold Entry.valueType Entry.valueType?
      rw [ho]
    · rw [if_neg hz]
      unfold Entry.seq
      rw [ho]

variable {ctx : CompactionContext} {ks : KeepState} {es : List Entry}

/-- A survivor comes from an entry of the stream, at the state the entries before it leave. -/
theorem mem_survivors {o : Entry} (ho : o ∈ (survivors ctx params ks es).2) :
    ∃ pre e rest, es = pre ++ e :: rest ∧
      (keepStep ctx params (survivors ctx params ks pre).1 e).2 = some o :=
  List.mem_scanFilter (keepStep ctx params) ho

@[simp] theorem survivors_nil : survivors ctx params ks [] = (ks, []) := rfl

theorem survivors_concat (pre : List Entry) (e : Entry) :
    survivors ctx params ks (pre ++ [e]) =
      ((keepStep ctx params (survivors ctx params ks pre).1 e).1,
        (survivors ctx params ks pre).2 ++
          (keepStep ctx params (survivors ctx params ks pre).1 e).2.toList) :=
  List.scanFilter_concat _ _ _ _

end Written

/-! ## The output locals -/

namespace OutputState

variable {ctx : CompactionContext} {io : TableIo} {params : SubCompactionParams}
  {os os' : OutputState} {b : TableBuilder}

/-- `finish` succeeded: the table is entered in `new_files`, numbered by the current file
number, with the bounds it recorded. -/
theorem finishTable_eq_ok (h : os.finishTable io params b = .ok os') :
    ∃ fileSize, os' = { os with
      builder := none
      outputTombstones := if b.hasRangeDeletions then
          os.outputTombstones ++
            [(os.currentFileNumber, b.rangeDelEntries.map fun (key, «end») => (userKey key, «end»))]
        else os.outputTombstones
      newFiles := os.newFiles ++ [(params.targetLevel,
        { number := os.currentFileNumber
          fileSize := fileSize
          smallestKey := b.smallestKey.getD []
          largestKey := b.largestKey.getD []
          hasRangeDeletions := b.hasRangeDeletions })]
      tables := os.tables ++ [b] } := by
  unfold finishTable TableBuilder.finish at h
  cases hfin : io.finish b with
  | error e =>
    rw [hfin] at h
    cases h
  | ok fileSize =>
    rw [hfin] at h
    cases h
    exact ⟨fileSize, rfl⟩

/-- The deferred cut either leaves the locals as they are, or finishes the table being built. -/
theorem cutIfPending_eq_ok {u : Bytes} (h : os.cutIfPending io params u = .ok os') :
    (os' = os ∧ ∀ b ∈ os.builder, os.pendingCut = true → u = os.currentFileUserKey) ∨
      ∃ b os₁, os.builder = some b ∧ u ≠ os.currentFileUserKey ∧
        os.finishTable io params b = .ok os₁ ∧ os' = { os₁ with currentSize := 0, pendingCut := false } := by
  unfold cutIfPending at h
  split at h
  · rename_i b hb
    by_cases hcut : os.pendingCut = true ∧ u ≠ os.currentFileUserKey
    · rw [if_pos hcut] at h
      cases hfin : os.finishTable io params b with
      | error e =>
        rw [hfin] at h
        cases h
      | ok os₁ =>
        rw [hfin] at h
        cases h
        exact .inr ⟨b, os₁, hb, hcut.2, hfin, rfl⟩
    · rw [if_neg hcut] at h
      cases h
      refine .inl ⟨rfl, fun _ _ hpend => ?_⟩
      by_contra hne
      exact hcut ⟨hpend, hne⟩
  · rename_i hb
    cases h
    exact .inl ⟨rfl, fun _ hmem => by rw [hb] at hmem; cases hmem⟩

/-- A table to write to: the one being built, or a new one numbered by the counter. -/
theorem openTable_eq_ok (h : os.openTable io params = .ok (os', b)) :
    (os.builder = some b ∧ os' = os) ∨
      (os.builder = none ∧ os.fileNumberCounter < params.fileNumberLimit ∧
        b = TableBuilder.new params.buildOpts ∧
        os' = { os with
          fileNumberCounter := os.fileNumberCounter + 1
          currentFileNumber := os.fileNumberCounter
          builder := some b
          currentSize := 0 }) := by
  unfold openTable at h
  split at h
  · cases h
    exact .inl ⟨‹_›, rfl⟩
  · rename_i hb
    unfold allocateOutputFileNumber at h
    dsimp only at h
    split_ifs at h with hlimit hoverflow
    · cases h
    · cases h
    · cases hcreate : io.create os.fileNumberCounter with
      | error e =>
        simp only [Except.ok_bind, hcreate] at h
        cases h
      | ok _ =>
        simp only [Except.ok_bind, hcreate] at h
        cases h
        exact .inr ⟨hb, by omega, rfl, rfl⟩

/-- A write that succeeds added the key to the table and moved the size and the user key. -/
theorem write_eq_ok {key value u : Bytes} (h : os.write ctx io b key value u = some (.ok os')) :
    ∃ b', b.add io key value = some (.ok b') ∧ os'.builder = some b' ∧
      os'.currentFileUserKey = u ∧ os'.newFiles = os.newFiles ∧ os'.tables = os.tables ∧
      os'.fileNumberCounter = os.fileNumberCounter ∧ os'.currentFileNumber = os.currentFileNumber := by
  unfold write at h
  obtain ⟨r, hr, hmap⟩ := Option.map_eq_some_iff.mp h
  cases r with
  | error e => cases hmap
  | ok b' =>
    cases hmap
    exact ⟨b', hr, rfl, rfl, rfl, rfl, rfl, rfl⟩

theorem add_eq_none_of_write {key value u : Bytes} (h : os.write ctx io b key value u = none) :
    b.add io key value = none := by
  unfold write at h
  exact Option.map_eq_none_iff.mp h

end OutputState

/-! ## One step of the loop -/

section Step

variable {ctx : CompactionContext} {io : TableIo} {sub : SubCompactionTask}
  {params : SubCompactionParams} {ks : KeepState} {os : OutputState} {e : Entry}

/-- An iteration that goes on to the next entry decoded it below the upper bound, made the cut
if one was due, took the choice, and wrote what it kept. -/
theorem mergeStep_eq_next {ks' : KeepState} {os' : OutputState}
    (h : mergeStep ctx io sub params ks os e = some (.next ks' os')) :
    e.Decodes ∧ (sub.upperBound.any fun hi => decide (hi ≤ e.userKey)) = false ∧
      ks' = (keepStep ctx params ks e).1 ∧ ∃ os₁, os.cutIfPending io params e.userKey = .ok os₁ ∧
        ((keepStep ctx params ks e).2 = none ∧ os' = os₁ ∨
          ∃ o os₂ b, (keepStep ctx params ks e).2 = some o ∧
            os₁.openTable io params = .ok (os₂, b) ∧
            os₂.write ctx io b o.key o.value e.userKey = some (.ok os')) := by
  unfold mergeStep at h
  cases hdec : decodeInternalKey e.key with
  | error err =>
    rw [hdec] at h
    cases h
  | ok x =>
    obtain ⟨he, rfl⟩ := Entry.decodes_of_decodeInternalKey hdec
    rw [hdec] at h
    dsimp only at h
    by_cases hbound : (sub.upperBound.any fun hi => decide (hi ≤ e.userKey)) = true
    · rw [if_pos hbound] at h
      cases h
    rw [if_neg hbound] at h
    refine ⟨he, by simpa using hbound, ?_⟩
    cases hcut : os.cutIfPending io params e.userKey with
    | error err =>
      rw [hcut] at h
      cases h
    | ok os₁ =>
      rw [hcut] at h
      dsimp only at h
      unfold keepStep
      dsimp only
      by_cases hkept : (ks.keep ctx.activeSnapshots params e.key e.userKey e.seq e.valueType).2 = true
      · rw [if_pos hkept] at h ⊢
        cases hfilt : applyCompactionFilter ctx params e.userKey e.valueType e.value with
        | none =>
          rw [hfilt] at h
          cases h
          exact ⟨rfl, _, rfl, .inl ⟨rfl, rfl⟩⟩
        | some value =>
          rw [hfilt] at h
          dsimp only at h
          cases hopen : os₁.openTable io params with
          | error err =>
            rw [hopen] at h
            cases h
          | ok ob =>
            obtain ⟨os₂, b⟩ := ob
            rw [hopen] at h
            dsimp only at h
            obtain ⟨r, hr, hmap⟩ := Option.map_eq_some_iff.mp h
            cases r with
            | error err => cases hmap
            | ok os₃ =>
              cases hmap
              exact ⟨rfl, _, rfl, .inr ⟨_, os₂, b, rfl, hopen, hr⟩⟩
      · rw [if_neg hkept] at h ⊢
        cases h
        exact ⟨rfl, _, rfl, .inl ⟨rfl, rfl⟩⟩

/-- An iteration panics only in the write of an entry it keeps. -/
theorem mergeStep_eq_none (h : mergeStep ctx io sub params ks os e = none) :
    e.Decodes ∧ ∃ os₁ o os₂ b, os.cutIfPending io params e.userKey = .ok os₁ ∧
      (keepStep ctx params ks e).2 = some o ∧ os₁.openTable io params = .ok (os₂, b) ∧
      os₂.write ctx io b o.key o.value e.userKey = none := by
  unfold mergeStep at h
  cases hdec : decodeInternalKey e.key with
  | error err =>
    rw [hdec] at h
    cases h
  | ok x =>
    obtain ⟨he, rfl⟩ := Entry.decodes_of_decodeInternalKey hdec
    rw [hdec] at h
    dsimp only at h
    by_cases hbound : (sub.upperBound.any fun hi => decide (hi ≤ e.userKey)) = true
    · rw [if_pos hbound] at h
      cases h
    rw [if_neg hbound] at h
    refine ⟨he, ?_⟩
    cases hcut : os.cutIfPending io params e.userKey with
    | error err =>
      rw [hcut] at h
      cases h
    | ok os₁ =>
      rw [hcut] at h
      dsimp only at h
      unfold keepStep
      dsimp only
      by_cases hkept : (ks.keep ctx.activeSnapshots params e.key e.userKey e.seq e.valueType).2 = true
      · rw [if_pos hkept] at h ⊢
        cases hfilt : applyCompactionFilter ctx params e.userKey e.valueType e.value with
        | none =>
          rw [hfilt] at h
          cases h
        | some value =>
          rw [hfilt] at h
          dsimp only at h
          cases hopen : os₁.openTable io params with
          | error err =>
            rw [hopen] at h
            cases h
          | ok ob =>
            obtain ⟨os₂, b⟩ := ob
            rw [hopen] at h
            exact ⟨os₁, _, os₂, b, rfl, rfl, hopen, Option.map_eq_none_iff.mp h⟩
      · rw [if_neg hkept] at h
        cases h

/-- An iteration stops only at an entry at or above the upper bound. -/
theorem mergeStep_eq_stop (h : mergeStep ctx io sub params ks os e = some .stop) :
    ∃ hi ∈ sub.upperBound, hi ≤ e.userKey := by
  unfold mergeStep at h
  cases hdec : decodeInternalKey e.key with
  | error err =>
    rw [hdec] at h
    cases h
  | ok x =>
    obtain ⟨-, rfl⟩ := Entry.decodes_of_decodeInternalKey hdec
    rw [hdec] at h
    dsimp only at h
    by_cases hbound : (sub.upperBound.any fun hi => decide (hi ≤ e.userKey)) = true
    · cases hub : sub.upperBound with
      | none =>
        rw [hub] at hbound
        cases hbound
      | some hi =>
        rw [hub] at hbound
        exact ⟨hi, rfl, of_decide_eq_true hbound⟩
    -- below the bound, every way through the body goes on or fails
    rw [if_neg hbound] at h
    exfalso
    cases hcut : os.cutIfPending io params e.userKey with
    | error err =>
      rw [hcut] at h
      cases h
    | ok os₁ =>
      rw [hcut] at h
      dsimp only at h
      split_ifs at h
      · cases hfilt : applyCompactionFilter ctx params e.userKey e.valueType e.value with
        | none =>
          rw [hfilt] at h
          cases h
        | some value =>
          rw [hfilt] at h
          dsimp only at h
          cases hopen : os₁.openTable io params with
          | error err =>
            rw [hopen] at h
            cases h
          | ok ob =>
            rw [hopen] at h
            obtain ⟨r, -, hmap⟩ := Option.map_eq_some_iff.mp h
            cases r <;> cases hmap
      · cases h

end Step

/-! ## What the loop has written -/

/-- What `add` does with a survivor, in `internal_keys` mode: it becomes the last and the largest
key, the smallest if there was none, and goes to the data blocks or, a range deletion, to the
range-deletion block. -/
theorem TableBuilder.add_entry {io : TableIo} {b b' : TableBuilder} {o : Entry}
    (hmode : b.options.internalKeys = true) (ho : o.Decodes) (h : b.add io o.key o.value = some (.ok b')) :
    b'.options = b.options ∧ b'.lastKey = o.key ∧ b'.largestKey = some o.key ∧
      b'.smallestKey = b.smallestKey.or (some o.key) ∧
      b'.dataEntries = b.dataEntries ++
        ([o].filter fun o => o.valueType != .rangeDeletion).map (fun o => (o.key, o.value)) ∧
      b'.rangeDelEntries = b.rangeDelEntries ++
        ([o].filter fun o => o.valueType == .rangeDeletion).map (fun o => (o.key, o.value)) := by
  obtain ⟨vt, hcheck, rfl⟩ := TableBuilder.add_eq_ok h
  rw [TableBuilder.checkKey_eq_ok hmode (Entry.decodeInternalKey_eq ho) hcheck]
  refine ⟨by simp, by simp, by simp, by simp, ?_, ?_⟩
  · rw [TableBuilder.record_dataEntries]
    by_cases hrd : o.valueType = .rangeDeletion <;> simp [hrd]
  · rw [TableBuilder.record_rangeDelEntries]
    by_cases hrd : o.valueType = .rangeDeletion <;> simp [hrd]

/-- The bounds of a file are keys of entries of `S`. -/
def BoundsIn (S : List Entry) (f : FileMetaData) : Prop :=
  (∃ o ∈ S, o.key = f.smallestKey) ∧ ∃ o ∈ S, o.key = f.largestKey

theorem BoundsIn.mono {S S' : List Entry} {f : FileMetaData} (h : BoundsIn S f) (hsub : S ⊆ S') :
    BoundsIn S' f :=
  ⟨h.1.imp fun _ ho => ⟨hsub ho.1, ho.2⟩, h.2.imp fun _ ho => ⟨hsub ho.1, ho.2⟩⟩

/-- The output locals when no table is being built, with the survivors `S` written: the tables
finished hold them, point entries in the data blocks and range deletions in their block; the files
are well formed, at the target level, in order with disjoint user-key ranges, numbered from
`counter₀` up to the counter, which stays within the reserved numbers, and bounded by keys of
survivors. -/
structure Output (params : SubCompactionParams) (counter₀ : Nat) (S : List Entry)
    (os : OutputState) : Prop where
  dataEntries : os.tables.flatMap (·.dataEntries) =
    ((S.filter fun o => o.valueType != .rangeDeletion).map fun o => (o.key, o.value))
  rangeDelEntries : os.tables.flatMap (·.rangeDelEntries) =
    ((S.filter fun o => o.valueType == .rangeDeletion).map fun o => (o.key, o.value))
  files : ∀ f ∈ os.newFiles, f.1 = params.targetLevel ∧ f.2.WellFormed
  disjoint : (os.newFiles.map (·.2)).Pairwise Disjoint
  numbers : os.newFiles.map (·.2.number) = List.range' counter₀ (os.fileNumberCounter - counter₀)
  counter : counter₀ ≤ os.fileNumberCounter ∧
    (counter₀ < os.fileNumberCounter → os.fileNumberCounter ≤ params.fileNumberLimit)
  keys : ∀ f ∈ os.newFiles, BoundsIn S f.2

/-- The output locals in the loop, with the survivors `S` written and every entry still to come at
or above the user key `k`. The tables written and the one being built hold the survivors; the
table being built ends with the last survivor, its bounds are its first and last keys and the files
before it end below its first user key; with no table being built the files end below `k`. -/
structure Written (params : SubCompactionParams) (counter₀ : Nat) (S : List Entry) (k : Bytes)
    (os : OutputState) : Prop where
  decodes : ∀ o ∈ S, o.Decodes
  last_written : ∀ o ∈ S.getLast?, o.userKey ≤ k
  dataEntries : os.tables.flatMap (·.dataEntries) ++ (os.builder.map (·.dataEntries)).getD [] =
    ((S.filter fun o => o.valueType != .rangeDeletion).map fun o => (o.key, o.value))
  rangeDelEntries :
    os.tables.flatMap (·.rangeDelEntries) ++ (os.builder.map (·.rangeDelEntries)).getD [] =
      ((S.filter fun o => o.valueType == .rangeDeletion).map fun o => (o.key, o.value))
  builder : ∀ b ∈ os.builder, b.options = params.buildOpts ∧ (∃ o ∈ S.getLast?, b.lastKey = o.key) ∧
    b.largestKey = some b.lastKey ∧ os.currentFileUserKey = userKey b.lastKey ∧
    ∃ sm, b.smallestKey = some sm ∧ 8 ≤ sm.length ∧ userKey sm ≤ userKey b.lastKey ∧
      ∀ f ∈ os.newFiles, userKey f.2.largestKey < userKey sm
  no_builder : os.builder = none → ∀ f ∈ os.newFiles, userKey f.2.largestKey < k
  files : ∀ f ∈ os.newFiles, f.1 = params.targetLevel ∧ f.2.WellFormed
  disjoint : (os.newFiles.map (·.2)).Pairwise Disjoint
  numbers : os.newFiles.map (·.2.number) ++ (os.builder.map fun _ => os.currentFileNumber).toList =
    List.range' counter₀ (os.fileNumberCounter - counter₀)
  counter : counter₀ ≤ os.fileNumberCounter ∧
    (counter₀ < os.fileNumberCounter → os.fileNumberCounter ≤ params.fileNumberLimit)
  keys : ∀ f ∈ os.newFiles, BoundsIn S f.2
  smallest : ∀ b ∈ os.builder, ∀ sm ∈ b.smallestKey, ∃ o ∈ S, o.key = sm

/-- The table an entry is about to be written to, with the survivors `S` written: it is the table
being built, either new and empty with the files ending below `k`, or holding the last survivor
as above. -/
structure Opened (params : SubCompactionParams) (counter₀ : Nat) (S : List Entry) (k : Bytes)
    (os : OutputState) (b : TableBuilder) : Prop where
  decodes : ∀ o ∈ S, o.Decodes
  last_written : ∀ o ∈ S.getLast?, o.userKey ≤ k
  builder : os.builder = some b
  options : b.options = params.buildOpts
  dataEntries : os.tables.flatMap (·.dataEntries) ++ b.dataEntries =
    ((S.filter fun o => o.valueType != .rangeDeletion).map fun o => (o.key, o.value))
  rangeDelEntries : os.tables.flatMap (·.rangeDelEntries) ++ b.rangeDelEntries =
    ((S.filter fun o => o.valueType == .rangeDeletion).map fun o => (o.key, o.value))
  bounds : (b.lastKey = [] ∧ b.smallestKey = none ∧ ∀ f ∈ os.newFiles, userKey f.2.largestKey < k) ∨
    ((∃ o ∈ S.getLast?, b.lastKey = o.key) ∧ ∃ sm, b.smallestKey = some sm ∧ 8 ≤ sm.length ∧
      userKey sm ≤ userKey b.lastKey ∧ ∀ f ∈ os.newFiles, userKey f.2.largestKey < userKey sm)
  files : ∀ f ∈ os.newFiles, f.1 = params.targetLevel ∧ f.2.WellFormed
  disjoint : (os.newFiles.map (·.2)).Pairwise Disjoint
  numbers : os.newFiles.map (·.2.number) ++ [os.currentFileNumber] =
    List.range' counter₀ (os.fileNumberCounter - counter₀)
  counter : counter₀ ≤ os.fileNumberCounter ∧ os.fileNumberCounter ≤ params.fileNumberLimit
  keys : ∀ f ∈ os.newFiles, BoundsIn S f.2
  smallest : ∀ sm ∈ b.smallestKey, ∃ o ∈ S, o.key = sm

section Written

variable {ctx : CompactionContext} {io : TableIo} {params : SubCompactionParams} {counter₀ : Nat}
  {S : List Entry} {k u : Bytes} {os os' : OutputState} {b : TableBuilder}

/-- The loop starts with nothing written. -/
theorem Written.init (counter₀ : Nat) : Written params counter₀ [] [] (initialOutputState counter₀) where
  decodes := by simp
  last_written := by simp
  dataEntries := by simp [initialOutputState]
  rangeDelEntries := by simp [initialOutputState]
  builder := by simp [initialOutputState]
  no_builder := by simp [initialOutputState]
  files := by simp [initialOutputState]
  disjoint := by simp [initialOutputState]
  numbers := by simp [initialOutputState]
  counter := by simp [initialOutputState]
  keys := by simp [initialOutputState]
  smallest := by simp [initialOutputState]

/-- The bound on the entries to come may rise. -/
theorem Written.mono (w : Written params counter₀ S k os) (hk : k ≤ u) : Written params counter₀ S u os :=
  { w with
    no_builder := fun hb f hf => lt_of_lt_of_le (w.no_builder hb f hf) hk
    last_written := fun o ho => le_trans (w.last_written o ho) hk }

/-- With no table being built, the locals are an output. -/
theorem Written.output (w : Written params counter₀ S k os) (hb : os.builder = none) :
    Output params counter₀ S os := by
  have hdata := w.dataEntries
  have hrd := w.rangeDelEntries
  have hnumbers := w.numbers
  rw [hb] at hdata hrd hnumbers
  exact ⟨by simpa using hdata, by simpa using hrd, w.files, w.disjoint, by simpa using hnumbers,
    w.counter, w.keys⟩

/-- Finishing the table being built makes an output whose last file ends at the table's last
key. -/
theorem Written.finishTable (w : Written params counter₀ S k os) (hb : os.builder = some b)
    (h : os.finishTable io params b = .ok os') :
    Output params counter₀ S os' ∧ os'.builder = none ∧
      ∀ f ∈ os'.newFiles, userKey f.2.largestKey ≤ userKey b.lastKey := by
  obtain ⟨fileSize, rfl⟩ := OutputState.finishTable_eq_ok h
  obtain ⟨-, ⟨o, ho, hlast⟩, hlargest, -, sm, hsm, hsmlen, hsmle, hfiles⟩ := w.builder b hb
  have hodec : o.Decodes := w.decodes o (List.mem_of_getLast? ho)
  have hdata := w.dataEntries
  have hrd := w.rangeDelEntries
  have hnumbers := w.numbers
  rw [hb] at hdata hrd hnumbers
  refine ⟨⟨?_, ?_, ?_, ?_, ?_, w.counter, ?_⟩, rfl, ?_⟩
  · simpa using hdata
  · simpa using hrd
  · intro f hf
    simp only [hsm, hlargest, Option.getD_some, List.mem_append, List.mem_singleton] at hf
    rcases hf with hf | rfl
    · exact w.files f hf
    · exact ⟨rfl, hsmlen, hlast ▸ hodec.1, hsmle⟩
  · simp only [hsm, hlargest, Option.getD_some, List.map_append, List.map_cons, List.map_nil]
    refine List.pairwise_append.mpr ⟨w.disjoint, List.pairwise_singleton _ _, ?_⟩
    intro f hf f' hf'
    rw [List.mem_singleton.mp hf']
    obtain ⟨f₀, hf₀, rfl⟩ := List.mem_map.mp hf
    exact hfiles f₀ hf₀
  · simpa using hnumbers
  · intro f hf
    simp only [hsm, hlargest, Option.getD_some, List.mem_append, List.mem_singleton] at hf
    rcases hf with hf | rfl
    · exact w.keys f hf
    · exact ⟨w.smallest b hb sm hsm, o, List.mem_of_getLast? ho, hlast.symm⟩
  · intro f hf
    simp only [hlargest, Option.getD_some, List.mem_append, List.mem_singleton] at hf
    rcases hf with hf | rfl
    · exact le_of_lt (lt_of_lt_of_le (hfiles f hf) hsmle)
    · exact le_rfl

/-- An output is written, with the files ending below `k`. -/
theorem Output.written (w : Output params counter₀ S os) (hb : os.builder = none)
    (hdec : ∀ o ∈ S, o.Decodes) (hlast : ∀ o ∈ S.getLast?, o.userKey ≤ k)
    (hfiles : ∀ f ∈ os.newFiles, userKey f.2.largestKey < k) : Written params counter₀ S k os where
  decodes := hdec
  last_written := hlast
  dataEntries := by simpa [hb] using w.dataEntries
  rangeDelEntries := by simpa [hb] using w.rangeDelEntries
  builder := by simp [hb]
  no_builder _ := hfiles
  files := w.files
  disjoint := w.disjoint
  numbers := by simpa [hb] using w.numbers
  counter := w.counter
  keys := w.keys
  smallest := by simp [hb]

/-- The cut at an entry of user key `u`: a table is finished only where the user key changes,
so it ends below `u`. -/
theorem Written.cut (w : Written params counter₀ S k os) (hk : k ≤ u)
    (h : os.cutIfPending io params u = .ok os') : Written params counter₀ S u os' := by
  rcases OutputState.cutIfPending_eq_ok h with ⟨rfl, -⟩ | ⟨b, os₁, hb, hne, hfin, rfl⟩
  · exact w.mono hk
  obtain ⟨hout, hb₁, hfiles⟩ := w.finishTable hb hfin
  obtain ⟨-, ⟨o, ho, hlast⟩, -, hcur, -⟩ := w.builder b hb
  -- the table's last user key is at most `k`, and it is not `u`
  have hlt : userKey b.lastKey < u := by
    have hle : userKey b.lastKey ≤ u := by
      rw [hlast]
      exact le_trans (w.last_written o ho) hk
    exact lt_of_le_of_ne hle fun heq => hne (heq ▸ hcur.symm)
  -- the sizes reset by the cut are no part of the output
  have hout' : Output params counter₀ S { os₁ with currentSize := 0, pendingCut := false } :=
    ⟨hout.dataEntries, hout.rangeDelEntries, hout.files, hout.disjoint, hout.numbers, hout.counter,
      hout.keys⟩
  exact hout'.written hb₁ w.decodes (fun o ho => le_trans (w.last_written o ho) hk)
    fun f hf => lt_of_le_of_lt (hfiles f hf) hlt

/-- The table to write to: the one being built, or a new one numbered by the counter. -/
theorem Written.openTable (w : Written params counter₀ S k os)
    (h : os.openTable io params = .ok (os', b)) : Opened params counter₀ S k os' b := by
  rcases OutputState.openTable_eq_ok h with ⟨hb, hos⟩ | ⟨hb, hlimit, rfl, rfl⟩
  · rw [hos]
    obtain ⟨hopts, hlast, -, -, hsm⟩ := w.builder b hb
    have hdata := w.dataEntries
    have hrd := w.rangeDelEntries
    have hnumbers := w.numbers
    rw [hb] at hdata hrd hnumbers
    -- the table being built has a number, so the counter has moved
    have hcount : counter₀ < os.fileNumberCounter := by
      have hlen := congrArg List.length hnumbers
      simp only [List.length_append, List.length_map, Option.map_some, Option.toList_some,
        List.length_singleton, List.length_range'] at hlen
      omega
    exact ⟨w.decodes, w.last_written, hb, hopts, hdata, hrd, .inr ⟨hlast, hsm⟩, w.files, w.disjoint,
      hnumbers, ⟨w.counter.1, w.counter.2 hcount⟩, w.keys, w.smallest b hb⟩
  · have hdata := w.dataEntries
    have hrd := w.rangeDelEntries
    have hnumbers := w.numbers
    have hcount := w.counter.1
    rw [hb] at hdata hrd hnumbers
    simp only [Option.map_none, Option.toList_none, List.append_nil] at hnumbers
    refine ⟨w.decodes, w.last_written, rfl, rfl, by simpa [TableBuilder.new] using hdata,
      by simpa [TableBuilder.new] using hrd, .inl ⟨rfl, rfl, w.no_builder hb⟩, w.files, w.disjoint,
      ?_, ?_, w.keys, by simp [TableBuilder.new]⟩
    · -- the new table takes the next number
      dsimp only
      rw [hnumbers, Nat.sub_add_comm hcount, List.range'_concat, Nat.one_mul, Nat.add_sub_cancel' hcount]
    · dsimp only
      omega

/-- Writing a decoded survivor at or above `k` to the opened table. -/
theorem Opened.write (hmode : params.buildOpts.internalKeys = true)
    (w : Opened params counter₀ S k os b) {o : Entry} (hod : o.Decodes) (hk : k ≤ o.userKey)
    (h : os.write ctx io b o.key o.value o.userKey = some (.ok os')) :
    Written params counter₀ (S ++ [o]) o.userKey os' := by
  obtain ⟨b', hadd, hb', hcur, hnew, htables, hcounter, hnum⟩ := OutputState.write_eq_ok h
  obtain ⟨hopts, hlastKey, hlargest, hsmallest, hdata, hrd⟩ :=
    TableBuilder.add_entry (w.options ▸ hmode) hod hadd
  have hlast : (S ++ [o]).getLast? = some o := List.getLast?_concat
  refine ⟨?_, ?_, ?_, ?_, ?_, ?_, ?_, ?_, ?_, ?_, ?_, ?_⟩
  · intro o' ho'
    rcases List.mem_append.mp ho' with ho' | ho'
    · exact w.decodes o' ho'
    · rw [List.mem_singleton.mp ho']
      exact hod
  · rw [hlast]
    simp
  · rw [htables, hb', Option.map_some, Option.getD_some, hdata, ← List.append_assoc, w.dataEntries]
    simp
  · rw [htables, hb', Option.map_some, Option.getD_some, hrd, ← List.append_assoc,
      w.rangeDelEntries]
    simp
  · intro b'' hb''
    rw [hb', Option.mem_some_iff] at hb''
    subst hb''
    refine ⟨hopts.trans w.options, ⟨o, hlast, hlastKey⟩, by rw [hlargest, hlastKey], by
      rw [hcur, hlastKey]; rfl, ?_⟩
    rw [hnew, hlastKey, hsmallest]
    rcases w.bounds with ⟨-, hnone, hfiles⟩ | ⟨⟨o', ho', hlast'⟩, sm, hsm, hsmlen, hsmle, hfiles⟩
    · -- a new table starts at this key
      rw [hnone]
      exact ⟨o.key, rfl, hod.1, le_rfl, fun f hf => lt_of_lt_of_le (hfiles f hf) hk⟩
    · -- the table being built keeps its first key
      rw [hsm]
      refine ⟨sm, rfl, hsmlen, ?_, hfiles⟩
      calc userKey sm ≤ userKey b.lastKey := hsmle
        _ = o'.userKey := by rw [hlast']; rfl
        _ ≤ k := w.last_written o' ho'
        _ ≤ o.userKey := hk
  · intro hnone
    rw [hb'] at hnone
    cases hnone
  · rw [hnew]
    exact w.files
  · rw [hnew]
    exact w.disjoint
  · rw [hnew, hb', hcounter, hnum, Option.map_some, Option.toList_some]
    exact w.numbers
  · rw [hcounter]
    exact ⟨w.counter.1, fun _ => w.counter.2⟩
  · rw [hnew]
    exact fun f hf => (w.keys f hf).mono (List.subset_append_left S [o])
  · intro b'' hb'' sm hsm
    rw [hb', Option.mem_some_iff] at hb''
    subst hb''
    rw [hsmallest] at hsm
    -- the table keeps its first key, or starts at this one
    cases hb₀ : b.smallestKey with
    | some sm₀ =>
      rw [hb₀, Option.some_or, Option.mem_some_iff] at hsm
      obtain ⟨o', ho', hkey⟩ := w.smallest sm₀ hb₀
      exact ⟨o', List.mem_append_left _ ho', hkey.trans hsm⟩
    | none =>
      rw [hb₀, Option.none_or, Option.mem_some_iff] at hsm
      exact ⟨o, List.mem_append_right _ (List.mem_singleton_self o), hsm⟩

/-- The write of a decoded survivor that sorts after every key of the table does not panic. -/
theorem Opened.write_ne_none (hmode : params.buildOpts.internalKeys = true)
    (w : Opened params counter₀ S k os b) {o : Entry} (hod : o.Decodes)
    (hlt : ∀ o' ∈ S.getLast?, compareInternalKey o'.key o.key = .lt) :
    os.write ctx io b o.key o.value u ≠ none := by
  intro h
  have hcheck := TableBuilder.checkKey_eq_none_of_add (OutputState.add_eq_none_of_write h)
  obtain ⟨hne, hngt⟩ := TableBuilder.checkKey_eq_none (w.options ▸ hmode)
    (Entry.decodeInternalKey_eq hod) hcheck
  rcases w.bounds with ⟨hnil, -⟩ | ⟨⟨o', ho', hlast'⟩, -⟩
  · exact hne hnil
  · rw [hlast'] at hngt
    exact hngt (Std.OrientedCmp.gt_iff_lt.mpr (hlt o' ho'))

end Written

/-! ## The run of the loop -/

/-- The upper-bound test of the loop fails exactly below the bound. -/
theorem upperBound_any_eq_false {sub : SubCompactionTask} {u : Bytes} :
    (sub.upperBound.any fun hi => decide (hi ≤ u)) = false ↔ ∀ hi ∈ sub.upperBound, u < hi := by
  cases sub.upperBound <;> simp

section Run

variable {ctx : CompactionContext} {io : TableIo} {sub : SubCompactionTask}
  {params : SubCompactionParams} {counter₀ : Nat} {ks₀ : KeepState} {pre : List Entry} {k : Bytes}
  {os : OutputState} {e : Entry}

/-- An iteration that goes on took the entry below the upper bound and wrote what it kept. -/
theorem Written.step (hmode : params.buildOpts.internalKeys = true)
    (w : Written params counter₀ (survivors ctx params ks₀ pre).2 k os) (hk : k ≤ e.userKey)
    {ks' : KeepState} {os' : OutputState}
    (h : mergeStep ctx io sub params (survivors ctx params ks₀ pre).1 os e = some (.next ks' os')) :
    e.Decodes ∧ (∀ hi ∈ sub.upperBound, e.userKey < hi) ∧
      ks' = (survivors ctx params ks₀ (pre ++ [e])).1 ∧
      Written params counter₀ (survivors ctx params ks₀ (pre ++ [e])).2 e.userKey os' := by
  obtain ⟨he, hbelow, rfl, os₁, hcut, hwrite⟩ := mergeStep_eq_next h
  have w₁ := w.cut hk hcut
  refine ⟨he, upperBound_any_eq_false.mp hbelow, by rw [survivors_concat], ?_⟩
  rw [survivors_concat]
  rcases hwrite with ⟨hnone, rfl⟩ | ⟨o, os₂, b, hkeep, hopen, hwrite⟩
  · rw [hnone, Option.toList_none, List.append_nil]
    exact w₁
  · -- the survivor has the entry's user key
    obtain ⟨hod, hou, -, -⟩ := Entry.decodes_of_outputKey he (keepStep_eq_some hkeep).2
    rw [hkeep, Option.toList_some, ← hou]
    rw [← hou] at hwrite
    exact (w₁.openTable hopen).write hmode hod (le_of_eq hou.symm) hwrite

/-- An iteration over a stream in internal-key order does not panic: the key it writes sorts after
the last key of the table. -/
theorem mergeStep_ne_none (hmode : params.buildOpts.internalKeys = true)
    (hold : ∀ t ∈ ctx.activeSnapshots, params.oldestSnapshotSeq ≤ t)
    (hidx : ks₀.snapshotIdx ≤ ctx.activeSnapshots.length) (hsorted : (pre ++ [e]).Pairwise Entry.le)
    (w : Written params counter₀ (survivors ctx params ks₀ pre).2 k os) (hpre : ∀ p ∈ pre, p.Decodes)
    (hk : k ≤ e.userKey) : mergeStep ctx io sub params (survivors ctx params ks₀ pre).1 os e ≠ none := by
  intro h
  obtain ⟨he, os₁, o, os₂, b, hcut, hkeep, hopen, hwrite⟩ := mergeStep_eq_none h
  have hs : SortedStream ctx params (pre ++ [e]) := by
    refine ⟨fun p hp => ?_, hsorted, hold⟩
    rcases List.mem_append.mp hp with hp | hp
    · exact hpre p hp
    · rw [List.mem_singleton.mp hp]
      exact he
  -- the survivors of `pre ++ [e]` increase, and `o` is the last of them
  have hinc := survivors_increasing hs hidx
  rw [survivors_concat, hkeep, Option.toList_some] at hinc
  have hod := (Entry.decodes_of_outputKey he (keepStep_eq_some hkeep).2).1
  refine ((w.cut hk hcut).openTable hopen).write_ne_none hmode hod (fun o' ho' => ?_) hwrite
  exact (List.pairwise_append.mp hinc).2.2 o' (List.mem_of_getLast? ho') o (List.mem_singleton_self o)

/-- **The run of the loop**: over a stream in internal-key order, the loop does not panic, and
when it ends without an error it has taken the entries up to the upper bound and written exactly
their survivors. By induction on the entries still to come, from any point with the entries taken
so far decoded, below the bound, and written. -/
theorem mergeLoop_written (hmode : params.buildOpts.internalKeys = true)
    (hold : ∀ t ∈ ctx.activeSnapshots, params.oldestSnapshotSeq ≤ t)
    (hidx : ks₀.snapshotIdx ≤ ctx.activeSnapshots.length) (rest : List Entry) :
    ∀ {pre : List Entry} {k : Bytes} {os : OutputState}, (pre ++ rest).Pairwise Entry.le →
      (∀ p ∈ pre, p.Decodes) → (∀ p ∈ pre, ∀ hi ∈ sub.upperBound, p.userKey < hi) →
      Written params counter₀ (survivors ctx params ks₀ pre).2 k os →
      (∀ e ∈ rest.head?, e.Decodes → k ≤ e.userKey) →
      ∃ r, mergeLoop ctx io sub params (survivors ctx params ks₀ pre).1 os rest = some r ∧
        ∀ os', r = .ok os' → ∃ taken left k', pre ++ rest = taken ++ left ∧
          (∀ p ∈ taken, p.Decodes) ∧ (∀ p ∈ taken, ∀ hi ∈ sub.upperBound, p.userKey < hi) ∧
          (∀ e ∈ left.head?, ∃ hi ∈ sub.upperBound, hi ≤ e.userKey) ∧
          Written params counter₀ (survivors ctx params ks₀ taken).2 k' os' := by
  induction rest with
  | nil =>
    intro pre k os _ hdec hbelow w _
    refine ⟨_, rfl, fun os' hos' => ?_⟩
    cases hos'
    exact ⟨pre, [], k, rfl, hdec, hbelow, by simp, w⟩
  | cons e rest ih =>
    intro pre k os hsorted hdec hbelow w hk
    unfold mergeLoop
    have hsorted' : (pre ++ [e]).Pairwise Entry.le :=
      hsorted.sublist (by simp)
    cases hstep : mergeStep ctx io sub params (survivors ctx params ks₀ pre).1 os e with
    | none =>
      -- the loop never panics
      have he : e.Decodes := (mergeStep_eq_none hstep).1
      exact absurd hstep (mergeStep_ne_none hmode hold hidx hsorted' w hdec (hk e rfl he))
    | some step =>
      cases step with
      | stop =>
        -- the `break` at the upper bound: the entry is left, at or above the bound
        refine ⟨_, rfl, fun os' hos' => ?_⟩
        cases hos'
        refine ⟨pre, e :: rest, k, rfl, hdec, hbelow, fun e' he' => ?_, w⟩
        rw [List.head?_cons, Option.mem_some_iff] at he'
        subst he'
        exact mergeStep_eq_stop hstep
      | fail err =>
        exact ⟨_, rfl, fun os' hos' => by cases hos'⟩
      | next ks' os' =>
        have he : e.Decodes := (mergeStep_eq_next hstep).1
        obtain ⟨-, hlt, rfl, w'⟩ := w.step hmode (hk e rfl he) hstep
        -- the next entry is at or above this one
        have hk' : ∀ e' ∈ rest.head?, e'.Decodes → e.userKey ≤ e'.userKey := by
          intro e' he' hd'
          have hpair : Entry.le e e' := by
            have hcons := (List.pairwise_append.mp hsorted).2.1
            obtain ⟨tl, rfl⟩ := List.head?_eq_some_iff.mp he'
            exact (List.pairwise_cons.mp hcons).1 e' List.mem_cons_self
          exact Entry.userKey_le_of_le he hd' hpair
        have hdec' : ∀ p ∈ pre ++ [e], p.Decodes := by
          intro p hp
          rcases List.mem_append.mp hp with hp | hp
          · exact hdec p hp
          · rw [List.mem_singleton.mp hp]
            exact he
        have hbelow' : ∀ p ∈ pre ++ [e], ∀ hi ∈ sub.upperBound, p.userKey < hi := by
          intro p hp
          rcases List.mem_append.mp hp with hp | hp
          · exact hbelow p hp
          · rw [List.mem_singleton.mp hp]
            exact hlt
        exact ih (by simpa using hsorted) hdec' hbelow' w' hk'
          |>.imp fun r ⟨hr, hout⟩ => ⟨hr, fun os'' hos'' => by simpa using hout os'' hos''⟩

end Run

/-! ## The sub-compaction -/

/-- The merged stream the loop reads is in internal-key order, past the lower bound too. -/
theorem SubCompactionTask.merger_sorted (sub : SubCompactionTask) (params : SubCompactionParams) :
    (sub.merger params).future.Pairwise Entry.le := by
  unfold SubCompactionTask.merger
  split
  · -- the seek drops a prefix of the merged stream
    simp only [MergingIterator.seek, MergingIterator.seekTo, MergingIterator.splitAt,
      MergingIterator.entries, MergingIterator.new, List.reverse_nil, List.nil_append]
    exact (MergingIterator.pairwise_new _).sublist (List.dropWhile_suffix _).sublist
  · exact MergingIterator.pairwise_new _

section Execute

variable {ctx : CompactionContext} {io : TableIo} {sub : SubCompactionTask}
  {params : SubCompactionParams}

/-- `execute_sub_compaction_io` does not panic, and when it succeeds it has taken the merged
stream up to the upper bound and written exactly the survivors of what it took into finished
tables, whose files form a run numbered from the counter. -/
theorem executeSubCompactionIo_output (hmode : params.buildOpts.internalKeys = true)
    (hold : ∀ t ∈ ctx.activeSnapshots, params.oldestSnapshotSeq ≤ t) (counter : Nat) :
    executeSubCompactionIo ctx io sub params counter ≠ none ∧
      ∀ os, executeSubCompactionIo ctx io sub params counter = some (.ok os) →
        ∃ taken left, (sub.merger params).future = taken ++ left ∧ (∀ p ∈ taken, p.Decodes) ∧
          (∀ p ∈ taken, ∀ hi ∈ sub.upperBound, p.userKey < hi) ∧
          (∀ e ∈ left.head?, ∃ hi ∈ sub.upperBound, hi ≤ e.userKey) ∧
          Output params counter (survivors ctx params (initialKeepState ctx sub params) taken).2 os := by
  obtain ⟨r, hr, hout⟩ := @mergeLoop_written ctx io sub params counter (initialKeepState ctx sub params)
    hmode hold le_rfl (sub.merger params).future [] [] (initialOutputState counter)
    (by simpa using sub.merger_sorted params) (by simp) (by simp) (Written.init counter)
    fun e _ _ => List.nil_le _
  rw [survivors_nil] at hr
  refine ⟨by unfold executeSubCompactionIo; rw [hr]; exact Option.some_ne_none _, fun os h => ?_⟩
  unfold executeSubCompactionIo at h
  rw [hr, Option.map_some, Option.some.injEq] at h
  cases r with
  | error err => cases h
  | ok os₁ =>
    obtain ⟨taken, left, k, hsplit, hdec, hbelow, hleft, w⟩ := hout os₁ rfl
    refine ⟨taken, left, by simpa using hsplit, hdec, hbelow, hleft, ?_⟩
    -- the table left open is finished, then the merger's error is checked
    cases hb : os₁.builder with
    | none =>
      cases hmerge : sub.mergeError with
      | some err => simp [hb, hmerge] at h
      | none =>
        simp [hb, hmerge] at h
        subst h
        exact w.output hb
    | some b =>
      cases hfin : os₁.finishTable io params b with
      | error err =>
        simp [hb, hfin] at h
        cases h
      | ok os₂ =>
        cases hmerge : sub.mergeError with
        | some err => simp [hb, hfin, hmerge] at h
        | none =>
          simp [hb, hfin, hmerge] at h
          subst h
          exact (w.finishTable hb hfin).1

/-- **A sub-compaction never panics**: over any input tables and bounds, with the table builder in
`internal_keys` mode, as the compaction sets it, and the oldest snapshot at or below every active
snapshot, the order assertion of `TableBuilder::add` holds for every key the loop writes. -/
theorem executeSubCompactionIo_ne_none (hmode : params.buildOpts.internalKeys = true)
    (hold : ∀ t ∈ ctx.activeSnapshots, params.oldestSnapshotSeq ≤ t) (counter : Nat) :
    executeSubCompactionIo ctx io sub params counter ≠ none :=
  (executeSubCompactionIo_output hmode hold counter).1

/-- The input the theorems are applied to below: one table holding two versions of the user key
`a`, both seen by the snapshot 2, and a value of `b`, the upper bound of the range; a builder that
accepts every key and reports a size of 100. -/
def sampleTask : SubCompactionTask :=
  ⟨none, some [98], [⟨⟨3, 0, [], [], false⟩, [((InternalKey.new [97] 3 .value).asBytes, [120]),
    ((InternalKey.new [97] 2 .value).asBytes, [121]),
    ((InternalKey.new [98] 1 .value).asBytes, [122])], none⟩], []⟩

def sampleIo : TableIo := ⟨fun _ => .ok (), fun _ _ _ => .ok (), fun _ => 0, fun _ => .ok 100⟩

def sampleParams : SubCompactionParams := ⟨1, false, ⟨10, 0, true⟩, 2, 20, [], []⟩

theorem executeSubCompactionIo_ne_none_two_versions :
    executeSubCompactionIo ⟨[2], none, 64⟩ sampleIo sampleTask sampleParams 7 ≠ none :=
  @executeSubCompactionIo_ne_none ⟨[2], none, 64⟩ sampleIo sampleTask sampleParams rfl (by decide) 7

/-- **The files of a sub-compaction form a sorted run**: when it succeeds, every file it records
is at the target level and well formed, the user-key range of each ends below the start of the
next, and they are numbered consecutively from the counter, all below the reserved limit. -/
theorem executeSubCompactionIo_files (hmode : params.buildOpts.internalKeys = true)
    (hold : ∀ t ∈ ctx.activeSnapshots, params.oldestSnapshotSeq ≤ t) {counter : Nat}
    {os : OutputState} (h : executeSubCompactionIo ctx io sub params counter = some (.ok os)) :
    (∀ f ∈ os.newFiles, f.1 = params.targetLevel ∧ f.2.WellFormed) ∧
      (os.newFiles.map (·.2)).Pairwise Disjoint ∧
      os.newFiles.map (·.2.number) = List.range' counter os.newFiles.length ∧
      ∀ f ∈ os.newFiles, f.2.number < params.fileNumberLimit := by
  obtain ⟨taken, -, -, -, -, -, hout⟩ := (executeSubCompactionIo_output hmode hold counter).2 os h
  have hlen : os.newFiles.length = os.fileNumberCounter - counter := by
    simpa using congrArg List.length hout.numbers
  refine ⟨hout.files, hout.disjoint, hlen ▸ hout.numbers, fun f hf => ?_⟩
  -- a file's number was drawn from the counter, which stays within the limit
  have hmem : f.2.number ∈ List.range' counter (os.fileNumberCounter - counter) := by
    rw [← hout.numbers]
    exact List.mem_map_of_mem hf
  rw [List.mem_range'_1] at hmem
  have hlimit := hout.counter.2 (by omega)
  omega

theorem executeSubCompactionIo_files_one_file :
    ∃ os, executeSubCompactionIo ⟨[2], none, 64⟩ sampleIo sampleTask sampleParams 7 = some (.ok os) ∧
      os.newFiles.map (·.2.number) = [7] ∧
      (∀ f ∈ os.newFiles, f.1 = 1 ∧ f.2.WellFormed) ∧ (os.newFiles.map (·.2)).Pairwise Disjoint ∧
      os.newFiles.map (·.2.number) = List.range' 7 os.newFiles.length ∧
      ∀ f ∈ os.newFiles, f.2.number < 20 :=
  ⟨_, rfl, rfl, @executeSubCompactionIo_files ⟨[2], none, 64⟩ sampleIo sampleTask sampleParams rfl
    (by decide) 7 _ rfl⟩

/-- **A sub-compaction writes exactly the survivors**: when it succeeds, the merged stream splits
into the entries it took, all below the upper bound, and the rest, which is empty or starts at or
above it; the data blocks of the tables hold, in order, the point entries that the choice of what
to keep writes for the entries taken, and the range-deletion blocks its range deletions. -/
theorem executeSubCompactionIo_tables (hmode : params.buildOpts.internalKeys = true)
    (hold : ∀ t ∈ ctx.activeSnapshots, params.oldestSnapshotSeq ≤ t) {counter : Nat}
    {os : OutputState} (h : executeSubCompactionIo ctx io sub params counter = some (.ok os)) :
    ∃ taken left, (sub.merger params).future = taken ++ left ∧
      (∀ p ∈ taken, ∀ hi ∈ sub.upperBound, p.userKey < hi) ∧
      (∀ e ∈ left.head?, ∃ hi ∈ sub.upperBound, hi ≤ e.userKey) ∧
      os.tables.flatMap (·.dataEntries) =
        (((survivors ctx params (initialKeepState ctx sub params) taken).2.filter
          fun o => o.valueType != .rangeDeletion).map fun o => (o.key, o.value)) ∧
      os.tables.flatMap (·.rangeDelEntries) =
        (((survivors ctx params (initialKeepState ctx sub params) taken).2.filter
          fun o => o.valueType == .rangeDeletion).map fun o => (o.key, o.value)) := by
  obtain ⟨taken, left, hsplit, -, hbelow, hleft, hout⟩ :=
    (executeSubCompactionIo_output hmode hold counter).2 os h
  exact ⟨taken, left, hsplit, hbelow, hleft, hout.dataEntries, hout.rangeDelEntries⟩

theorem executeSubCompactionIo_tables_two_versions :
    ∃ os, executeSubCompactionIo ⟨[2], none, 64⟩ sampleIo sampleTask sampleParams 7 = some (.ok os) ∧
      os.tables.flatMap (·.dataEntries) = [((InternalKey.new [97] 3 .value).asBytes, [120]),
          ((InternalKey.new [97] 2 .value).asBytes, [121])] ∧
      ∃ taken left, (sampleTask.merger sampleParams).future = taken ++ left ∧
        (∀ p ∈ taken, ∀ hi ∈ some [98], p.userKey < hi) ∧
        (∀ e ∈ left.head?, ∃ hi ∈ some [98], hi ≤ e.userKey) ∧
        os.tables.flatMap (·.dataEntries) =
          (((survivors ⟨[2], none, 64⟩ sampleParams
            (initialKeepState ⟨[2], none, 64⟩ sampleTask sampleParams) taken).2.filter
              fun o => o.valueType != .rangeDeletion).map fun o => (o.key, o.value)) ∧
        os.tables.flatMap (·.rangeDelEntries) =
          (((survivors ⟨[2], none, 64⟩ sampleParams
            (initialKeepState ⟨[2], none, 64⟩ sampleTask sampleParams) taken).2.filter
              fun o => o.valueType == .rangeDeletion).map fun o => (o.key, o.value)) :=
  ⟨_, rfl, rfl, @executeSubCompactionIo_tables ⟨[2], none, 64⟩ sampleIo sampleTask sampleParams rfl
    (by decide) 7 _ rfl⟩

end Execute

end Mmdb
