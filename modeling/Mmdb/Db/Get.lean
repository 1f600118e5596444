import Mathlib
import Mmdb.Memtable.MemTable

/-!
# Point reads from the memtables

The first three steps of `DB::get_with_options` of `src/db.rs`, which read the memtables before
any SST file: `DB::max_covering_tombstone_seq` takes the newest range deletion visible at the read
sequence that covers the key, across the active memtable and the immutable ones; then the active
memtable and the immutable ones, newest first, are asked `get_with_seq`, and the first entry found
answers, unless the covering range deletion is newer than it. With no entry found, a covering
range deletion answers that the key is deleted; otherwise the read goes on to the SST files with
that sequence (`MemtableRead.sstFiles`).

**The memtable read is the newest visible version** (`getFromMemtables_eq`): over memtables built
by any runs of puts, newer memtables holding newer sequences and every sequence distinct and
positive, the read answers from the newest value or deletion of the key at or below the read
sequence, as a deletion when a visible range deletion covering the key is newer, and goes on to
the SST files exactly when neither a version nor a covering range deletion is there
(`memtableAnswer`). `MemTable::get_with_seq` alone steps over a range deletion of the key at the
read sequence (`MemTable.getWithSeq_of_rangeDeletion`); the covering sequence taken first is what
makes the read right.

Left out: the statistics the read records.
-/

namespace Mmdb.Db

open MemTable

/-- Where the memtable steps of `get_with_options` leave a read: an answer, or on to the SST
files with the covering range deletion sequence found so far. -/
inductive MemtableRead where
  | answer (value : Option Bytes)
  | sstFiles (maxTombSeq : SequenceNumber)
  deriving DecidableEq, Repr

/-- The `if s > max_seq { max_seq = s }` of `DB::max_covering_tombstone_seq`. -/
def raiseTo (maxSeq s : SequenceNumber) : SequenceNumber := if s > maxSeq then s else maxSeq

/-- `DB::max_covering_tombstone_seq`: over the active memtable, then the immutable ones. -/
def maxCoveringTombstoneSeq (key : Bytes) (seq : SequenceNumber) (activeMem : MemTableState)
    (immMems : List MemTableState) : SequenceNumber :=
  immMems.foldl (fun maxSeq imm => raiseTo maxSeq (imm.maxCoveringTombstoneSeq key seq))
    (raiseTo 0 (activeMem.maxCoveringTombstoneSeq key seq))

/-- Steps 1 and 2 of `get_with_options`: the first memtable in the list whose lookup finds an
entry of the key. -/
def firstHit (key : Bytes) (seq : SequenceNumber) :
    List MemTableState → Option (Option Bytes × SequenceNumber)
  | [] => none
  | m :: ms =>
    match m.getWithSeq key seq with
    | some hit => some hit
    | none => firstHit key seq ms

/-- Steps 1 to 3 of `DB::get_with_options`, at the read sequence `seq`. -/
def getFromMemtables (key : Bytes) (seq : SequenceNumber) (activeMem : MemTableState)
    (immMems : List MemTableState) : MemtableRead :=
  let maxTombSeq := maxCoveringTombstoneSeq key seq activeMem immMems
  match firstHit key seq (activeMem :: immMems) with
  | some (result, entrySeq) => if maxTombSeq > entrySeq then .answer none else .answer result
  | none => if maxTombSeq > 0 then .answer none else .sstFiles maxTombSeq

/-! ## What the memtables hold for a key -/

/-- The newest stored value or deletion of `u` at or below `s`. -/
def newestPoint (calls : List PutCall) (u : Bytes) (s : SequenceNumber) : Option PutCall :=
  (calls.filter fun c => c.stored && decide (c.key = u) && c.valueType != .rangeDeletion &&
    decide (c.sequence ≤ s)).argmax (·.sequence)

/-- Whether a stored range deletion covering `u`, visible at `s`, is newer than `x`. -/
def coveredAfter (calls : List PutCall) (u : Bytes) (s x : SequenceNumber) : Bool :=
  calls.any fun c => c.stored && c.valueType == .rangeDeletion && decide (c.key ≤ u) &&
    decide (u < c.value) && decide (c.sequence ≤ s) && decide (x < c.sequence)

/-- What a read of `u` at `s` should find in the memtables: the newest value or deletion, a
deletion when a newer visible range deletion covers `u`, and with no version a deletion if a
visible range deletion covers `u`, else the SST files. -/
def memtableAnswer (calls : List PutCall) (u : Bytes) (s : SequenceNumber) : MemtableRead :=
  match newestPoint calls u s with
  | some p => if coveredAfter calls u s p.sequence then .answer none else .answer p.answer.1
  | none => if coveredAfter calls u s 0 then .answer none else .sstFiles 0

/-! ## Trailers against sequences

The lookup orders the versions of a key by trailer, the answer by sequence: under the eight bits
of the type the two orders agree, and the trailer of `(s, Value)` admits the values and deletions
at or below `s` and the range deletions below it. -/

theorem packSequenceAndType_le_value_iff (seq s : Nat) (vt : ValueType) :
    packSequenceAndType seq vt ≤ packSequenceAndType s .value ↔
      seq < s ∨ seq = s ∧ vt ≠ .rangeDeletion := by
  show seq * 256 + vt.toU8.toNat ≤ s * 256 + 1 ↔ _
  cases vt
  · have h0 : ValueType.deletion.toU8.toNat = 0 := rfl
    simp only [h0, ne_eq, reduceCtorEq, not_false_eq_true, and_true]
    constructor <;> intro h <;> omega
  · have h1 : ValueType.value.toU8.toNat = 1 := rfl
    simp only [h1, ne_eq, reduceCtorEq, not_false_eq_true, and_true]
    constructor <;> intro h <;> omega
  · have h2 : ValueType.rangeDeletion.toU8.toNat = 2 := rfl
    simp only [h2, ne_eq, not_true_eq_false, and_false, or_false]
    constructor <;> intro h <;> omega

theorem le_of_packSequenceAndType_le {a b : Nat} {vt vt' : ValueType}
    (h : packSequenceAndType a vt ≤ packSequenceAndType b vt') : a ≤ b := by
  have hvt := vt'.toNat_toU8_le
  change a * 256 + vt.toU8.toNat ≤ b * 256 + vt'.toU8.toNat at h
  omega

theorem packSequenceAndType_lt_of_lt {a b : Nat} (h : a < b) (vt vt' : ValueType) :
    packSequenceAndType a vt < packSequenceAndType b vt' := by
  have hvt := vt.toNat_toU8_le
  show a * 256 + vt.toU8.toNat < b * 256 + vt'.toU8.toNat
  omega

/-- Calls of distinct sequences have distinct trailers. -/
theorem trailer_injOn {calls : List PutCall} (hseqs : (calls.map (·.sequence)).Nodup) :
    ∀ a ∈ calls, ∀ b ∈ calls, a.trailer = b.trailer → a = b := by
  intro a ha b hb h
  have hab : a.sequence = b.sequence :=
    le_antisymm (le_of_packSequenceAndType_le h.le) (le_of_packSequenceAndType_le h.ge)
  exact List.inj_on_of_nodup_map hseqs ha hb hab

theorem mem_versionsAt {calls : List PutCall} {u : Bytes} {s : SequenceNumber} {c : PutCall} :
    c ∈ versionsAt calls u s ↔
      c ∈ calls ∧ c.stored = true ∧ c.key = u ∧ c.trailer ≤ packSequenceAndType s .value := by
  simp [versionsAt, and_assoc]

/-! ## One memtable, then the list of them -/

/-- The lookup of one memtable over a run of puts of distinct sequences. -/
theorem getWithSeq_putAll_of_nodup {calls : List PutCall}
    (hseqs : (calls.map (·.sequence)).Nodup)
    (hseq : ∀ c ∈ calls, c.sequence ≤ maxSequenceNumber)
    (hheight : ∀ c ∈ calls, 0 < c.height ∧ c.height ≤ SkipListImpl.maxHeight)
    (u : Bytes) {s : SequenceNumber} (hs : s ≤ maxSequenceNumber) :
    (MemTableState.putAll calls).getWithSeq u s =
      ((versionsAt calls u s).argmax (·.trailer)).map (·.answer) := by
  have hdistinct : ((calls.filter (·.stored)).map fun c => (c.key, c.sequence, c.valueType)).Nodup := by
    refine List.Nodup.of_map (fun t => t.2.1) ?_
    rw [List.map_map]
    exact (List.filter_sublist.map _).nodup hseqs
  rw [MemTableState.getWithSeq, MemTableState.table_putAll]
  exact getWithSeq_putAll hdistinct hseq hheight u hs

theorem versionsAt_append (calls calls' : List PutCall) (u : Bytes) (s : SequenceNumber) :
    versionsAt (calls ++ calls') u s = versionsAt calls u s ++ versionsAt calls' u s :=
  List.filter_append _ _

/-- **The first memtable that finds the key holds its newest version.** Over memtables of distinct
sequences, each newer than the ones after it, the first hit answers from the version with the
largest trailer among all the memtables. -/
theorem firstHit_putAll {Ls : List (List PutCall)}
    (hseqs : (Ls.flatten.map (·.sequence)).Nodup)
    (hseq : ∀ c ∈ Ls.flatten, c.sequence ≤ maxSequenceNumber)
    (hheight : ∀ c ∈ Ls.flatten, 0 < c.height ∧ c.height ≤ SkipListImpl.maxHeight)
    (hnewer : Ls.Pairwise fun newer older => ∀ c ∈ newer, ∀ d ∈ older, d.sequence < c.sequence)
    (u : Bytes) {s : SequenceNumber} (hs : s ≤ maxSequenceNumber) :
    firstHit u s (Ls.map MemTableState.putAll) =
      ((versionsAt Ls.flatten u s).argmax (·.trailer)).map (·.answer) := by
  induction Ls with
  | nil => rfl
  | cons L Ls ih =>
    rw [List.flatten_cons] at hseqs hseq hheight ⊢
    obtain ⟨hLnewer, hrest⟩ := List.pairwise_cons.mp hnewer
    rw [List.map_append] at hseqs
    have hLseqs := hseqs.sublist (List.sublist_append_left _ _)
    have hget := getWithSeq_putAll_of_nodup hLseqs (fun c hc => hseq c (List.mem_append_left _ hc))
      (fun c hc => hheight c (List.mem_append_left _ hc)) u hs
    have ih' := ih (hseqs.sublist (List.sublist_append_right _ _))
      (fun c hc => hseq c (List.mem_append_right _ hc))
      (fun c hc => hheight c (List.mem_append_right _ hc)) hrest
    rw [List.map_cons, firstHit, hget, versionsAt_append]
    cases hmax : (versionsAt L u s).argmax (·.trailer) with
    | none =>
      -- no version in this memtable: the read goes on to the older ones
      rw [List.argmax_eq_none.mp hmax, List.nil_append, ← ih']
      rfl
    | some c =>
      -- this memtable's newest version beats every version of the older memtables
      have hc := List.argmax_mem hmax
      have hcL : c ∈ L := (mem_versionsAt.mp hc).1
      have hinj : ∀ a ∈ versionsAt L u s ++ versionsAt Ls.flatten u s,
          ∀ b ∈ versionsAt L u s ++ versionsAt Ls.flatten u s, a.trailer = b.trailer → a = b := by
        rw [← versionsAt_append]
        intro a ha b hb
        exact trailer_injOn (by rwa [List.map_append]) a (mem_versionsAt.mp ha).1 b
          (mem_versionsAt.mp hb).1
      have hmax' : (versionsAt L u s ++ versionsAt Ls.flatten u s).argmax (·.trailer) = some c := by
        refine (List.argmax_eq_some_iff_of_injOn hinj).mpr ⟨List.mem_append_left _ hc, ?_⟩
        intro a ha
        rcases List.mem_append.mp ha with ha | ha
        · exact List.le_of_mem_argmax ha hmax
        · obtain ⟨older, holder, haolder⟩ := List.mem_flatten.mp (mem_versionsAt.mp ha).1
          exact (packSequenceAndType_lt_of_lt (hLnewer older holder c hcL a haolder) _ _).le
      rw [hmax']
      rfl

/-! ## The covering range deletion -/

theorem raiseTo_eq_max (maxSeq s : SequenceNumber) : raiseTo maxSeq s = max maxSeq s := by
  unfold raiseTo
  split_ifs with h
  · exact (max_eq_right h.le).symm
  · exact (max_eq_left (not_lt.mp h)).symm

theorem lt_foldl_raiseTo_iff {α : Type} (f : α → SequenceNumber) (xs : List α)
    (init x : SequenceNumber) :
    x < xs.foldl (fun maxSeq a => raiseTo maxSeq (f a)) init ↔ x < init ∨ ∃ a ∈ xs, x < f a := by
  induction xs generalizing init with
  | nil => simp
  | cons a xs ih =>
    rw [List.foldl_cons, ih, raiseTo_eq_max, lt_max_iff]
    simp only [List.mem_cons, exists_eq_or_imp]
    tauto

/-- The scan of one memtable built by puts finds a covering range deletion newer than `x` exactly
when one of the puts stored it. -/
theorem lt_maxCoveringTombstoneSeq_putAll_iff (calls : List PutCall) {u : Bytes}
    {s x : SequenceNumber} :
    x < (MemTableState.putAll calls).maxCoveringTombstoneSeq u s ↔ coveredAfter calls u s x := by
  obtain ⟨hlist, hcons⟩ := MemTableState.rangeTombstones_putAll calls
  rw [MemTableState.maxCoveringTombstoneSeq_lt_iff hcons, hlist]
  simp [coveredAfter, PutCall.tombstone, and_assoc]

/-- `DB::max_covering_tombstone_seq` over memtables built by puts: above `x` exactly when some
put of any of them stored a covering range deletion, visible at `s`, newer than `x`. -/
theorem lt_maxCoveringTombstoneSeq_iff (activeCalls : List PutCall)
    (immCalls : List (List PutCall)) {u : Bytes} {s x : SequenceNumber} :
    x < maxCoveringTombstoneSeq u s (MemTableState.putAll activeCalls)
        (immCalls.map MemTableState.putAll) ↔
      coveredAfter (activeCalls :: immCalls).flatten u s x := by
  unfold maxCoveringTombstoneSeq
  rw [List.foldl_map, lt_foldl_raiseTo_iff, raiseTo_eq_max, lt_max_iff,
    or_iff_right (Nat.not_lt_zero x)]
  simp only [lt_maxCoveringTombstoneSeq_putAll_iff, coveredAfter, List.flatten_cons,
    List.any_append, List.any_flatten, Bool.or_eq_true, List.any_eq_true]

/-! ## The read against the versions of the key -/

section Newest

variable {calls : List PutCall} {u : Bytes} {s : SequenceNumber}

theorem mem_newestPoint_filter {p : PutCall} :
    p ∈ calls.filter (fun c => c.stored && decide (c.key = u) && c.valueType != .rangeDeletion &&
        decide (c.sequence ≤ s)) ↔
      p ∈ versionsAt calls u s ∧ p.valueType ≠ .rangeDeletion := by
  have hle := packSequenceAndType_le_value_iff p.sequence s p.valueType
  simp only [List.mem_filter, mem_versionsAt, Bool.and_eq_true, decide_eq_true_eq, bne_iff_ne]
  constructor
  · rintro ⟨hp, ⟨⟨hstored, hpu⟩, hvt⟩, hps⟩
    exact ⟨⟨hp, hstored, hpu, hle.mpr ((Nat.lt_or_eq_of_le hps).imp_right fun h => ⟨h, hvt⟩)⟩, hvt⟩
  · rintro ⟨⟨hp, hstored, hpu, htrailer⟩, hvt⟩
    refine ⟨hp, ⟨⟨hstored, hpu⟩, hvt⟩, ?_⟩
    rcases hle.mp htrailer with h | ⟨h, -⟩
    · exact h.le
    · exact h.le

/-- The newest visible version has the largest sequence among the visible versions. -/
theorem sequence_le_of_argmax {c p : PutCall}
    (hmax : (versionsAt calls u s).argmax (·.trailer) = some c) (hp : p ∈ versionsAt calls u s) :
    p.sequence ≤ c.sequence :=
  le_of_packSequenceAndType_le (List.le_of_mem_argmax (f := fun x : PutCall => x.trailer) hp hmax)

/-- With no version of the key visible, there is no value or deletion of it either. -/
theorem newestPoint_eq_none (h : versionsAt calls u s = []) : newestPoint calls u s = none := by
  refine List.argmax_eq_none.mpr (List.eq_nil_iff_forall_not_mem.mpr fun p hp => ?_)
  have hmem := (mem_newestPoint_filter.mp hp).1
  rw [h] at hmem
  cases hmem

/-- When the newest visible version is a value or a deletion, it is the newest point version. -/
theorem newestPoint_eq_some (hseqs : (calls.map (·.sequence)).Nodup) {c : PutCall}
    (hmax : (versionsAt calls u s).argmax (·.trailer) = some c) (hvt : c.valueType ≠ .rangeDeletion) :
    newestPoint calls u s = some c := by
  have hinj : ∀ a ∈ calls.filter (fun c => c.stored && decide (c.key = u) &&
      c.valueType != .rangeDeletion && decide (c.sequence ≤ s)), ∀ b ∈ calls.filter (fun c =>
      c.stored && decide (c.key = u) && c.valueType != .rangeDeletion && decide (c.sequence ≤ s)),
      a.sequence = b.sequence → a = b := fun a ha b hb =>
    List.inj_on_of_nodup_map hseqs (mem_versionsAt.mp (mem_newestPoint_filter.mp ha).1).1
      (mem_versionsAt.mp (mem_newestPoint_filter.mp hb).1).1
  refine (List.argmax_eq_some_iff_of_injOn hinj).mpr
    ⟨mem_newestPoint_filter.mpr ⟨List.argmax_mem hmax, hvt⟩, fun p hp => ?_⟩
  exact sequence_le_of_argmax hmax (mem_newestPoint_filter.mp hp).1

/-- A stored range deletion of the key, visible at `s`, covers the key after any older `x`. -/
theorem coveredAfter_of_rangeDeletion {c : PutCall} (hc : c ∈ versionsAt calls u s)
    (hvt : c.valueType = .rangeDeletion) {x : SequenceNumber} (hx : x < c.sequence) :
    coveredAfter calls u s x = true := by
  obtain ⟨hcalls, hstored, hcu, htrailer⟩ := mem_versionsAt.mp hc
  -- a stored range deletion is not empty: its end is above its start
  have hend : c.key < c.value := by
    simpa [PutCall.stored, hvt] using hstored
  have hcs : c.sequence < s := by
    simpa [hvt] using (packSequenceAndType_le_value_iff c.sequence s c.valueType).mp htrailer
  refine List.any_eq_true.mpr ⟨c, hcalls, ?_⟩
  simp [hstored, hvt, ← hcu, hend, hcs.le, hx]

end Newest

/-- **The memtable read is the newest visible version.** For an active memtable and immutable ones
built by runs of puts, each newer than the ones after it, with positive distinct sequences up to
`MAX_SEQUENCE_NUMBER` and towers of `1..=MAX_HEIGHT`, the memtable steps of `get_with_options` at
`s` answer what the puts hold for the key: the newest value or deletion at or below `s`, unless a
newer visible range deletion covers the key, and with no such version a deletion if a visible range
deletion covers the key, else a read of the SST files. -/
theorem getFromMemtables_eq {activeCalls : List PutCall} {immCalls : List (List PutCall)}
    (hseqs : ((activeCalls :: immCalls).flatten.map (·.sequence)).Nodup)
    (hseq : ∀ c ∈ (activeCalls :: immCalls).flatten,
      0 < c.sequence ∧ c.sequence ≤ maxSequenceNumber)
    (hheight : ∀ c ∈ (activeCalls :: immCalls).flatten,
      0 < c.height ∧ c.height ≤ SkipListImpl.maxHeight)
    (hnewer : (activeCalls :: immCalls).Pairwise fun newer older =>
      ∀ c ∈ newer, ∀ d ∈ older, d.sequence < c.sequence)
    (u : Bytes) {s : SequenceNumber} (hs : s ≤ maxSequenceNumber) :
    getFromMemtables u s (MemTableState.putAll activeCalls) (immCalls.map MemTableState.putAll) =
      memtableAnswer (activeCalls :: immCalls).flatten u s := by
  have hfirst := firstHit_putAll hseqs (fun c hc => (hseq c hc).2) hheight hnewer u hs
  have hcover := fun x => lt_maxCoveringTombstoneSeq_iff (u := u) (s := s) (x := x) activeCalls
    immCalls
  rw [List.map_cons] at hfirst
  unfold getFromMemtables memtableAnswer
  rw [hfirst]
  cases hmax : (versionsAt (activeCalls :: immCalls).flatten u s).argmax (·.trailer) with
  | none =>
    -- no version: a covering range deletion answers, or the read goes on
    rw [newestPoint_eq_none (List.argmax_eq_none.mp hmax)]
    by_cases hcov : coveredAfter (activeCalls :: immCalls).flatten u s 0 = true
    · simp only [Option.map_none, gt_iff_lt, (hcover 0).mpr hcov, if_true, hcov]
    · have hzero := Nat.eq_zero_of_not_pos (mt (hcover 0).mp hcov)
      simp only [Option.map_none, gt_iff_lt, hzero, lt_irrefl, if_false, hcov,
        Bool.false_eq_true]
  | some c =>
    have hc := List.argmax_mem hmax
    by_cases hvt : c.valueType = .rangeDeletion
    · -- the newest version is a range deletion: the key reads as deleted either way
      have hanswer : c.answer.1 = none := by simp [PutCall.answer, hvt]
      have hcovered : ∀ x < c.sequence,
          coveredAfter (activeCalls :: immCalls).flatten u s x = true :=
        fun x hx => coveredAfter_of_rangeDeletion hc hvt hx
      cases hp : newestPoint (activeCalls :: immCalls).flatten u s with
      | none =>
        rw [if_pos (hcovered 0 (hseq c (mem_versionsAt.mp hc).1).1)]
        simp only [Option.map_some, hanswer, ite_self]
      | some p =>
        -- the newest point version is older than the range deletion
        obtain ⟨hpv, hpvt⟩ := mem_newestPoint_filter.mp (List.argmax_mem hp)
        have hpne : p.sequence ≠ c.sequence := fun h =>
          hpvt (List.inj_on_of_nodup_map hseqs (mem_versionsAt.mp hpv).1
            (mem_versionsAt.mp hc).1 h ▸ hvt)
        dsimp only
        rw [if_pos (hcovered p.sequence (lt_of_le_of_ne (sequence_le_of_argmax hmax hpv) hpne))]
        simp only [Option.map_some, hanswer, ite_self]
    · -- the newest version is a value or a deletion: it answers unless a newer one covers it
      rw [newestPoint_eq_some hseqs hmax hvt]
      simp only [Option.map_some, gt_iff_lt, hcover, PutCall.answer]

/-- A range deletion of `[a, b)` at sequence 3 in the active memtable hides the value of `a` at
sequence 1 in an immutable one from a read at sequence 4. -/
theorem getFromMemtables_covered_by_newer_memtable :
    getFromMemtables [97] 4 (MemTableState.putAll [⟨[97], [98], 3, .rangeDeletion, 1⟩])
      ([[⟨[97], [118], 1, .value, 1⟩]].map MemTableState.putAll) = .answer none := by
  rw [getFromMemtables_eq (by decide) (by decide) (by decide) (by decide) _ (by decide)]
  decide

end Mmdb.Db
