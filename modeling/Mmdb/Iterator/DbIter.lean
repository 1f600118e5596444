import Mmdb.Iterator.Merge

/-!
# The database iterator

`src/iterator/db_iter.rs`. `DBIterator` turns the merged stream of internal entries into the
user's view: for each user key the newest version the read may see, without deletions, range
deleted keys, keys outside the bounds or the prefix, and keys the skip-point callback rejects.

Forward, `next_visible` walks the stream once: the first visible entry of a user key decides it,
and `last_user_key` skips the key's older versions. Backward, `resolve_prev_user_key` walks the
stream in reverse, where a user key's versions come oldest first, so it collects the whole key
before it decides; the first entry of the key before it is kept in `prev_overshoot` for the next
call. A direction change re-seeks the merger.

The range tombstones are the raw `(begin, end, seq, level)` list `FragmentedRangeTombstoneList`
is built from; `maxCoveringTombstoneSeqForLevel` answers what its index answers. The interval
tree is not modelled, nor the `TrySeekUsingNext` bookkeeping (`last_seek_key`), which chooses how
the merger seeks and not where it ends, nor `next_prefix`. A decode error is kept as the error
itself, where the source keeps its display text.
-/

namespace Mmdb

/-- A range tombstone `[begin, end)` written at `seq`, from the LSM level `level`. -/
structure RangeTombstone where
  begin : Bytes
  «end» : Bytes
  seq : SequenceNumber
  level : Nat
  deriving DecidableEq, Repr

/-- A tombstone counts for a lookup of `userKey` at `snapshot` from `sourceLevel` when it covers
the key, is visible at the snapshot, and is not from a level deeper than the key's. -/
def RangeTombstone.counts (t : RangeTombstone) (userKey : Bytes) (snapshot : SequenceNumber)
    (sourceLevel : Option Nat) : Bool :=
  decide (t.begin ≤ userKey) && decide (userKey < t.«end») && decide (t.seq ≤ snapshot) &&
    sourceLevel.all fun level => decide (t.level ≤ level)

/-- `max_covering_tombstone_seq_for_level`: the highest sequence of a counted tombstone, `0` when
none counts. -/
def maxCoveringTombstoneSeqForLevel (tombstones : List RangeTombstone) (userKey : Bytes)
    (snapshot : SequenceNumber) (sourceLevel : Option Nat) : SequenceNumber :=
  tombstones.foldl
    (fun best t => if t.counts userKey snapshot sourceLevel then max best t.seq else best) 0

/-- `DBIterator`. -/
structure DBIterator where
  merger : MergingIterator
  sequence : SequenceNumber
  batchSeqFloor : Option SequenceNumber
  lastUserKey : Bytes
  hasLastKey : Bool
  current : Option (Bytes × Bytes)
  needsAdvance : Bool
  rangeTombstones : List RangeTombstone
  /-- The source's `prefix`. -/
  pfx : Option Bytes
  iterateUpperBound : Option Bytes
  iterateLowerBound : Option Bytes
  /-- An entry read past the user key a backward walk resolved, with the level read for it. -/
  prevOvershoot : Option (Entry × Option Nat)
  backwardPositioned : Bool
  skipPoint : Option (Bytes → Bool)
  cleanRead : Bool
  keyDecodeError : Option Error

/-- `prefix_successor`'s loop on the prefix's bytes, last first: increment the last byte below
`0xFF` and drop the bytes after it. -/
def incrementLastByte : List UInt8 → Option (List UInt8)
  | [] => none
  | b :: rest => if b < 0xFF then some ((b + 1) :: rest) else incrementLastByte rest

/-- The shortest key above every key with prefix `p`; `none` when `p` is all `0xFF`. -/
def prefixSuccessorOf (p : Bytes) : Option Bytes :=
  (incrementLastByte p.reverse).map List.reverse

namespace DBIterator

/-- `DBIterator::from_sources`. -/
def fromSources (sources : List IterSource) (sequence : SequenceNumber) : DBIterator where
  merger := .new sources
  sequence := sequence
  batchSeqFloor := none
  lastUserKey := []
  hasLastKey := false
  current := none
  needsAdvance := true
  rangeTombstones := []
  pfx := none
  iterateUpperBound := none
  iterateLowerBound := none
  prevOvershoot := none
  backwardPositioned := false
  skipPoint := none
  cleanRead := true
  keyDecodeError := none

/-- `DBIterator::from_sources_with_prefix`. -/
def fromSourcesWithPrefix (sources : List IterSource) (sequence : SequenceNumber)
    (keyPrefix : Bytes) : DBIterator :=
  { fromSources sources sequence with pfx := some keyPrefix }

/-- `set_range_tombstones_with_levels`. -/
def setRangeTombstonesWithLevels (it : DBIterator) (tombstones : List RangeTombstone) :
    DBIterator :=
  { it with rangeTombstones := tombstones, cleanRead := false }

/-- `set_batch_seq_floor`. -/
def setBatchSeqFloor (it : DBIterator) (floor : SequenceNumber) : DBIterator :=
  { it with batchSeqFloor := some floor }

/-- `set_skip_point`. -/
def setSkipPoint (it : DBIterator) (f : Bytes → Bool) : DBIterator :=
  { it with skipPoint := some f, cleanRead := false }

/-- `set_upper_bound`: the buffered entry is dropped; the position is kept. -/
def setUpperBound (it : DBIterator) (bound : Bytes) : DBIterator :=
  { it with
    iterateUpperBound := some bound
    current := none
    needsAdvance := true
    prevOvershoot := none }

/-- `set_bounds`. -/
def setBounds (it : DBIterator) (lower upper : Option Bytes) : DBIterator :=
  { it with
    iterateLowerBound := lower
    iterateUpperBound := upper
    current := none
    needsAdvance := true
    prevOvershoot := none }

/-- `is_visible`: within the snapshot, or in the batch overlay's reserved region. -/
def isVisible (it : DBIterator) (seq : SequenceNumber) : Bool :=
  decide (seq ≤ it.sequence) || it.batchSeqFloor.any fun floor => decide (seq ≥ floor)

/-- `tombstone_snapshot`: lifted to `MAX_SEQUENCE_NUMBER` under a batch overlay. -/
def tombstoneSnapshot (it : DBIterator) : SequenceNumber :=
  if it.batchSeqFloor.isSome then maxSequenceNumber else it.sequence

/-- `effective_forward_target`: the target raised to the lower bound, then to the prefix. -/
def effectiveForwardTarget (it : DBIterator) (target : Bytes) : Bytes :=
  let effective := match it.iterateLowerBound with
    | some lb => if target < lb then lb else target
    | none => target
  match it.pfx with
  | some p => if effective < p then p else effective
  | none => effective

/-- `prefix_successor`. -/
def prefixSuccessor (it : DBIterator) : Option Bytes := it.pfx.bind prefixSuccessorOf

/-- `last_user_key()`: the last user key `next_visible` recorded, if any. -/
def lastUserKey? (it : DBIterator) : Option Bytes :=
  if it.hasLastKey then some it.lastUserKey else none

/-- `merger.advance_entry()`. -/
def skipEntry (it : DBIterator) : DBIterator := { it with merger := it.merger.advanceEntry }

/-- `merger.take_entry()`, whose entry the caller already holds. -/
def takeEntry (it : DBIterator) : DBIterator := { it with merger := it.merger.takeEntry.2 }

/-! ## Forward -/

/-- `Action` of `next_visible`, with the decision block's early `return None` as `stop`. -/
inductive Action where
  | skip
  | take (ukLen : Nat)
  | takeCheckTombstone (ukLen : Nat) (seq : SequenceNumber)
  | stop
  deriving DecidableEq, Repr

/-- The decision block of `next_visible` on the entry at the position: invisible, below the lower
bound, before the prefix, a range deletion, or an older version of the last user key is skipped;
past the prefix or the upper bound stops the walk; a new user key is recorded, and skipped if its
newest version is a deletion. -/
def forwardAction (it : DBIterator) (e : Entry) : Action × DBIterator :=
  match decodeInternalKey e.key with
  | .error err => (.stop, { it with keyDecodeError := some err })
  | .ok (_, seq, vt) =>
    if !it.isVisible seq then (.skip, it)
    else
      let ukLen := e.key.length - 8
      let uk := e.key.take ukLen
      if it.iterateLowerBound.any (uk < ·) then (.skip, it)
      else if it.pfx.any fun p => !p.isPrefixOf uk then
        (if it.pfx.any (uk < ·) then .skip else .stop, it)
      else if it.iterateUpperBound.any (uk ≥ ·) then (.stop, it)
      else if vt = .rangeDeletion then (.skip, it)
      else if it.hasLastKey && it.lastUserKey == uk then (.skip, it)
      else
        let it := { it with lastUserKey := uk, hasLastKey := true }
        if vt = .deletion then (.skip, it)
        else if it.rangeTombstones.isEmpty then (.take ukLen, it)
        else (.takeCheckTombstone ukLen seq, it)

/-- The loop of `next_visible` over the entries from the merger's position on: `entries` is
`it.merger.future` at every call, and each pass peeks its head. A taken entry is returned as its
user key and value, unless the skip-point callback rejects its key. -/
def nextVisibleLoop : DBIterator → List Entry → Option (Bytes × Bytes) × DBIterator
  | it, [] => (none, it)
  | it, e :: rest =>
    match it.forwardAction e with
    | (.stop, it) => (none, it)
    | (.skip, it) => nextVisibleLoop it.skipEntry rest
    | (.take ukLen, it) =>
      let uk := e.key.take ukLen
      let it := it.takeEntry
      if it.skipPoint.any (· uk) then nextVisibleLoop it rest else (some (uk, e.value), it)
    | (.takeCheckTombstone ukLen seq, it) =>
      -- the level of the source the entry comes from, read with the entry still at the top
      let sourceLevel := it.merger.peekSourceLevel
      if maxCoveringTombstoneSeqForLevel it.rangeTombstones it.lastUserKey it.tombstoneSnapshot
          sourceLevel > seq then
        nextVisibleLoop it.skipEntry rest
      else
        let uk := e.key.take ukLen
        let it := it.takeEntry
        if it.skipPoint.any (· uk) then nextVisibleLoop it rest else (some (uk, e.value), it)

/-- What opens `next_visible`: after a backward operation, forward again past the last user key;
then the direction check of the first `peek_entry`. -/
def resumeForward (it : DBIterator) : DBIterator :=
  let it :=
    if it.backwardPositioned then
      let it := { it with backwardPositioned := false, prevOvershoot := none }
      if it.hasLastKey then
        { it with merger := it.merger.seek (InternalKey.new it.lastUserKey 0 .deletion).encoded }
      else it
    else it
  { it with merger := it.merger.toForward }

/-- `next_visible`. -/
def nextVisible (it : DBIterator) : Option (Bytes × Bytes) × DBIterator :=
  let it := it.resumeForward
  it.nextVisibleLoop it.merger.future

/-- The loop of `next_visible_clean`: `next_visible` with no range tombstones and no skip-point
callback, its checks in the order the source writes them. -/
def nextVisibleCleanLoop : DBIterator → List Entry → Option (Bytes × Bytes) × DBIterator
  | it, [] => (none, it)
  | it, e :: rest =>
    match decodeInternalKey e.key with
    | .error err => (none, { it with keyDecodeError := some err })
    | .ok (_, seq, vt) =>
      let uk := e.key.take (e.key.length - 8)
      if !it.isVisible seq then nextVisibleCleanLoop it.skipEntry rest
      else if it.iterateLowerBound.any (uk < ·) then nextVisibleCleanLoop it.skipEntry rest
      else if it.pfx.any fun p => !p.isPrefixOf uk then
        if it.pfx.any (uk < ·) then nextVisibleCleanLoop it.skipEntry rest else (none, it)
      else if it.iterateUpperBound.any (uk ≥ ·) then (none, it)
      else if vt = .rangeDeletion || (it.hasLastKey && it.lastUserKey == uk) then
        nextVisibleCleanLoop it.skipEntry rest
      else
        let it := { it with lastUserKey := uk, hasLastKey := true }
        if vt = .deletion then nextVisibleCleanLoop it.skipEntry rest
        else (some (uk, e.value), it.takeEntry)

/-- `next_visible_clean`. -/
def nextVisibleClean (it : DBIterator) : Option (Bytes × Bytes) × DBIterator :=
  let it := it.resumeForward
  it.nextVisibleCleanLoop it.merger.future

/-- `ensure_current`: fill the buffered entry when it was consumed. -/
def ensureCurrent (it : DBIterator) : Bool × DBIterator :=
  if it.needsAdvance then
    let (current, it) := if it.cleanRead then it.nextVisibleClean else it.nextVisible
    (current.isSome, { it with current := current, needsAdvance := false })
  else (it.current.isSome, it)

/-- `valid`. -/
def valid (it : DBIterator) : Bool × DBIterator := it.ensureCurrent

/-- `key`. -/
def key (it : DBIterator) : Option Bytes × DBIterator :=
  let it := it.ensureCurrent.2
  (it.current.map (·.1), it)

/-- `value`. -/
def value (it : DBIterator) : Option Bytes × DBIterator :=
  let it := it.ensureCurrent.2
  (it.current.map (·.2), it)

/-- `advance`. -/
def advance (it : DBIterator) : DBIterator := { it with needsAdvance := true, current := none }

/-- `next_lazy`, and `Iterator::next`: the buffered entry, consumed. -/
def next (it : DBIterator) : Option (Bytes × Bytes) × DBIterator :=
  let (valid, it) := it.ensureCurrent
  if valid then (it.current, { it with current := none, needsAdvance := true }) else (none, it)

/-- `seek`: forward from the first key at or after the target, raised to the bounds. -/
def seek (it : DBIterator) (target : Bytes) : DBIterator :=
  let target := it.effectiveForwardTarget target
  { it with
    merger := it.merger.seek (InternalKey.new target maxSequenceNumber .value).encoded
    hasLastKey := false
    needsAdvance := true
    current := none
    prevOvershoot := none
    backwardPositioned := false }

/-- `seek_to_first`. -/
def seekToFirst (it : DBIterator) : DBIterator :=
  if it.pfx.isSome || it.iterateLowerBound.isSome then it.seek []
  else
    { it with
      merger := it.merger.seekToFirst
      hasLastKey := false
      needsAdvance := true
      current := none
      prevOvershoot := none
      backwardPositioned := false }

/-! ## Backward -/

/-- `prev_entry_with_level`: the level of the source at the heap's top, then the entry
`prev_entry` pops. -/
def prevEntryWithLevel (it : DBIterator) : Option (Entry × Option Nat) × DBIterator :=
  let level := it.merger.peekSourceLevel
  let (e, merger) := it.merger.prevEntry
  (e.map (·, level), { it with merger := merger })

/-- The user key a backward walk is collecting, and its newest visible version so far. -/
structure PrevCandidate where
  candidateUk : Option Bytes
  bestEntry : Option (Bytes × Bytes)
  bestSeq : SequenceNumber
  bestIsDeletion : Bool
  bestLevel : Option Nat
  deriving DecidableEq, Repr

/-- No user key collected yet. -/
def PrevCandidate.empty : PrevCandidate := ⟨none, none, 0, false, none⟩

/-- How the inner loop of `resolve_prev_user_key` ends: with a candidate (the entries ran out,
a guard or the next user key stopped it), or on a key that does not decode. -/
inductive Collected where
  | candidate (it : DBIterator) (c : PrevCandidate)
  | decodeFailed (it : DBIterator)

/-- The inner loop of `resolve_prev_user_key`: the entries of the first user key below `bound`,
oldest first. Going backward a key's versions come in ascending sequence, so the last visible one
is its newest. Every pass takes one entry; `fuel` counts them. -/
def collectPrev (bound : Option Bytes) :
    Nat → DBIterator → PrevCandidate → Option (Entry × Option Nat) → Collected
  | 0, it, c, _ => .candidate it c
  | _, it, c, none => .candidate it c
  | fuel + 1, it, c, some (e, level) =>
    match decodeInternalKey e.key with
    | .error err => .decodeFailed { it with keyDecodeError := some err, current := none }
    | .ok (uk, seq, vt) =>
      if it.pfx.any fun p => !p.isPrefixOf uk then .candidate it c
      else if it.iterateLowerBound.any (uk < ·) then .candidate it c
      else if bound.any (uk ≥ ·) then
        let (next, it) := it.prevEntryWithLevel
        collectPrev bound fuel it c next
      else if c.candidateUk.any (uk ≠ ·) then
        .candidate { it with prevOvershoot := some (e, level) } c
      else
        let c := { c with candidateUk := some uk }
        if vt = .rangeDeletion then
          let (next, it) := it.prevEntryWithLevel
          collectPrev bound fuel it c next
        else
          let c :=
            if it.isVisible seq && decide (seq ≥ c.bestSeq) then
              { c with
                bestSeq := seq
                bestLevel := level
                bestIsDeletion := vt = .deletion
                bestEntry := if vt = .deletion then none else some (uk, e.value) }
            else c
          let (next, it) := it.prevEntryWithLevel
          collectPrev bound fuel it c next

/-- No visible user key below the bound: nothing is current. -/
def exhaustBackward (it : DBIterator) : DBIterator :=
  { it with current := none, needsAdvance := false, backwardPositioned := false }

/-- The outer loop of `resolve_prev_user_key`: collect the user key below `currentBound`, then
return it, or go on below it when its newest visible version is a deletion, it has none, a range
tombstone covers it or the skip-point callback rejects it. Each pass consumes an entry; `fuel`
counts them. -/
def resolvePrevLoop : Nat → DBIterator → Option Bytes → DBIterator
  | 0, it, _ => it.exhaustBackward
  | fuel + 1, it, currentBound =>
    let (first, it) := match it.prevOvershoot with
      | some overshoot => (some overshoot, { it with prevOvershoot := none })
      | none => it.prevEntryWithLevel
    match collectPrev currentBound (it.merger.entries.length + 1) it .empty first with
    | .decodeFailed it => it
    | .candidate it c =>
      match c.candidateUk with
      | none => it.exhaustBackward
      | some cuk =>
        if c.bestIsDeletion then resolvePrevLoop fuel it (some cuk)
        else
          match c.bestEntry with
          | none => resolvePrevLoop fuel it (some cuk)
          | some (uk, val) =>
            if maxCoveringTombstoneSeqForLevel it.rangeTombstones uk it.tombstoneSnapshot
                c.bestLevel > c.bestSeq then
              resolvePrevLoop fuel it (some cuk)
            else if it.skipPoint.any (· uk) then resolvePrevLoop fuel it (some cuk)
            else
              { it with
                lastUserKey := uk
                hasLastKey := true
                backwardPositioned := true
                current := some (uk, val)
                needsAdvance := false }

/-- `resolve_prev_user_key`: position on the last visible user key below `skipBound`. -/
def resolvePrevUserKey (it : DBIterator) (skipBound : Option Bytes) : DBIterator :=
  resolvePrevLoop (it.merger.entries.length + 2) it skipBound

/-- `prev`: the last visible user key below the current one; nothing happens without one. -/
def prev (it : DBIterator) : DBIterator :=
  let it := it.ensureCurrent.2
  match it.current with
  | none => it
  | some (k, _) => it.resolvePrevUserKey (some k)

/-- `seek_for_prev`: the last visible user key at or below the target, clamped to the upper
bound and to the prefix. -/
def seekForPrev (it : DBIterator) (target : Bytes) : DBIterator :=
  let (seekKey, bound) :=
    match it.iterateUpperBound with
    | some ub =>
      if ub ≤ target then ((InternalKey.new ub maxSequenceNumber .value).encoded, ub)
      else ((InternalKey.new target 0 .deletion).encoded, target ++ [0])
    | none => ((InternalKey.new target 0 .deletion).encoded, target ++ [0])
  let (seekKey, bound) :=
    match it.prefixSuccessor with
    | some succ =>
      if succ < bound then ((InternalKey.new succ maxSequenceNumber .value).encoded, succ)
      else (seekKey, bound)
    | none => (seekKey, bound)
  let it := { it with
    merger := it.merger.seekForPrev seekKey
    prevOvershoot := none
    hasLastKey := false }
  it.resolvePrevUserKey (some bound)

/-- `seek_to_last`: the last visible user key below the upper bound, or below the prefix's
successor when that is lower. -/
def seekToLast (it : DBIterator) : DBIterator :=
  let resolveBound :=
    match it.prefixSuccessor with
    | some succ => if it.iterateUpperBound.all (succ < ·) then some succ else it.iterateUpperBound
    | none => it.iterateUpperBound
  let merger :=
    match resolveBound with
    | some ub => it.merger.seekForPrev (InternalKey.new ub maxSequenceNumber .value).encoded
    | none => it.merger.seekToLastMerge
  let it := { it with merger := merger, hasLastKey := false, prevOvershoot := none }
  it.resolvePrevUserKey resolveBound

/-- The prefix clamp of `seek_to_last` seeks to `(succ, MAX_SEQUENCE_NUMBER, Value)` for the
prefix's successor `succ`; an entry `(succ, MAX_SEQUENCE_NUMBER, Value)` sorts at that key, so the
backward walk pops it first, the prefix guard stops there, and the keys of the prefix below it
are never reached. With prefix `a`, entries `(a, 1, Value) ↦ 1` and `(b, MAX, Value) ↦ 2` at
snapshot 5, a forward scan yields `(a, 1)` alone, and `seek_to_last` leaves the iterator
invalid. -/
theorem seekToLast_prefix_top_sequence :
    (let it := fromSourcesWithPrefix
      [⟨none, [((InternalKey.new [0x61] 1 .value).encoded, [0x31]),
        ((InternalKey.new [0x62] maxSequenceNumber .value).encoded, [0x32])]⟩] 5 [0x61]
    it.seekToFirst.next.1 = some ([0x61], [0x31]) ∧ it.seekToFirst.next.2.next.1 = none ∧
      it.seekToLast.valid.1 = false) := by
  decide

end DBIterator

end Mmdb
