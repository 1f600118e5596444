import Mmdb.Iterator.DbIter

/-!
# The bidirectional iterator

`src/iterator/bidi_iter.rs`. `BidiIterator` is a `DoubleEndedIterator` over user keys and
values. A materialized one walks a list from both ends. A lazy one streams from a `DBIterator`:
forward with `next`; its first `next_back` jumps to the last key with `seek_to_last`, and later
ones step back with `prev`. Each direction change re-seeks the database iterator between the
last key returned forward and the last key returned backward: the upper bound is tightened to
the back frontier, and the key comparisons keep the back end from crossing the front one.

On the first `next_back` the front frontier is read from the database iterator, as the last user
key its forward scan recorded.
-/

namespace Mmdb

/-- `LazyBidiState`. -/
structure LazyBidiState where
  dbIter : DBIterator
  /-- The last key returned by `next`. -/
  lastFwdKey : Option Bytes
  /-- The last key returned by `next_back`. -/
  lastBackKey : Option Bytes

/-- `BidiInner`. -/
inductive BidiInner where
  | materialized (entries : List (Bytes × Bytes)) (front back : Nat)
  | lazy (dbIter : DBIterator) (forwardOnly : Bool) (fwdCount : Nat)
  | lazyBackStarted (state : LazyBidiState)
  | lazyFwdResumed (state : LazyBidiState)

/-- `BidiIterator`. -/
structure BidiIterator where
  inner : BidiInner

namespace BidiIterator

/-- `BidiIterator::new`, from a sorted list without duplicate keys. -/
def new (entries : List (Bytes × Bytes)) : BidiIterator := ⟨.materialized entries 0 entries.length⟩

/-- `BidiIterator::lazy`. -/
def lazy (dbIter : DBIterator) : BidiIterator := ⟨.lazy dbIter false 0⟩

/-- `BidiIterator::lazy_forward`: `next_back` returns `None`. -/
def lazyForward (dbIter : DBIterator) : BidiIterator := ⟨.lazy dbIter true 0⟩

/-- `next` in `LazyFwdResumed`: stream forward, recording each key returned. -/
def nextFwdResumed (state : LazyBidiState) : Option (Bytes × Bytes) × BidiIterator :=
  match state.dbIter.next with
  | (none, dbIter) => (none, ⟨.lazyFwdResumed { state with dbIter := dbIter }⟩)
  | (some entry, dbIter) =>
    (some entry, ⟨.lazyFwdResumed { state with dbIter := dbIter, lastFwdKey := some entry.1 }⟩)

/-- The re-seek of `next` in `LazyBackStarted`: bound above by the back frontier, then just past
the last key returned forward, or at the first key when none was. -/
def resumeFromFront (state : LazyBidiState) : DBIterator :=
  let dbIter := match state.lastBackKey with
    | some backKey => state.dbIter.setUpperBound backKey
    | none => state.dbIter
  match state.lastFwdKey with
  | some key =>
    let dbIter := dbIter.seek key
    let (valid, dbIter) := dbIter.valid
    if valid then
      -- skip the last forward key itself, already returned
      let (k, dbIter) := dbIter.key
      if k = some key then dbIter.advance else dbIter
    else dbIter
  | none => dbIter.seekToFirst

/-- `Iterator::next`. -/
def next (b : BidiIterator) : Option (Bytes × Bytes) × BidiIterator :=
  match b.inner with
  | .materialized entries front back =>
    if front < back then (entries[front]?, ⟨.materialized entries (front + 1) back⟩) else (none, b)
  | .lazy dbIter forwardOnly fwdCount =>
    match dbIter.next with
    | (none, dbIter) => (none, ⟨.lazy dbIter forwardOnly fwdCount⟩)
    | (some entry, dbIter) => (some entry, ⟨.lazy dbIter forwardOnly (fwdCount + 1)⟩)
  | .lazyBackStarted state => nextFwdResumed { state with dbIter := resumeFromFront state }
  | .lazyFwdResumed state => nextFwdResumed state

/-- The end of the first `next_back` and of `next_back` after forward streaming: read the key the
re-seek found, stop at the front frontier, read its value. `onEmpty` is the state kept when there
is nothing to return; `onFrontier` the one kept when the key was already returned forward. -/
def backFromSeek (dbIter : DBIterator) (lastFwdKey : Option Bytes)
    (onEmpty : DBIterator → LazyBidiState) (onFrontier : DBIterator → Bytes → LazyBidiState)
    (onValue : DBIterator → Bytes → LazyBidiState) : Option (Bytes × Bytes) × BidiIterator :=
  let (valid, dbIter) := dbIter.valid
  if !valid then (none, ⟨.lazyBackStarted (onEmpty dbIter)⟩)
  else
    match dbIter.key with
    | (none, dbIter) => (none, ⟨.lazyBackStarted (onEmpty dbIter)⟩)
    | (some k, dbIter) =>
      if lastFwdKey.any (k ≤ ·) then (none, ⟨.lazyBackStarted (onFrontier dbIter k)⟩)
      else
        match dbIter.value with
        | (none, dbIter) => (none, ⟨.lazyBackStarted (onFrontier dbIter k)⟩)
        | (some v, dbIter) => (some (k, v), ⟨.lazyBackStarted (onValue dbIter k)⟩)

/-- `DoubleEndedIterator::next_back`. -/
def nextBack (b : BidiIterator) : Option (Bytes × Bytes) × BidiIterator :=
  match b.inner with
  | .materialized entries front back =>
    if back > front then (entries[back - 1]?, ⟨.materialized entries front (back - 1)⟩)
    else (none, b)
  | .lazy dbIter forwardOnly _ =>
    if forwardOnly then (none, b)
    else
      -- the front frontier, read before `seek_to_last` resets it
      let lastFwdKey := dbIter.lastUserKey?
      backFromSeek dbIter.seekToLast lastFwdKey (fun dbIter => ⟨dbIter, lastFwdKey, none⟩)
        (fun dbIter k => ⟨dbIter, lastFwdKey, some k⟩) (fun dbIter k => ⟨dbIter, lastFwdKey, some k⟩)
  | .lazyFwdResumed state =>
    let dbIter := match state.lastBackKey with
      | some backKey => state.dbIter.setUpperBound backKey
      | none => state.dbIter
    backFromSeek dbIter.seekToLast state.lastFwdKey (fun dbIter => { state with dbIter := dbIter })
      (fun dbIter _ => { state with dbIter := dbIter })
      (fun dbIter k => { state with dbIter := dbIter, lastBackKey := some k })
  | .lazyBackStarted state =>
    let dbIter := state.dbIter.prev
    let (valid, dbIter) := dbIter.valid
    if valid then
      match dbIter.key with
      | (none, dbIter) => (none, ⟨.lazyBackStarted { state with dbIter := dbIter }⟩)
      | (some k, dbIter) =>
        match dbIter.value with
        | (none, dbIter) => (none, ⟨.lazyBackStarted { state with dbIter := dbIter }⟩)
        | (some v, dbIter) =>
          -- stop at the front frontier, keeping the back frontier for a later `next`
          if state.lastFwdKey.any (k ≤ ·) then
            (none, ⟨.lazyBackStarted { state with dbIter := dbIter }⟩)
          else (some (k, v), ⟨.lazyBackStarted { state with dbIter := dbIter, lastBackKey := some k }⟩)
    else (none, ⟨.lazyBackStarted { state with dbIter := dbIter }⟩)

/-- The front frontier of the first `next_back` is `last_user_key()`, the last key the database
iterator's forward scan saw. A database iterator that was asked `valid()` before it was wrapped
has seen its first key without returning it: `next_back` stops at that key as if `next` had
returned it, and `next` then starts past it. With one visible entry `(a, 1)`, the wrapped
iterator's `next` would yield it, but `next_back` and then `next` both return `None`. -/
theorem lazy_peeked_loses_entry :
    (let it := (DBIterator.fromSources
      [⟨none, [((InternalKey.new [0x61] 1 .value).encoded, [0x31])]⟩] 5).valid.2
    it.next.1 = some ([0x61], [0x31]) ∧ it.next.2.next.1 = none ∧
      (lazy it).nextBack.1 = none ∧ (lazy it).nextBack.2.next.1 = none) := by
  decide

end BidiIterator

end Mmdb
