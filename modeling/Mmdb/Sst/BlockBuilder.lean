import Mathlib.Algebra.Order.BigOperators.Group.List
import Mmdb.Sst.Block

/-!
# Building data blocks

`src/sst/block_builder.rs`. The builder appends one entry per pair, sharing the longest prefix
with the key before it except at every `restart_interval`-th entry, where it records a restart
point at the current end of the buffer; `finish` appends the restart array and its count.
The `finished` flag is left out: a block here is built by adding pairs to a new builder and
finishing it once (`build`).

**What is proved here.**
- `decodeEntryAt_of_eq`: an entry written at an offset reads back after any key that has the
  prefix it shares.
- Reading the built block from the start, or from any restart point after an empty key, yields
  the pairs added from there on (`reads_foldl`); the restart array holds the offset of every
  `restart_interval`-th entry (`RestartsSoFar`, `restarts_after`).
- `build_spec`: when the pairs with their length fields take fewer than `2^32` bytes, `Block::new`
  accepts the built block, iteration collects the pairs, and the restart points start suffixes
  of them (`Block.Restarts`), so `seekBy_eq` and `seekForPrevBy_eq` apply.
-/

namespace Mmdb

/-- `BlockBuilder`. -/
structure BlockBuilder where
  buffer : Bytes
  restarts : List Nat
  lastKey : Bytes
  counter : Nat
  restartInterval : Nat

namespace BlockBuilder

/-- `BlockBuilder::new`: one restart point at offset `0`. -/
def new (restartInterval : Nat) : BlockBuilder := ⟨[], [0], [], 0, max restartInterval 1⟩

/-- The `while` loop of `add` that counts the bytes `key` shares with `lastKey`, up to `limit`. -/
def sharedLoop (lastKey key : Bytes) (limit shared : Nat) : Nat :=
  if shared < limit ∧ lastKey.getD shared 0 = key.getD shared 0 then
    sharedLoop lastKey key limit (shared + 1)
  else shared
termination_by limit - shared

/-- The prefix `add` lets `key` share with the last key: none at a restart point. -/
def sharedWith (bb : BlockBuilder) (key : Bytes) : Nat :=
  if bb.counter < bb.restartInterval then
    sharedLoop bb.lastKey key (min key.length bb.lastKey.length) 0
  else 0

/-- The bytes of one entry: the three lengths as `u32` varints, the key after its shared prefix
and the value. -/
def encodeEntry (shared : Nat) (key value : Bytes) : Bytes :=
  encodeVarint (shared % 2 ^ 32) ++ encodeVarint ((key.length - shared) % 2 ^ 32) ++
    encodeVarint (value.length % 2 ^ 32) ++ key.drop shared ++ value

/-- `BlockBuilder::add`. At a restart point the offset of the entry, as a `u32`, joins the
restart points and the counter starts again. -/
def add (bb : BlockBuilder) (key value : Bytes) : BlockBuilder where
  buffer := bb.buffer ++ encodeEntry (bb.sharedWith key) key value
  restarts :=
    if bb.counter < bb.restartInterval then bb.restarts
    else bb.restarts ++ [bb.buffer.length % 2 ^ 32]
  lastKey := key
  counter := (if bb.counter < bb.restartInterval then bb.counter else 0) + 1
  restartInterval := bb.restartInterval

/-- `BlockBuilder::finish`: the restart points and their count, as `u32` little-endian. -/
def finish (bb : BlockBuilder) : Bytes :=
  bb.buffer ++ bb.restarts.flatMap (leBytes 4) ++ leBytes 4 (bb.restarts.length % 2 ^ 32)

/-- `add` of a pair. -/
def addPair (bb : BlockBuilder) (pair : Bytes × Bytes) : BlockBuilder := bb.add pair.1 pair.2

/-- A block of `pairs`, added in order to a new builder and finished. -/
def build (restartInterval : Nat) (pairs : List (Bytes × Bytes)) : Bytes :=
  (pairs.foldl addPair (new restartInterval)).finish

section Add

variable {bb : BlockBuilder} {key value : Bytes}

@[simp] theorem add_buffer :
    (bb.add key value).buffer = bb.buffer ++ encodeEntry (bb.sharedWith key) key value := rfl

@[simp] theorem add_lastKey : (bb.add key value).lastKey = key := rfl

@[simp] theorem add_restartInterval : (bb.add key value).restartInterval = bb.restartInterval :=
  rfl

theorem add_of_lt (h : bb.counter < bb.restartInterval) :
    (bb.add key value).restarts = bb.restarts ∧ (bb.add key value).counter = bb.counter + 1 :=
  ⟨if_pos h, congrArg (· + 1) (if_pos h)⟩

theorem add_of_ge (h : ¬ bb.counter < bb.restartInterval) :
    (bb.add key value).restarts = bb.restarts ++ [bb.buffer.length % 2 ^ 32] ∧
      (bb.add key value).counter = 1 :=
  ⟨if_neg h, congrArg (· + 1) (if_neg h)⟩

end Add

/-! ## The shared prefix -/

/-- The loop stops at a length both keys agree up to. -/
theorem sharedLoop_spec (lastKey key : Bytes) (limit : Nat) (hlast : limit ≤ lastKey.length)
    (hkey : limit ≤ key.length) (shared : Nat) (hle : shared ≤ limit)
    (htake : lastKey.take shared = key.take shared) :
    sharedLoop lastKey key limit shared ≤ limit ∧
      lastKey.take (sharedLoop lastKey key limit shared) =
        key.take (sharedLoop lastKey key limit shared) := by
  induction shared using sharedLoop.induct lastKey key limit with
  | case1 shared hsame ih =>
    rw [sharedLoop, if_pos hsame]
    obtain ⟨hlt, heq⟩ := hsame
    -- one more byte in common
    apply ih (by omega)
    rw [List.take_add_one, List.take_add_one, htake, List.getElem?_eq_getElem (by omega),
      List.getElem?_eq_getElem (by omega)]
    rw [List.getD_eq_getElem _ _ (by omega), List.getD_eq_getElem _ _ (by omega)] at heq
    rw [heq]
  | case2 shared hstop =>
    rw [sharedLoop, if_neg hstop]
    exact ⟨hle, htake⟩

/-- The prefix `add` shares is one that the last key has, or none at a restart point: any key
before the entry that has it, and the entry's own key, start the same way. -/
theorem sharedWith_spec {bb : BlockBuilder} {prevKey : Bytes} (key : Bytes)
    (hprev : ¬ bb.counter < bb.restartInterval ∨ prevKey = bb.lastKey) :
    bb.sharedWith key ≤ prevKey.length ∧ bb.sharedWith key ≤ key.length ∧
      prevKey.take (bb.sharedWith key) = key.take (bb.sharedWith key) := by
  rw [sharedWith]
  split
  · rename_i hlt
    obtain hge | rfl := hprev
    · exact absurd hlt hge
    obtain ⟨hle, htake⟩ := sharedLoop_spec bb.lastKey key _ (Nat.min_le_right _ _)
      (Nat.min_le_left _ _) 0 (Nat.zero_le _) rfl
    exact ⟨by omega, by omega, htake⟩
  · simp

/-! ## Entries read back -/

theorem encodeVarint_ne_nil (x : Nat) : encodeVarint x ≠ [] := by
  rw [encodeVarint]
  split <;> simp

/-- **An entry reads back** after any key that has the prefix the entry shares, when its key and
value are shorter than `2^32`. -/
theorem decodeEntryAt_of_eq {data rest prevKey key value : Bytes} {offset shared : Nat}
    (hshared : shared ≤ prevKey.length) (hkey : shared ≤ key.length)
    (hshares : prevKey.take shared = key.take shared)
    (hklen : key.length < 2 ^ 32) (hvlen : value.length < 2 ^ 32)
    (h : data.drop offset = encodeEntry shared key value ++ rest) :
    decodeEntryAt data offset prevKey =
      .ok (key, value, offset + (encodeEntry shared key value).length) := by
  rw [encodeEntry, Nat.mod_eq_of_lt (show shared < 2 ^ 32 by omega),
    Nat.mod_eq_of_lt (show key.length - shared < 2 ^ 32 by omega), Nat.mod_eq_of_lt hvlen] at h ⊢
  simp only [List.append_assoc] at h
  -- the three varints, the rest of the key and the value, each where the one before ended
  have hoff := le_length_of_eq_append h (by simp [encodeVarint_ne_nil])
  have h₂ := drop_add_of_eq_append h
  have h₃ := drop_add_of_eq_append h₂
  have h₄ := drop_add_of_eq_append h₃
  have h₅ := drop_add_of_eq_append h₄
  have hlen := length_eq_of_eq_append h hoff
  simp only [List.length_append, List.length_drop] at hlen
  have hkeyRest := slice_of_eq_append h₄
  have hval := slice_of_eq_append h₅
  simp only [List.length_drop] at hkeyRest hval
  simp only [decodeEntryAt, h, decodeVarint_encodeVarint (show shared < 2 ^ 32 by omega), h₂,
    decodeVarint_encodeVarint (show key.length - shared < 2 ^ 32 by omega), h₃,
    decodeVarint_encodeVarint hvlen, Except.ok_bind, Except.pure_eq_ok]
  rw [if_neg (by omega), if_neg (by omega), if_neg (by omega), if_neg (by omega), if_neg (by omega),
    hkeyRest, hval, hshares, List.take_append_drop]
  simp only [List.length_append, List.length_drop, Except.ok.injEq, Prod.mk.injEq, true_and]
  omega

/-! ## Runs of `add` -/

/-- The size a pair may take in the block: the key, the value, and three varints of at most
five bytes. -/
def pairSize (pair : Bytes × Bytes) : Nat := pair.1.length + pair.2.length + 15

theorem length_encodeVarint_le (k : Nat) :
    ∀ x, x < 128 ^ (k + 1) → (encodeVarint x).length ≤ k + 1 := by
  induction k with
  | zero =>
    intro x hx
    rw [encodeVarint, if_neg (by omega)]
    rfl
  | succ k ih =>
    intro x hx
    rw [encodeVarint]
    split
    · have hshift : x >>> 7 = x / 128 := by simp [Nat.shiftRight_eq_div_pow]
      have hdiv : x / 128 < 128 ^ (k + 1) := by
        rw [Nat.div_lt_iff_lt_mul (by omega), ← Nat.pow_succ]
        exact hx
      have := ih (x >>> 7) (hshift ▸ hdiv)
      simp only [List.length_cons]
      omega
    · simp

theorem length_encodeEntry_le (shared : Nat) (pair : Bytes × Bytes) :
    (encodeEntry shared pair.1 pair.2).length ≤ pairSize pair := by
  have hvarint : ∀ x, (encodeVarint (x % 2 ^ 32)).length ≤ 5 := fun x =>
    length_encodeVarint_le 4 _ (Nat.lt_of_lt_of_le (Nat.mod_lt _ (by decide)) (by decide))
  have h₁ := hvarint shared
  have h₂ := hvarint (pair.1.length - shared)
  have h₃ := hvarint pair.2.length
  simp only [encodeEntry, pairSize, List.length_append, List.length_drop]
  omega

variable {ps : List (Bytes × Bytes)}

theorem foldl_restartInterval (bb : BlockBuilder) :
    (ps.foldl addPair bb).restartInterval = bb.restartInterval := by
  induction ps generalizing bb with
  | nil => rfl
  | cons p ps ih => rw [List.foldl_cons, ih, addPair, add_restartInterval]

/-- A run only appends to the buffer, at most the size of each pair. -/
theorem foldl_buffer (ps : List (Bytes × Bytes)) (bb : BlockBuilder) :
    ∃ more, (ps.foldl addPair bb).buffer = bb.buffer ++ more ∧
      more.length ≤ (ps.map pairSize).sum := by
  induction ps generalizing bb with
  | nil => exact ⟨[], by simp⟩
  | cons p ps ih =>
    obtain ⟨more, hmore, hlen⟩ := ih (bb.addPair p)
    refine ⟨encodeEntry (bb.sharedWith p.1) p.1 p.2 ++ more, ?_, ?_⟩
    · rw [List.foldl_cons, hmore, addPair, add_buffer, List.append_assoc]
    · have := length_encodeEntry_le (bb.sharedWith p.1) p
      simp only [List.length_append, List.map_cons, List.sum_cons]
      omega

/-- **Reading back a run.** In the block whose entries are what a run of `add` over `ps` wrote,
reading from where the run started yields `ps`, after the builder's last key or, at a restart
point, after any key. -/
theorem reads_foldl {b : Block}
    (hfit : ∀ pair ∈ ps, pair.1.length < 2 ^ 32 ∧ pair.2.length < 2 ^ 32) (bb : BlockBuilder)
    (prevKey : Bytes) (hdata : b.entryData = (ps.foldl addPair bb).buffer)
    (hend : b.restartOffset = (ps.foldl addPair bb).buffer.length)
    (hprev : ¬ bb.counter < bb.restartInterval ∨ prevKey = bb.lastKey) :
    b.Reads prevKey bb.buffer.length ps := by
  induction ps generalizing bb prevKey with
  | nil => exact hend ▸ .nil
  | cons p ps ih =>
    rw [List.foldl_cons] at hdata hend
    obtain ⟨hklen, hvlen⟩ := hfit p List.mem_cons_self
    obtain ⟨more, hmore, -⟩ := foldl_buffer ps (bb.addPair p)
    obtain ⟨hshared, hkey, hshares⟩ := sharedWith_spec p.1 hprev
    -- the entry sits at the end of the buffer the run started from
    have hdrop : b.entryData.drop bb.buffer.length =
        encodeEntry (bb.sharedWith p.1) p.1 p.2 ++ more := by
      rw [hdata, hmore, addPair, add_buffer, List.append_assoc, List.drop_left]
    have hentry := decodeEntryAt_of_eq hshared hkey hshares hklen hvlen hdrop
    have hrest : b.Reads p.1 (bb.addPair p).buffer.length ps :=
      ih (fun pair hpair => hfit pair (List.mem_cons_of_mem p hpair)) (bb.addPair p) p.1 hdata
        hend (.inr rfl)
    have hlt : bb.buffer.length < b.restartOffset := by
      have hne := encodeVarint_ne_nil ((bb.sharedWith p.1) % 2 ^ 32)
      rw [hend, hmore, addPair, add_buffer]
      simp only [encodeEntry, List.length_append]
      have := List.length_pos_of_ne_nil hne
      omega
    refine .cons hlt hentry ?_
    simpa [addPair] using hrest

/-! ## Restart points -/

/-- The builder after the first `i` pairs. -/
def after (restartInterval : Nat) (pairs : List (Bytes × Bytes)) (i : Nat) : BlockBuilder :=
  (pairs.take i).foldl addPair (new restartInterval)

section After

variable {restartInterval : Nat} {pairs : List (Bytes × Bytes)}

@[simp] theorem after_zero : after restartInterval pairs 0 = new restartInterval := rfl

theorem after_succ {i : Nat} (hi : i < pairs.length) :
    after restartInterval pairs (i + 1) = (after restartInterval pairs i).addPair pairs[i] := by
  rw [after, after, List.take_add_one, List.getElem?_eq_getElem hi, Option.toList_some,
    List.foldl_append, List.foldl_cons, List.foldl_nil]

theorem after_length :
    after restartInterval pairs pairs.length = pairs.foldl addPair (new restartInterval) := by
  rw [after, List.take_length]

/-- The run goes on from the builder after `i` pairs with the pairs after them. -/
theorem foldl_drop_after (i : Nat) :
    (pairs.drop i).foldl addPair (after restartInterval pairs i) =
      pairs.foldl addPair (new restartInterval) := by
  rw [after, ← List.foldl_append, List.take_append_drop]

theorem after_restartInterval (i : Nat) :
    (after restartInterval pairs i).restartInterval = max restartInterval 1 := by
  rw [after, foldl_restartInterval]
  rfl

/-- The buffer after `i` pairs starts the buffer after `j ≥ i` pairs. -/
theorem after_buffer_le {i j : Nat} (hij : i ≤ j) :
    (after restartInterval pairs i).buffer.length ≤ (after restartInterval pairs j).buffer.length := by
  have htake : pairs.take j = pairs.take i ++ (pairs.take j).drop i := by
    conv_lhs => rw [← List.take_append_drop i (pairs.take j)]
    rw [List.take_take, Nat.min_eq_left hij]
  have hj : after restartInterval pairs j =
      ((pairs.take j).drop i).foldl addPair (after restartInterval pairs i) := by
    rw [after, after, ← List.foldl_append, ← htake]
  obtain ⟨more, hmore, -⟩ := foldl_buffer ((pairs.take j).drop i) (after restartInterval pairs i)
  rw [hj, hmore, List.length_append]
  omega

end After

/-- What the builder holds after `i` pairs: a restart point at the offset of every `k`-th entry
so far, `k` the interval it keeps, and in its counter the entries since the last one. -/
structure RestartsSoFar (restartInterval : Nat) (pairs : List (Bytes × Bytes)) (i : Nat)
    (bb : BlockBuilder) : Prop where
  restarts_ne : bb.restarts ≠ []
  counter_le : bb.counter ≤ max restartInterval 1
  counter_pos : 0 < i → 0 < bb.counter
  index_eq : i = (bb.restarts.length - 1) * max restartInterval 1 + bb.counter
  restarts_eq : bb.restarts = (List.range bb.restarts.length).map fun j =>
    (after restartInterval pairs (j * max restartInterval 1)).buffer.length % 2 ^ 32

/-- **The restart points of a run**: after every number of pairs, the builder holds one restart
point per started group of `k` entries, at the offset where the group starts. -/
theorem restarts_after (restartInterval : Nat) (pairs : List (Bytes × Bytes)) :
    ∀ i, i ≤ pairs.length →
      RestartsSoFar restartInterval pairs i (after restartInterval pairs i) := by
  intro i
  induction i with
  | zero =>
    intro _
    exact ⟨List.cons_ne_nil _ _, Nat.zero_le _, fun h => absurd h (Nat.lt_irrefl 0),
      by simp [new], by simp [new]⟩
  | succ i ih =>
    intro hi
    obtain ⟨hne, hle, -, hindex, hrestarts⟩ := ih (by omega)
    have hk := @after_restartInterval restartInterval pairs i
    rw [after_succ (by omega), addPair]
    by_cases hlt : (after restartInterval pairs i).counter < (after restartInterval pairs i).restartInterval
    · -- inside a group: one more entry since the last restart point
      obtain ⟨hsame, hcounter⟩ := @add_of_lt (after restartInterval pairs i) pairs[i].1 pairs[i].2 hlt
      refine ⟨hsame ▸ hne, by omega, fun _ => by omega, by rw [hsame, hcounter]; omega, ?_⟩
      rw [hsame]
      exact hrestarts
    · -- the group is full: a restart point at the end of the buffer, which is where entry `i`
      -- starts
      obtain ⟨hpush, hcounter⟩ := @add_of_ge (after restartInterval pairs i) pairs[i].1 pairs[i].2 hlt
      have hfull : (after restartInterval pairs i).counter = max restartInterval 1 := by omega
      have hcount := List.length_pos_of_ne_nil hne
      have hgroups : ((after restartInterval pairs i).restarts.length - 1) * max restartInterval 1 +
          max restartInterval 1 =
          (after restartInterval pairs i).restarts.length * max restartInterval 1 := by
        rw [← Nat.succ_mul, Nat.succ_eq_add_one, Nat.sub_add_cancel hcount]
      refine ⟨by simp [hpush], by omega, fun _ => by omega, ?_, ?_⟩
      · rw [hpush, hcounter, List.length_append, List.length_singleton, Nat.add_sub_cancel]
        omega
      · have hstart : (after restartInterval pairs i).restarts.length * max restartInterval 1 = i := by
          omega
        rw [hpush, List.length_append, List.length_singleton, List.range_succ, List.map_append,
          ← hrestarts, List.map_singleton, hstart]

/-- A restart point after the first: the group before it is full. -/
theorem counter_after_restart {k j g r : Nat} (hgroups : j * k = g * k + r) (hpos : 0 < r)
    (hle : r ≤ k) : r = k := by
  by_cases hgj : g < j
  · have : (g + 1) * k ≤ j * k := Nat.mul_le_mul_right k hgj
    rw [Nat.succ_mul] at this
    omega
  · have : j * k ≤ g * k := Nat.mul_le_mul_right k (by omega)
    omega

/-- A run of `add` from a new builder, with the restart points it holds at its end. -/
theorem restarts_foldl (restartInterval : Nat) (pairs : List (Bytes × Bytes)) :
    RestartsSoFar restartInterval pairs pairs.length (pairs.foldl addPair (new restartInterval)) := by
  have h := restarts_after restartInterval pairs pairs.length (Nat.le_refl _)
  rwa [after_length] at h

/-! ## The finished block -/

section Finish

variable {bb : BlockBuilder}

theorem length_flatMap_leBytes (rs : List Nat) : (rs.flatMap (leBytes 4)).length = rs.length * 4 := by
  induction rs with
  | nil => rfl
  | cons r rs ih =>
    simp only [List.flatMap_cons, List.length_append, length_leBytes, ih, List.length_cons]
    omega

/-- Restart point `j` of the array sits `4 j` bytes into it. -/
theorem drop_flatMap_leBytes (rs : List Nat) :
    ∀ j, (hj : j < rs.length) →
      (rs.flatMap (leBytes 4)).drop (j * 4) = leBytes 4 rs[j] ++ (rs.drop (j + 1)).flatMap (leBytes 4) := by
  induction rs with
  | nil => intro j hj; cases hj
  | cons r rs ih =>
    intro j hj
    cases j with
    | zero => simp
    | succ j =>
      rw [List.flatMap_cons, show (j + 1) * 4 = 4 + j * 4 by omega, ← List.drop_drop,
        List.drop_left' (length_leBytes 4 r), ih j (by simpa using hj)]
      simp

theorem length_finish : bb.finish.length = bb.buffer.length + bb.restarts.length * 4 + 4 := by
  simp only [finish, List.length_append, length_flatMap_leBytes, length_leBytes]

theorem take_finish : bb.finish.take bb.buffer.length = bb.buffer := by
  rw [finish, List.append_assoc, List.take_left' rfl]

/-- What `finish` writes after the entries: restart point `j`. -/
theorem drop_finish_restart {j : Nat} (hj : j < bb.restarts.length) :
    bb.finish.drop (bb.buffer.length + j * 4) =
      leBytes 4 bb.restarts[j] ++ ((bb.restarts.drop (j + 1)).flatMap (leBytes 4) ++
        leBytes 4 (bb.restarts.length % 2 ^ 32)) := by
  rw [finish, List.append_assoc, ← List.drop_drop, List.drop_left' rfl,
    List.drop_append_of_le_length (by rw [length_flatMap_leBytes]; omega),
    drop_flatMap_leBytes _ j hj, List.append_assoc]

/-- What `finish` writes last: the count of restart points. -/
theorem drop_finish_count :
    bb.finish.drop (bb.buffer.length + bb.restarts.length * 4) =
      leBytes 4 (bb.restarts.length % 2 ^ 32) ++ [] := by
  rw [finish, List.append_assoc, ← List.drop_drop, List.drop_left' rfl,
    List.drop_left' (length_flatMap_leBytes _), List.append_nil]

end Finish

section Build

variable {restartInterval : Nat} {pairs : List (Bytes × Bytes)}

theorem length_le_sum_pairSize (pairs : List (Bytes × Bytes)) :
    pairs.length * 15 ≤ (pairs.map pairSize).sum := by
  induction pairs with
  | nil => rfl
  | cons p ps ih =>
    simp only [List.length_cons, List.map_cons, List.sum_cons, pairSize]
    omega

theorem fits_of_sum_pairSize (hfit : (pairs.map pairSize).sum < 2 ^ 32) :
    ∀ pair ∈ pairs, pair.1.length < 2 ^ 32 ∧ pair.2.length < 2 ^ 32 := by
  intro pair hpair
  have := List.le_sum_of_mem (List.mem_map_of_mem (f := pairSize) hpair)
  simp only [pairSize] at this
  omega

theorem length_buffer_foldl_le (restartInterval : Nat) (pairs : List (Bytes × Bytes)) :
    (pairs.foldl addPair (new restartInterval)).buffer.length ≤ (pairs.map pairSize).sum := by
  obtain ⟨more, hmore, hlen⟩ := foldl_buffer pairs (new restartInterval)
  rw [hmore]
  simpa [new] using hlen

/-- Reading the built block from restart point `j`, after an empty key, yields the pairs from the
`j`-th group on. -/
theorem reads_after_restart {b : Block}
    (hfit : ∀ pair ∈ pairs, pair.1.length < 2 ^ 32 ∧ pair.2.length < 2 ^ 32)
    (hdata : b.entryData = (pairs.foldl addPair (new restartInterval)).buffer)
    (hend : b.restartOffset = (pairs.foldl addPair (new restartInterval)).buffer.length)
    {j : Nat} (hj : j * max restartInterval 1 ≤ pairs.length) :
    b.Reads [] (after restartInterval pairs (j * max restartInterval 1)).buffer.length
      (pairs.drop (j * max restartInterval 1)) := by
  rw [← foldl_drop_after (j * max restartInterval 1)] at hdata hend
  refine reads_foldl (fun pair hpair => hfit pair (List.mem_of_mem_drop hpair)) _ [] hdata hend ?_
  rcases Nat.eq_zero_or_pos j with rfl | hpos
  · -- the first entry follows the empty key
    right
    simp [new]
  · -- a later restart point follows a full group
    left
    obtain ⟨-, hle, hcpos, hindex, -⟩ := restarts_after restartInterval pairs _ hj
    have hfull := counter_after_restart hindex (hcpos (Nat.mul_pos hpos (by omega))) hle
    rw [after_restartInterval, hfull]
    exact Nat.lt_irrefl _

/-- The restart array of the built block holds, at `j`, the offset of entry `j k`. -/
theorem restart_finish (hfit : (pairs.map pairSize).sum < 2 ^ 32) {j : Nat}
    (hj : j < (pairs.foldl addPair (new restartInterval)).restarts.length) :
    leValue ((pairs.foldl addPair (new restartInterval)).finish.slice
        ((pairs.foldl addPair (new restartInterval)).buffer.length + j * 4) 4) =
      (after restartInterval pairs (j * max restartInterval 1)).buffer.length := by
  obtain ⟨-, -, -, hindex, hrestarts⟩ := restarts_foldl restartInterval pairs
  have hbuf := length_buffer_foldl_le restartInterval pairs
  -- the group starts inside the run, so its offset fits a `u32`
  have hstart : j * max restartInterval 1 ≤ pairs.length := by
    have := Nat.mul_le_mul_right (max restartInterval 1)
      (Nat.le_sub_one_of_lt hj)
    omega
  have hoff := @after_buffer_le restartInterval pairs _ _ hstart
  rw [after_length] at hoff
  have hget : (pairs.foldl addPair (new restartInterval)).restarts[j] =
      (after restartInterval pairs (j * max restartInterval 1)).buffer.length % 2 ^ 32 := by
    have h := congrArg (·[j]?) hrestarts
    simp only [List.getElem?_eq_getElem hj, List.getElem?_map, List.getElem?_range hj,
      Option.map_some, Option.some.injEq] at h
    exact h
  have hbound : (pairs.foldl addPair (new restartInterval)).restarts[j] < 256 ^ 4 := by
    rw [hget]
    exact Nat.mod_lt _ (by decide)
  obtain ⟨-, hread, -⟩ := read_le (by decide) hbound (drop_finish_restart hj)
  rw [hread, hget, Nat.mod_eq_of_lt (by omega)]

/-- **The built block**: when the pairs with their length fields take fewer than `2^32` bytes,
`Block::new` accepts what `build` writes, reading it from the start yields the pairs, and its
restart points start the groups of `k` pairs. -/
theorem build_spec (restartInterval : Nat) (pairs : List (Bytes × Bytes))
    (hfit : (pairs.map pairSize).sum < 2 ^ 32) :
    ∃ b : Block, Block.new (build restartInterval pairs) = .ok b ∧ b.Reads [] 0 pairs ∧
      b.Restarts pairs fun j => j * max restartInterval 1 := by
  obtain ⟨hne, -, hcounter, hindex, -⟩ := restarts_foldl restartInterval pairs
  have hbuf := length_buffer_foldl_le restartInterval pairs
  have hlength := length_le_sum_pairSize pairs
  have hcountPos := List.length_pos_of_ne_nil hne
  -- every restart point starts a group inside the run
  have hgroup : ∀ j, j < (pairs.foldl addPair (new restartInterval)).restarts.length →
      j * max restartInterval 1 ≤ pairs.length := fun j hj => by
    have := Nat.mul_le_mul_right (max restartInterval 1) (Nat.le_sub_one_of_lt hj)
    omega
  have hcount : (pairs.foldl addPair (new restartInterval)).restarts.length < 2 ^ 32 := by
    have := Nat.le_mul_of_pos_right
      ((pairs.foldl addPair (new restartInterval)).restarts.length - 1)
      (show 0 < max restartInterval 1 by omega)
    omega
  have hcountRead : leValue ((pairs.foldl addPair (new restartInterval)).finish.slice
      ((pairs.foldl addPair (new restartInterval)).finish.length - 4) 4) =
      (pairs.foldl addPair (new restartInterval)).restarts.length := by
    obtain ⟨-, hread, -⟩ := read_le (by decide) (Nat.mod_lt _ (by decide)) drop_finish_count
    rw [length_finish, Nat.add_sub_cancel, hread]
    exact Nat.mod_eq_of_lt hcount
  have hnew := Block.new_of_restarts
    (r := fun j => (after restartInterval pairs (j * max restartInterval 1)).buffer.length)
    length_finish.symm hcountRead hcountPos (fun j hj => restart_finish hfit hj) (by simp [new])
    (fun j hj => @after_length restartInterval pairs ▸
      after_buffer_le (hgroup j hj))
    (fun j _ => after_buffer_le (Nat.mul_le_mul_right _ (Nat.le_succ j)))
  refine ⟨_, hnew, ?_, Nat.zero_mul _, fun i j hij _ => Nat.mul_le_mul_right _ hij,
    fun hpairs j hj => ?_, fun j hj => ?_⟩
  · exact reads_foldl (fits_of_sum_pairSize hfit) (new restartInterval) [] take_finish rfl (.inr rfl)
  · -- a group that starts before the last one starts before the end of the pairs
    have hj' : j < (pairs.foldl addPair (new restartInterval)).restarts.length := hj
    have := Nat.mul_le_mul_right (max restartInterval 1) (Nat.le_sub_one_of_lt hj')
    have := hcounter (List.length_pos_of_ne_nil hpairs)
    omega
  · rw [Block.restartPoint]
    dsimp only
    rw [restart_finish hfit hj]
    refine reads_after_restart (fits_of_sum_pairSize hfit) ?_ rfl (hgroup j hj)
    exact take_finish

end Build

/-! ## A value of `2^32` bytes -/

/-- A value length that wraps to `0`: the entry is the one of an empty value, followed by the
value. -/
theorem encodeEntry_of_length_wrap {value : Bytes} (hlen : value.length % 2 ^ 32 = 0) :
    encodeEntry 0 [] value = encodeEntry 0 [] [] ++ value := by
  rw [encodeEntry, encodeEntry, hlen]
  simp

/-- A value of `2^32` bytes after an empty key: `Block::new` accepts the block, and iteration
starts with an empty value. -/
theorem collect_build_of_length_wrap (restartInterval : Nat) {value : Bytes}
    (hlen : value.length = 2 ^ 32) :
    ∃ b : Block, Block.new (build restartInterval [([], value)]) = .ok b ∧
      ∃ rest, Block.iter.collect b = ([], []) :: rest := by
  -- the one entry shares nothing and is written with a zero value length
  have hshared : (new restartInterval).sharedWith [] = 0 := by
    rw [sharedWith, if_pos (by simp [new]), sharedLoop, if_neg (by simp)]
  have hbb : build restartInterval [([], value)] = ((new restartInterval).add [] value).finish := rfl
  have hrestarts : ((new restartInterval).add [] value).restarts = [0] :=
    (add_of_lt (by simp [new])).1
  have hbuffer : ((new restartInterval).add [] value).buffer = encodeEntry 0 [] [] ++ value := by
    rw [add_buffer, hshared, encodeEntry_of_length_wrap (by rw [hlen]; rfl)]
    rfl
  have hcount : leValue (((new restartInterval).add [] value).finish.slice
      (((new restartInterval).add [] value).finish.length - 4) 4) = 1 := by
    obtain ⟨-, hread, -⟩ := read_le (by decide) (Nat.mod_lt _ (by decide)) drop_finish_count
    rw [length_finish, Nat.add_sub_cancel, hread, hrestarts]
    rfl
  have hrestart : ∀ i, i < 1 → leValue (((new restartInterval).add [] value).finish.slice
      (((new restartInterval).add [] value).buffer.length + i * 4) 4) = 0 := by
    intro i hi
    obtain rfl : i = 0 := by omega
    have hj : 0 < ((new restartInterval).add [] value).restarts.length := by simp [hrestarts]
    obtain ⟨-, hread, -⟩ := read_le (by decide) (by simp [hrestarts]) (drop_finish_restart hj)
    rw [hread]
    simp [hrestarts]
  have hnew := Block.new_of_restarts (r := fun _ => 0)
    (length_finish.trans (by rw [hrestarts]; rfl)).symm hcount Nat.one_pos hrestart rfl
    (fun _ _ => Nat.zero_le _) (fun _ _ => Nat.le_refl _)
  refine ⟨_, by rw [hbb]; exact hnew, ?_⟩
  -- the first entry is the three zero lengths, the value bytes come after it
  have hentry : decodeEntryAt (encodeEntry 0 [] [] ++ value) 0 [] =
      .ok ([], [], 0 + (encodeEntry 0 [] []).length) :=
    decodeEntryAt_of_eq (Nat.zero_le _) (Nat.zero_le _) rfl (by decide) (by decide) rfl
  have hdata : decodeEntryAt (((new restartInterval).add [] value).finish.take
      ((new restartInterval).add [] value).buffer.length) 0 [] =
      .ok ([], [], 0 + (encodeEntry 0 [] []).length) := by
    rw [take_finish, hbuffer]
    exact hentry
  have hpos : 0 < ((new restartInterval).add [] value).buffer.length := by
    rw [hbuffer, List.length_append, hlen]
    omega
  exact ⟨_, BlockIterator.collect_of_decode rfl hpos hdata⟩

end BlockBuilder

/-- **The data-block round trip and seeks**: a `u32` varint reads back; a block built from pairs
that take, with their length fields, fewer than `2^32` bytes is accepted by `Block::new` and
iterates back the pairs, and under every lawful comparator the keys increase under, `seek_by` and
`seek_for_prev_by` find the first pair not below and the last pair not above the target. -/
theorem data_block_roundtrip :
    (∀ x : Nat, x < 2 ^ 32 → ∀ rest : Bytes,
      decodeVarint (encodeVarint x ++ rest) = .ok (x, (encodeVarint x).length)) ∧
    ∀ (restartInterval : Nat) (pairs : List (Bytes × Bytes)),
      (pairs.map BlockBuilder.pairSize).sum < 2 ^ 32 →
      ∃ b : Block, Block.new (BlockBuilder.build restartInterval pairs) = .ok b ∧
        Block.iter.collect b = pairs ∧
        ∀ (compare : Bytes → Bytes → Ordering) [Std.TransCmp compare],
          pairs.Pairwise (fun p q => compare p.1 q.1 = .lt) → ∀ target : Bytes,
            b.seekBy target compare = .ok (pairs.find? fun p => compare p.1 target != .lt) ∧
            b.seekForPrevBy target compare =
              .ok ((pairs.filter fun p => compare p.1 target != .gt).getLast?) := by
  refine ⟨fun x hx rest => decodeVarint_encodeVarint hx rest, fun restartInterval pairs hfit => ?_⟩
  obtain ⟨b, hnew, hreads, hr⟩ := BlockBuilder.build_spec restartInterval pairs hfit
  refine ⟨b, hnew, BlockIterator.collect_of_reads hreads Block.iter rfl rfl rfl, ?_⟩
  intro compare _ hsorted target
  exact ⟨Block.seekBy_eq hsorted hreads hr, Block.seekForPrevBy_eq hsorted hreads hr⟩

theorem data_block_roundtrip_sample :
    decodeVarint (encodeVarint 300 ++ [7]) = .ok (300, (encodeVarint 300).length) ∧
    ∃ b : Block, Block.new (BlockBuilder.build 2
        [([0x61], [0x31]), ([0x61, 0x62], [0x32]), ([0x62], [0x33])]) = .ok b ∧
      Block.iter.collect b = [([0x61], [0x31]), ([0x61, 0x62], [0x32]), ([0x62], [0x33])] :=
  ⟨data_block_roundtrip.1 300 (by decide) [7],
    (data_block_roundtrip.2 2 _ (by decide)).imp fun _ h => ⟨h.1, h.2.1⟩⟩

/-- One pair, an empty key with a value of `2^32` zero bytes: `Block::new` accepts the block, and
iteration does not give the pair back. -/
theorem build_long_value_not_collected :
    ∃ b : Block, Block.new (BlockBuilder.build 16 [([], List.replicate (2 ^ 32) 0)]) = .ok b ∧
      Block.iter.collect b ≠ [([], List.replicate (2 ^ 32) 0)] := by
  obtain ⟨b, hnew, rest, hcollect⟩ :=
    BlockBuilder.collect_build_of_length_wrap 16 (List.length_replicate (n := 2 ^ 32) (a := 0))
  refine ⟨b, hnew, ?_⟩
  rw [hcollect]
  intro h
  -- the first entry would carry the whole value
  have hvalue : ([] : Bytes) = List.replicate (2 ^ 32) 0 := (Prod.mk.inj (List.cons.inj h).1).2
  have hlen := congrArg List.length hvalue
  rw [List.length_replicate, List.length_nil] at hlen
  exact (Nat.two_pow_pos 32).ne hlen

end Mmdb
