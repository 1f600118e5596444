import Mathlib
import Mmdb.Lib.LinkChain
import Mmdb.Lib.Sort

/-!
# The arena skiplist behind the memtable

`ConcurrentSkipList` keeps its nodes in an arena; a pointer is a node's index there and the null
pointer is `none`. Every node carries a tower of `MAX_HEIGHT` forward links, of which the first
`height` are in use, and the list keeps one head link per level, a tail pointer, a count and
the current maximum height. `insert` takes the height as an argument: `random_height` draws it
from a thread-local generator, and every height in `1..=MAX_HEIGHT` is allowed here.

**The representation invariant** (`Wf s order key`): `order` lists every node of the arena once,
in strictly ascending key order; level `i` links exactly the nodes of `order` whose tower reaches
`i`, in the same order (`levelList`), so level `0` links all of them and each level is a sublist
of the one below; `tail` is the last node of `order`; no tower is taller than `max_height`.

`Wf.insert` is the step: inserting a key that no node holds links the new node into every level
its tower reaches, right after the last node with a smaller key, and keeps the invariant; the
predecessor search finds each level's last node below the key (`Wf.findPredecessors_eq`) and the
linking loop splices the node in level by level (`Wf.linkLoop_spec`). `Wf.foldl_insert` runs it
over a whole sequence of inserts. Over a well-formed list, the descent every search makes ends at
the last node with a key below the target (`Wf.descend_eq`), from which:

* `seek_ge_raw` and `lower_bound` find the first node whose key is at least the target;
* `seek_lt_raw` the last node below it, and `seek_le_raw` the last node at or below it;
* `collect_all` reads the nodes of level `0` in order (`Wf.collectAll_eq`).

`Wf.collectAll_insert` states the insert abstractly: the entries of level `0` take the new pair by
`List.orderedInsert` on keys. `insertAll_spec` gathers it all for every run of inserts from `new`.
-/

namespace Mmdb.SkipListImpl

/-- `MAX_HEIGHT`: the number of links in a node's tower. -/
def maxHeight : Nat := 12

/-- A node: its key and value, its height, and a `next` link per level. -/
structure Node (K V : Type) where
  key : K
  value : V
  height : Nat
  next : Vector (Option Nat) SkipListImpl.maxHeight

/-- `ConcurrentSkipList`: a head link per level, the tail, the count, the current maximum height,
and the arena of nodes (which is also `all_nodes`). -/
structure ConcurrentSkipList (K V : Type) where
  head : Vector (Option Nat) SkipListImpl.maxHeight
  tail : Option Nat
  len : Nat
  maxHeight : Nat
  nodes : List (Node K V)

namespace ConcurrentSkipList

variable {K V : Type}

/-- `ConcurrentSkipList::new`. -/
def new : ConcurrentSkipList K V where
  head := Vector.replicate _ none
  tail := none
  len := 0
  maxHeight := 1
  nodes := []

/-! ## Reading links -/

/-- `head[level]`. -/
def headAt (s : ConcurrentSkipList K V) (level : Nat) : Option Nat := s.head[level]?.join

/-- `node.next[level]` of the node a pointer names. -/
def nextAt (s : ConcurrentSkipList K V) (level p : Nat) : Option Nat :=
  (s.nodes[p]?).bind fun node => node.next[level]?.join

/-- Where a walk along `level` goes from `current`: the head of the level from the null pointer,
else the link out of `current`. -/
def successor (s : ConcurrentSkipList K V) (level : Nat) : Option Nat → Option Nat
  | none => s.headAt level
  | some p => s.nextAt level p

/-- The height of the node a pointer names. -/
def heightOf (s : ConcurrentSkipList K V) (p : Nat) : Nat := (s.nodes[p]?).elim 0 Node.height

/-- The nodes of `order` whose tower reaches `level`, in that order: the list level `level` is to
link. -/
def levelList (s : ConcurrentSkipList K V) (order : List Nat) (level : Nat) : List Nat :=
  order.filter fun p => decide (level < s.heightOf p)

/-- `node_kv`: the key and value of the node a pointer names. -/
def nodeKv (s : ConcurrentSkipList K V) (p : Nat) : Option (K × V) :=
  (s.nodes[p]?).map fun node => (node.key, node.value)

/-! ## Updating links -/

/-- `p.next[level].store(link)`. -/
def setNext (s : ConcurrentSkipList K V) (p level : Nat) (link : Option Nat) :
    ConcurrentSkipList K V :=
  { s with
    nodes := s.nodes.modify p fun node => { node with next := node.next.setIfInBounds level link } }

/-- Link the node `newNode` into `level` after `prevNode`, or at the head when it is null. -/
def linkLevel (s : ConcurrentSkipList K V) (newNode level : Nat) :
    Option Nat → ConcurrentSkipList K V
  | none =>
    let oldHead := s.headAt level
    let s := s.setNext newNode level oldHead
    { s with head := s.head.setIfInBounds level (some newNode) }
  | some p =>
    let oldNext := s.nextAt level p
    let s := s.setNext newNode level oldNext
    s.setNext p level (some newNode)

/-! ## What a link update changes

A store into a tower changes one link and nothing else: keys, values, heights and the arena's
size stay, and so does every other link. -/

section Frame

variable {s : ConcurrentSkipList K V} {q level i p : Nat} {link : Option Nat}

@[simp] theorem length_setNext : (s.setNext q level link).nodes.length = s.nodes.length := by
  simp [setNext]

@[simp] theorem headAt_setNext : (s.setNext q level link).headAt i = s.headAt i := rfl

@[simp] theorem heightOf_setNext : (s.setNext q level link).heightOf p = s.heightOf p := by
  simp only [heightOf, setNext, List.getElem?_modify]
  cases s.nodes[p]? <;> simp only [Option.map_eq_map, Option.map_none, Option.map_some,
    Option.elim_none, Option.elim_some]
  split <;> rfl

@[simp] theorem nodeKv_setNext : (s.setNext q level link).nodeKv p = s.nodeKv p := by
  simp only [nodeKv, setNext, List.getElem?_modify]
  cases s.nodes[p]? <;> simp only [Option.map_eq_map, Option.map_none, Option.map_some]
  split <;> rfl

theorem nextAt_setNext (hq : q < s.nodes.length) (hlevel : level < SkipListImpl.maxHeight) :
    (s.setNext q level link).nextAt i p = if p = q ∧ i = level then link else s.nextAt i p := by
  simp only [nextAt, setNext, List.getElem?_modify]
  by_cases hp : p = q
  · subst hp
    obtain ⟨node, hnode⟩ : ∃ node, s.nodes[p]? = some node := ⟨_, List.getElem?_eq_getElem hq⟩
    by_cases hi : i = level
    · subst hi
      simp [hnode, hlevel]
    · simp [hnode, Ne.symm hi, hi]
  · simp [Ne.symm hp, hp]

/-- The links after `linkLevel`: on its level, the new node points where the predecessor (or the
head) pointed, and the predecessor (or the head) points at the new node. -/
theorem nextAt_linkLevel {x : Nat} {prev : Option Nat} (hx : x < s.nodes.length)
    (hprev : ∀ p ∈ prev, p < s.nodes.length ∧ p ≠ x) (hlevel : level < SkipListImpl.maxHeight) :
    (s.linkLevel x level prev).nextAt i p =
      if i = level then
        (if p = x then s.successor level prev else if some p = prev then some x else s.nextAt i p)
      else s.nextAt i p := by
  cases prev with
  | none =>
    simp only [linkLevel]
    change (s.setNext x level (s.headAt level)).nextAt i p = _
    rw [nextAt_setNext hx hlevel]
    by_cases hi : i = level <;> by_cases hp : p = x <;> simp [hi, hp, successor]
  | some q =>
    obtain ⟨hq, hqx⟩ := hprev q rfl
    simp only [linkLevel]
    rw [nextAt_setNext (by simpa using hq) hlevel, nextAt_setNext hx hlevel]
    by_cases hi : i = level <;> by_cases hp : p = x <;> by_cases hpq : p = q <;>
      simp_all [successor]

theorem headAt_linkLevel {x : Nat} {prev : Option Nat} (hlevel : level < SkipListImpl.maxHeight) :
    (s.linkLevel x level prev).headAt i =
      if i = level ∧ prev = none then some x else s.headAt i := by
  cases prev with
  | none =>
    simp only [linkLevel, headAt]
    by_cases hi : i = level
    · subst hi
      simp [hlevel]
    · simp [setNext, Ne.symm hi, hi]
  | some q => simp [linkLevel]

@[simp] theorem length_linkLevel {x : Nat} {prev : Option Nat} :
    (s.linkLevel x level prev).nodes.length = s.nodes.length := by
  cases prev <;> simp [linkLevel]

@[simp] theorem heightOf_linkLevel {x : Nat} {prev : Option Nat} :
    (s.linkLevel x level prev).heightOf p = s.heightOf p := by
  cases prev with
  | none => exact heightOf_setNext (s := s)
  | some q => simp [linkLevel]

@[simp] theorem nodeKv_linkLevel {x : Nat} {prev : Option Nat} :
    (s.linkLevel x level prev).nodeKv p = s.nodeKv p := by
  cases prev with
  | none => exact nodeKv_setNext (s := s)
  | some q => simp [linkLevel]

@[simp] theorem tail_linkLevel {x : Nat} {prev : Option Nat} :
    (s.linkLevel x level prev).tail = s.tail := by
  cases prev <;> rfl

@[simp] theorem len_linkLevel {x : Nat} {prev : Option Nat} :
    (s.linkLevel x level prev).len = s.len := by
  cases prev <;> rfl

@[simp] theorem maxHeight_linkLevel {x : Nat} {prev : Option Nat} :
    (s.linkLevel x level prev).maxHeight = s.maxHeight := by
  cases prev <;> rfl

/-! The linking loop of `insert` only stores links: whatever one link store leaves unchanged, the
whole loop leaves unchanged. -/

theorem foldl_linkLevel_eq {β : Type} (g : ConcurrentSkipList K V → β) {x : Nat}
    (hg : ∀ (t : ConcurrentSkipList K V) level prev, g (t.linkLevel x level prev) = g t)
    (f : Nat → Option Nat) (levels : List Nat) :
    g (levels.foldl (fun t level => t.linkLevel x level (f level)) s) = g s := by
  induction levels generalizing s with
  | nil => rfl
  | cons level levels ih => rw [List.foldl_cons, ih, hg]

@[simp] theorem length_foldl_linkLevel (x : Nat) (f : Nat → Option Nat) (levels : List Nat) :
    (levels.foldl (fun t level => t.linkLevel x level (f level)) s).nodes.length =
      s.nodes.length :=
  foldl_linkLevel_eq (fun t => t.nodes.length) (fun _ _ _ => length_linkLevel) f levels

@[simp] theorem heightOf_foldl_linkLevel (x : Nat) (f : Nat → Option Nat) (levels : List Nat) :
    (levels.foldl (fun t level => t.linkLevel x level (f level)) s).heightOf p = s.heightOf p :=
  foldl_linkLevel_eq (fun t => t.heightOf p) (fun _ _ _ => heightOf_linkLevel) f levels

@[simp] theorem nodeKv_foldl_linkLevel (x : Nat) (f : Nat → Option Nat) (levels : List Nat) :
    (levels.foldl (fun t level => t.linkLevel x level (f level)) s).nodeKv p = s.nodeKv p :=
  foldl_linkLevel_eq (fun t => t.nodeKv p) (fun _ _ _ => nodeKv_linkLevel) f levels

/-! Allocating a node appends it to the arena; the nodes before it read as they did. -/

section Push

variable {nd : Node K V}

theorem nextAt_push_of_lt (hp : p < s.nodes.length) :
    ({ s with nodes := s.nodes ++ [nd] } : ConcurrentSkipList K V).nextAt i p = s.nextAt i p := by
  simp only [nextAt, List.getElem?_append_left hp]

theorem heightOf_push_of_lt (hp : p < s.nodes.length) :
    ({ s with nodes := s.nodes ++ [nd] } : ConcurrentSkipList K V).heightOf p = s.heightOf p := by
  simp only [heightOf, List.getElem?_append_left hp]

theorem nodeKv_push_of_lt (hp : p < s.nodes.length) :
    ({ s with nodes := s.nodes ++ [nd] } : ConcurrentSkipList K V).nodeKv p = s.nodeKv p := by
  simp only [nodeKv, List.getElem?_append_left hp]

theorem heightOf_push_self :
    ({ s with nodes := s.nodes ++ [nd] } : ConcurrentSkipList K V).heightOf s.nodes.length =
      nd.height := by
  simp [heightOf]

theorem nodeKv_push_self :
    ({ s with nodes := s.nodes ++ [nd] } : ConcurrentSkipList K V).nodeKv s.nodes.length =
      some (nd.key, nd.value) := by
  simp [nodeKv]

theorem nodeKv_push :
    ({ s with nodes := s.nodes ++ [nd] } : ConcurrentSkipList K V).nodeKv p =
      if p = s.nodes.length then some (nd.key, nd.value) else s.nodeKv p := by
  rcases lt_trichotomy p s.nodes.length with hp | rfl | hp
  · rw [if_neg (ne_of_lt hp), nodeKv_push_of_lt hp]
  · rw [if_pos rfl, nodeKv_push_self]
  · have hlen : (s.nodes ++ [nd]).length ≤ p := by
      rw [List.length_append, List.length_singleton]
      omega
    rw [if_neg (ne_of_gt hp)]
    simp only [nodeKv, List.getElem?_eq_none hlen, List.getElem?_eq_none (Nat.le_of_lt hp)]

end Push

end Frame

/-- Where a walk goes from the last node of a prefix of a level: past the prefix. -/
theorem successor_getLast? (s : ConcurrentSkipList K V) (level : Nat) (A : List Nat) :
    s.successor level A.getLast? = LinkChain.after (s.nextAt level) (s.headAt level) A := by
  unfold LinkChain.after
  cases A.getLast? <;> rfl

/-- Each level's list is a sublist of the one below it. -/
theorem levelList_sublist (s : ConcurrentSkipList K V) (order : List Nat) (level : Nat) :
    (s.levelList order (level + 1)).Sublist (s.levelList order level) :=
  List.monotone_filter_right order fun p hp => by
    simp only [decide_eq_true_eq] at hp ⊢
    omega

/-! ## Comparing keys -/

variable [LinearOrder K]

/-- `node.key < target` for the node a pointer names. -/
def keyLt (s : ConcurrentSkipList K V) (target : K) (p : Nat) : Bool :=
  (s.nodes[p]?).any fun node => decide (node.key < target)

section Frame

variable {s : ConcurrentSkipList K V} {q level p : Nat} {link : Option Nat} {target : K}

@[simp] theorem keyLt_setNext : (s.setNext q level link).keyLt target p = s.keyLt target p := by
  simp only [keyLt, setNext, List.getElem?_modify]
  cases s.nodes[p]? <;> simp only [Option.map_eq_map, Option.map_none, Option.map_some,
    Option.any_none, Option.any_some]
  split <;> rfl

@[simp] theorem keyLt_linkLevel {x : Nat} {prev : Option Nat} :
    (s.linkLevel x level prev).keyLt target p = s.keyLt target p := by
  cases prev with
  | none => exact keyLt_setNext (s := s)
  | some q => simp [linkLevel]

end Frame

/-- The inner loop of every descent: along `level`, from `current`, advance while the next node's
key is below `target`; the arena size bounds the steps. -/
def walkLevel (s : ConcurrentSkipList K V) (level : Nat) (target : K) (current : Option Nat) :
    Option Nat :=
  LinkChain.walk (s.nextAt level) (s.keyLt target) s.nodes.length current
    (s.successor level current)

/-! ## Insertion -/

/-- The predecessor search of `insert`, for the levels below `level`: each level starts from the
predecessor found on the level above (the head when there is none) and records its own in
`prev`. -/
def findPredecessors (s : ConcurrentSkipList K V) (key : K) (maxH : Nat) :
    Nat → Vector (Option Nat) SkipListImpl.maxHeight → Vector (Option Nat) SkipListImpl.maxHeight
  | 0, prev => prev
  | level + 1, prev =>
    let current := if decide (level + 1 < maxH) && (prev[level + 1]?.join).isSome
      then prev[level + 1]?.join else none
    s.findPredecessors key maxH level (prev.setIfInBounds level (s.walkLevel level key current))

/-- `ConcurrentSkipList::insert`, with the height `random_height` would draw. -/
def insert (s : ConcurrentSkipList K V) (key : K) (value : V) (height : Nat) :
    ConcurrentSkipList K V :=
  let curMax := s.maxHeight
  let s := if height > curMax then { s with maxHeight := height } else s
  let maxH := max height curMax
  let prev := s.findPredecessors key maxH maxH (Vector.replicate _ none)
  let newNode := s.nodes.length
  let s := { s with
    nodes := s.nodes ++ [({ key, value, height, next := Vector.replicate _ none } : Node K V)] }
  let s := (List.range height).foldl (fun s level => s.linkLevel newNode level prev[level]?.join) s
  -- the new node is the tail when nothing follows it on level 0
  let s := if (s.nextAt 0 newNode).isNone then { s with tail := some newNode } else s
  { s with len := s.len + 1 }

/-! ## Searches -/

/-- The descent shared by `lower_bound`, `seek_ge_raw` and `seek_lt_raw`: walk each level below
`level`, from the top, starting where the level above stopped. -/
def descend (s : ConcurrentSkipList K V) (target : K) : Nat → Option Nat → Option Nat
  | 0, current => current
  | level + 1, current => s.descend target level (s.walkLevel level target current)

/-- `seek_ge_raw`: the descent, then a walk along level 0 to the first node whose key is at least
`target`. -/
def seekGeRaw (s : ConcurrentSkipList K V) (target : K) : Option Nat :=
  let current := s.descend target s.maxHeight none
  LinkChain.scan (s.nextAt 0) (fun p => !s.keyLt target p) s.nodes.length (s.successor 0 current)

/-- `lower_bound`: the same descent and walk as `seek_ge_raw`, returning the node's key and
value. -/
def lowerBound (s : ConcurrentSkipList K V) (target : K) : Option (K × V) :=
  (s.seekGeRaw target).bind s.nodeKv

/-- `seek_lt_raw`: where the descent stops. -/
def seekLtRaw (s : ConcurrentSkipList K V) (target : K) : Option Nat :=
  if s.maxHeight = 0 then none else s.descend target s.maxHeight none

/-- `seek_le_raw`: the node `seek_ge_raw` finds if its key is `target`, else `seek_lt_raw`. -/
def seekLeRaw (s : ConcurrentSkipList K V) (target : K) : Option Nat :=
  match s.seekGeRaw target with
  | some p => if (s.nodeKv p).any (fun kv => decide (kv.1 = target)) then some p else s.seekLtRaw target
  | none => s.seekLtRaw target

/-- `head_ptr`. -/
def headPtr (s : ConcurrentSkipList K V) : Option Nat := s.headAt 0

/-- `tail_ptr`. -/
def tailPtr (s : ConcurrentSkipList K V) : Option Nat := s.tail

/-- `node_next0`. -/
def nodeNext0 (s : ConcurrentSkipList K V) (p : Nat) : Option Nat := s.nextAt 0 p

/-- `collect_all`: the entries along level 0. -/
def collectAll (s : ConcurrentSkipList K V) : List (K × V) :=
  (LinkChain.collect (s.nextAt 0) s.nodes.length (s.headAt 0)).filterMap s.nodeKv

/-- The nodes a walk along `level` visits from the level's head, in order; `collect_all` reads
them on level `0`. -/
def linkedAt (s : ConcurrentSkipList K V) (level : Nat) : List Nat :=
  LinkChain.collect (s.nextAt level) s.nodes.length (s.headAt level)

/-! ## The representation invariant -/

/-- `Wf s order key`: `order` lists the arena's nodes, each once, in strictly ascending order of
the keys `key` gives them; every level links the nodes of `order` its towers reach; the tail is
the last node; towers are between `1` and `max_height` high, and `max_height` is at most
`MAX_HEIGHT`. -/
structure Wf (s : ConcurrentSkipList K V) (order : List Nat) (key : Nat → K) : Prop where
  perm : order.Perm (List.range s.nodes.length)
  key_eq : ∀ p ∈ order, (s.nodeKv p).map Prod.fst = some (key p)
  sorted : order.Pairwise fun a b => key a < key b
  height_pos : ∀ p ∈ order, 0 < s.heightOf p
  height_le : ∀ p ∈ order, s.heightOf p ≤ s.maxHeight
  maxHeight_pos : 0 < s.maxHeight
  maxHeight_le : s.maxHeight ≤ SkipListImpl.maxHeight
  chain : ∀ level < SkipListImpl.maxHeight,
    LinkChain.Chain (s.nextAt level) (s.headAt level) (s.levelList order level)
  tail_eq : s.tail = order.getLast?
  len_eq : s.len = s.nodes.length

theorem wf_new (key : Nat → K) : Wf (new : ConcurrentSkipList K V) [] key where
  perm := List.Perm.refl _
  key_eq := by simp
  sorted := List.Pairwise.nil
  height_pos := by simp
  height_le := by simp
  maxHeight_pos := Nat.one_pos
  maxHeight_le := by simp [new, SkipListImpl.maxHeight]
  chain level _ := by
    have hhead : (new : ConcurrentSkipList K V).headAt level = none := by
      simp only [headAt, new, Vector.getElem?_replicate]
      split <;> rfl
    rw [hhead]
    exact LinkChain.Chain.nil
  tail_eq := rfl
  len_eq := rfl

/-- The last node of level `level` whose key is below `target`. -/
def lastBelow (s : ConcurrentSkipList K V) (order : List Nat) (target : K) (level : Nat) :
    Option Nat :=
  ((s.levelList order level).filter (s.keyLt target)).getLast?

namespace Wf

variable {s : ConcurrentSkipList K V} {order : List Nat} {key : Nat → K}

theorem lt_length (h : Wf s order key) {p : Nat} (hp : p ∈ order) : p < s.nodes.length :=
  List.mem_range.mp (h.perm.subset hp)

theorem nodup (h : Wf s order key) : order.Nodup :=
  h.perm.nodup_iff.mpr List.nodup_range

theorem length_eq (h : Wf s order key) : order.length = s.nodes.length := by
  rw [h.perm.length_eq, List.length_range]

theorem keyLt_eq (h : Wf s order key) {p : Nat} (hp : p ∈ order) (target : K) :
    s.keyLt target p = decide (key p < target) := by
  have hk := h.key_eq p hp
  unfold keyLt
  unfold nodeKv at hk
  cases hnode : s.nodes[p]? with
  | none => simp [hnode] at hk
  | some node =>
    simp only [hnode, Option.map_some, Option.some.injEq] at hk
    simp [hk]

theorem levelList_zero (h : Wf s order key) : s.levelList order 0 = order :=
  List.filter_eq_self.mpr fun p hp => by simpa using h.height_pos p hp

theorem levelList_eq_nil (h : Wf s order key) {level : Nat} (hlevel : s.maxHeight ≤ level) :
    s.levelList order level = [] :=
  List.filter_eq_nil_iff.mpr fun p hp => by simpa using le_trans (h.height_le p hp) hlevel

theorem length_levelList_le (h : Wf s order key) (level : Nat) :
    (s.levelList order level).length ≤ s.nodes.length :=
  h.length_eq ▸ List.length_filter_le _ _

/-- Along a level, a node below the target has only nodes below the target before it. -/
theorem pairwise_keyLt (h : Wf s order key) (level : Nat) (target : K) :
    (s.levelList order level).Pairwise fun a b => s.keyLt target b → s.keyLt target a := by
  refine (h.sorted.sublist List.filter_sublist).imp_of_mem fun ha hb hab hbt => ?_
  have ha' := List.mem_of_mem_filter ha
  have hb' := List.mem_of_mem_filter hb
  rw [h.keyLt_eq ha', decide_eq_true_eq]
  rw [h.keyLt_eq hb', decide_eq_true_eq] at hbt
  exact lt_trans hab hbt

/-- One level of a descent: from the head, or from a node of the level below the target, the walk
stops at the level's last node below the target. -/
theorem walkLevel_eq (h : Wf s order key) {level : Nat} (hlevel : level < SkipListImpl.maxHeight)
    {target : K} {current : Option Nat}
    (hcur : ∀ c ∈ current, c ∈ s.levelList order level ∧ s.keyLt target c) :
    s.walkLevel level target current =
      ((s.levelList order level).filter (s.keyLt target)).getLast? := by
  have hsorted := h.pairwise_keyLt level target
  -- cut the level after `current`: everything up to it is below the target
  obtain ⟨A, R, hsplit, hcurA, hA⟩ : ∃ A R, s.levelList order level = A ++ R ∧
      current = A.getLast? ∧ ∀ a ∈ A, s.keyLt target a := by
    cases current with
    | none => exact ⟨[], _, rfl, rfl, by simp⟩
    | some c =>
      obtain ⟨hc, hck⟩ := hcur c rfl
      obtain ⟨X, R, hXR⟩ := List.append_of_mem hc
      refine ⟨X ++ [c], R, by simp [hXR], by simp, ?_⟩
      rw [hXR, List.pairwise_append] at hsorted
      intro a ha
      rcases List.mem_append.mp ha with haX | hac
      · exact hsorted.2.2 a haX c List.mem_cons_self hck
      · rw [List.mem_singleton.mp hac]
        exact hck
  have hrest := (h.chain level hlevel)
  rw [hsplit] at hrest
  have hfuel : R.length ≤ s.nodes.length := by
    have := h.length_levelList_le level
    rw [hsplit, List.length_append] at this
    omega
  unfold walkLevel
  rw [hcurA, successor_getLast?, LinkChain.walk_chain hrest.drop hfuel hA, ← hsplit,
    hsorted.takeWhile_eq_filter fun _ _ hab => hab]

/-- A level's walk from where the level above stopped stops at the level's last node below the
target. -/
theorem walkLevel_lastBelow (h : Wf s order key) {level : Nat}
    (hlevel : level < SkipListImpl.maxHeight) (target : K) :
    s.walkLevel level target (s.lastBelow order target (level + 1)) =
      s.lastBelow order target level := by
  apply h.walkLevel_eq hlevel
  intro c hc
  have hmem := List.mem_filter.mp (List.mem_of_getLast? hc)
  exact ⟨(s.levelList_sublist order level).subset hmem.1, hmem.2⟩

/-- The descent: started on a level from that level's last node below the target, it ends at the
last node below the target on level 0. -/
theorem descend_eq (h : Wf s order key) (target : K) :
    ∀ level ≤ SkipListImpl.maxHeight,
      s.descend target level (s.lastBelow order target level) = s.lastBelow order target 0 := by
  intro level
  induction level with
  | zero => intro _; rfl
  | succ level ih =>
    intro hlevel
    rw [descend, h.walkLevel_lastBelow (by omega), ih (by omega)]

/-- From the top, where no level is linked yet, the descent stops at the last node below the
target. -/
theorem descend_maxHeight (h : Wf s order key) (target : K) :
    s.descend target s.maxHeight none = (order.filter (s.keyLt target)).getLast? := by
  have htop : s.lastBelow order target s.maxHeight = none := by
    simp [lastBelow, h.levelList_eq_nil le_rfl]
  rw [← htop, h.descend_eq target _ h.maxHeight_le, lastBelow, h.levelList_zero]

/-- Level 0 is its nodes below the target followed by the others. -/
theorem filter_append_filter (h : Wf s order key) (target : K) :
    order.filter (s.keyLt target) ++ order.filter (fun p => !s.keyLt target p) = order := by
  have hsplit := (h.pairwise_keyLt 0 target).filter_append_filter_not fun _ _ hab => hab
  rwa [h.levelList_zero] at hsplit

theorem find?_filter_not_keyLt (target : K) (l : List Nat) :
    (l.filter fun p => !s.keyLt target p).find? (fun p => !s.keyLt target p) =
      (l.filter fun p => !s.keyLt target p).head? := by
  cases hl : l.filter (fun p => !s.keyLt target p) with
  | nil => rfl
  | cons b l' =>
    have hmem : b ∈ l.filter (fun p => !s.keyLt target p) := by
      rw [hl]
      exact List.mem_cons_self
    have hb := (List.mem_filter.mp hmem).2
    rw [List.find?_cons_of_pos (p := fun p => !s.keyLt target p) hb, List.head?_cons]

theorem seekLtRaw_eq (h : Wf s order key) (target : K) :
    s.seekLtRaw target = (order.filter (s.keyLt target)).getLast? := by
  rw [seekLtRaw, if_neg (Nat.pos_iff_ne_zero.mp h.maxHeight_pos), h.descend_maxHeight]

theorem seekGeRaw_eq (h : Wf s order key) (target : K) :
    s.seekGeRaw target = (order.filter fun p => !s.keyLt target p).head? := by
  have hchain := h.chain 0 (by decide)
  rw [h.levelList_zero, ← h.filter_append_filter target] at hchain
  have hfuel : (order.filter fun p => !s.keyLt target p).length ≤ s.nodes.length :=
    h.length_eq ▸ List.length_filter_le _ _
  unfold seekGeRaw
  dsimp only
  rw [h.descend_maxHeight, successor_getLast?, LinkChain.scan_chain hchain.drop hfuel,
    find?_filter_not_keyLt]

theorem lowerBound_eq (h : Wf s order key) (target : K) :
    s.lowerBound target = (order.filter fun p => !s.keyLt target p).head?.bind s.nodeKv := by
  rw [lowerBound, h.seekGeRaw_eq]

theorem any_nodeKv (h : Wf s order key) {p : Nat} (hp : p ∈ order) (f : K → Bool) :
    (s.nodeKv p).any (fun kv => f kv.1) = f (key p) := by
  have hk := h.key_eq p hp
  cases hkv : s.nodeKv p with
  | none => simp [hkv] at hk
  | some kv =>
    simp only [hkv, Option.map_some, Option.some.injEq] at hk
    simp [hk]

/-- The nodes at or below the target are those below it and, if its key is the target, the first
of the others. -/
theorem filter_key_le (h : Wf s order key) (target : K) :
    order.filter (fun p => decide (key p ≤ target)) =
      order.filter (s.keyLt target) ++
        ((order.filter fun p => !s.keyLt target p).head?.filter
          fun p => decide (key p = target)).toList := by
  conv_lhs => rw [← h.filter_append_filter target]
  rw [List.filter_append]
  congr 1
  · refine List.filter_eq_self.mpr fun p hp => ?_
    have hp' := List.mem_filter.mp hp
    rw [h.keyLt_eq hp'.1, decide_eq_true_eq] at hp'
    exact decide_eq_true (le_of_lt hp'.2)
  · have hge : ∀ p ∈ order.filter (fun p => !s.keyLt target p), target ≤ key p := by
      intro p hp
      have hp' := List.mem_filter.mp hp
      rw [h.keyLt_eq hp'.1] at hp'
      simpa using hp'.2
    have hsorted : (order.filter fun p => !s.keyLt target p).Pairwise fun a b => key a < key b :=
      h.sorted.sublist List.filter_sublist
    cases hB : order.filter (fun p => !s.keyLt target p) with
    | nil => rfl
    | cons b B =>
      rw [hB] at hge hsorted
      have hbt := hge b List.mem_cons_self
      -- past the first, every key is above the target
      have hrest : B.filter (fun p => decide (key p ≤ target)) = [] :=
        List.filter_eq_nil_iff.mpr fun c hc hct =>
          absurd (lt_of_le_of_lt hbt ((List.pairwise_cons.mp hsorted).1 c hc))
            (not_lt.mpr (of_decide_eq_true hct))
      by_cases hbeq : key b = target
      · simp [hrest, hbeq, Option.filter]
      · have hbgt : ¬key b ≤ target := fun hle => hbeq (le_antisymm hle hbt)
        simp [hrest, hbeq, hbgt, Option.filter]

theorem seekLeRaw_eq (h : Wf s order key) (target : K) :
    s.seekLeRaw target = (order.filter fun p => decide (key p ≤ target)).getLast? := by
  rw [h.filter_key_le target]
  unfold seekLeRaw
  rw [h.seekGeRaw_eq, h.seekLtRaw_eq]
  cases hB : (order.filter fun p => !s.keyLt target p).head? with
  | none => simp
  | some b =>
    have hb : b ∈ order := List.mem_of_mem_filter (List.mem_of_mem_head? hB)
    dsimp only
    rw [h.any_nodeKv hb fun k => decide (k = target)]
    by_cases hbt : key b = target <;> simp [hbt, Option.filter]

theorem collectAll_eq (h : Wf s order key) : s.collectAll = order.filterMap s.nodeKv := by
  have hchain := h.chain 0 (by decide)
  rw [h.levelList_zero] at hchain
  rw [collectAll, LinkChain.collect_chain hchain h.length_eq.le]

end Wf

/-! ## Insertion keeps the invariant -/

/-- The first `j` rounds of the linking loop of `insert`. -/
def linkLoop (t : ConcurrentSkipList K V) (x : Nat)
    (prev : Vector (Option Nat) SkipListImpl.maxHeight) (j : Nat) : ConcurrentSkipList K V :=
  (List.range j).foldl (fun t level => t.linkLevel x level prev[level]?.join) t

omit [LinearOrder K] in
theorem linkLoop_succ (t : ConcurrentSkipList K V) (x : Nat)
    (prev : Vector (Option Nat) SkipListImpl.maxHeight) (j : Nat) :
    t.linkLoop x prev (j + 1) = (t.linkLoop x prev j).linkLevel x j prev[j]?.join := by
  simp [linkLoop, List.range_succ, List.foldl_append]

section LinkLoop

omit [LinearOrder K]

variable {t : ConcurrentSkipList K V} {x : Nat} {prev : Vector (Option Nat) SkipListImpl.maxHeight}
  {j p : Nat}

@[simp] theorem length_linkLoop : (t.linkLoop x prev j).nodes.length = t.nodes.length :=
  length_foldl_linkLevel ..

@[simp] theorem heightOf_linkLoop : (t.linkLoop x prev j).heightOf p = t.heightOf p :=
  heightOf_foldl_linkLevel ..

@[simp] theorem nodeKv_linkLoop : (t.linkLoop x prev j).nodeKv p = t.nodeKv p :=
  nodeKv_foldl_linkLevel ..

@[simp] theorem tail_linkLoop : (t.linkLoop x prev j).tail = t.tail :=
  foldl_linkLevel_eq (fun t => t.tail) (fun _ _ _ => tail_linkLevel) _ _

@[simp] theorem len_linkLoop : (t.linkLoop x prev j).len = t.len :=
  foldl_linkLevel_eq (fun t => t.len) (fun _ _ _ => len_linkLevel) _ _

@[simp] theorem maxHeight_linkLoop : (t.linkLoop x prev j).maxHeight = t.maxHeight :=
  foldl_linkLevel_eq (fun t => t.maxHeight) (fun _ _ _ => maxHeight_linkLevel) _ _

end LinkLoop

/-- `insert` in stages: raise `max_height`, push the new node to the arena, link it level by level,
then make it the tail if nothing follows it on level 0. -/
theorem insert_eq (s : ConcurrentSkipList K V) (k : K) (v : V) (height : Nat) :
    s.insert k v height =
      let s₁ := if height > s.maxHeight then { s with maxHeight := height } else s
      let t : ConcurrentSkipList K V :=
        { s₁ with nodes := s₁.nodes ++ [⟨k, v, height, Vector.replicate _ none⟩] }
      let u := t.linkLoop s₁.nodes.length
        (s₁.findPredecessors k s₁.maxHeight s₁.maxHeight (Vector.replicate _ none)) height
      { u with
        tail := if (u.nextAt 0 s₁.nodes.length).isNone then some s₁.nodes.length else u.tail
        len := u.len + 1 } := by
  unfold ConcurrentSkipList.insert
  by_cases hh : height > s.maxHeight
  · simp only [if_pos hh, max_eq_left (le_of_lt hh), linkLoop]
    split <;> rfl
  · simp only [if_neg hh, max_eq_right (not_lt.mp hh), linkLoop]
    split <;> rfl

/-- `insert` stores its pair in a new node at the end of the arena and changes no other entry. -/
theorem nodeKv_insert (s : ConcurrentSkipList K V) (k : K) (v : V) (height p : Nat) :
    (s.insert k v height).nodeKv p = if p = s.nodes.length then some (k, v) else s.nodeKv p := by
  rw [insert_eq]
  by_cases hh : height > s.maxHeight
  · rw [if_pos hh]
    exact nodeKv_linkLoop.trans nodeKv_push
  · rw [if_neg hh]
    exact nodeKv_linkLoop.trans nodeKv_push

namespace Wf

variable {s : ConcurrentSkipList K V} {order : List Nat} {key : Nat → K}

theorem raiseMaxHeight (h : Wf s order key) {m : Nat} (hle : s.maxHeight ≤ m)
    (hm : m ≤ SkipListImpl.maxHeight) : Wf { s with maxHeight := m } order key :=
  { h with
    height_le := fun p hp => le_trans (h.height_le p hp) hle
    maxHeight_pos := lt_of_lt_of_le h.maxHeight_pos hle
    maxHeight_le := hm }

/-- The predecessor search of `insert` records, for every level, the level's last node below the
new key. -/
theorem findPredecessors_eq (h : Wf s order key) (k : K) :
    ∀ level ≤ s.maxHeight, ∀ prev : Vector (Option Nat) SkipListImpl.maxHeight,
      (∀ i, level ≤ i → i < SkipListImpl.maxHeight → prev[i]?.join = s.lastBelow order k i) →
      ∀ i < SkipListImpl.maxHeight,
        (s.findPredecessors k s.maxHeight level prev)[i]?.join = s.lastBelow order k i := by
  intro level
  induction level with
  | zero =>
    intro _ prev hprev i hi
    exact hprev i (Nat.zero_le i) hi
  | succ level ih =>
    intro hlevel prev hprev
    have h12 := h.maxHeight_le
    -- the level starts where the level above stopped: at its last node below the key
    have hcur : (if decide (level + 1 < s.maxHeight) && (prev[level + 1]?.join).isSome
        then prev[level + 1]?.join else none) = s.lastBelow order k (level + 1) := by
      by_cases htop : level + 1 < s.maxHeight
      · rw [← hprev (level + 1) le_rfl (by omega)]
        cases prev[level + 1]?.join <;> simp [htop]
      · rw [lastBelow, h.levelList_eq_nil (by omega)]
        simp [htop]
    simp only [findPredecessors]
    rw [hcur]
    apply ih (by omega)
    intro i hi hi12
    rw [Vector.getElem?_setIfInBounds]
    by_cases hli : level = i
    · subst hli
      simp [hi12, h.walkLevel_lastBelow hi12]
    · rw [if_neg hli]
      exact hprev i (by omega) hi12

/-- Linking the new node into one level after the level's last node below its key splices it in
between the nodes below the key and the others. -/
theorem chain_linkLevel (h : Wf s order key) {t : ConcurrentSkipList K V} {level : Nat}
    (hlevel : level < SkipListImpl.maxHeight) (hlen : t.nodes.length = s.nodes.length + 1)
    (hnext : ∀ p < s.nodes.length, t.nextAt level p = s.nextAt level p)
    (hhead : t.headAt level = s.headAt level) (k : K) :
    LinkChain.Chain ((t.linkLevel s.nodes.length level (s.lastBelow order k level)).nextAt level)
      ((t.linkLevel s.nodes.length level (s.lastBelow order k level)).headAt level)
      ((s.levelList order level).filter (s.keyLt k) ++
        s.nodes.length :: (s.levelList order level).filter (fun p => !s.keyLt k p)) := by
  have hsplit := (h.pairwise_keyLt level k).filter_append_filter_not fun _ _ hab => hab
  have hold : ∀ p ∈ s.levelList order level, p < s.nodes.length :=
    fun p hp => h.lt_length (List.mem_of_mem_filter hp)
  have hnodup : (s.levelList order level).Nodup := h.nodup.sublist List.filter_sublist
  -- the level as `t` links it before the splice
  have hchain : LinkChain.Chain (t.nextAt level) (t.headAt level)
      ((s.levelList order level).filter (s.keyLt k) ++
        (s.levelList order level).filter (fun p => !s.keyLt k p)) := by
    rw [hsplit, hhead]
    exact (h.chain level hlevel).congr fun p hp => hnext p (hold p hp)
  have hprev : ∀ q ∈ s.lastBelow order k level, q < t.nodes.length ∧ q ≠ s.nodes.length := by
    intro q hq
    have hq' := hold q (List.mem_of_mem_filter (List.mem_of_getLast? hq))
    omega
  have hlinks := fun i p => nextAt_linkLevel (s := t) (i := i) (p := p) (by omega) hprev hlevel
  rw [headAt_linkLevel hlevel]
  unfold lastBelow at hlinks ⊢
  generalize hB : (s.levelList order level).filter (fun p => !s.keyLt k p) = B at hchain hsplit ⊢
  generalize hA : (s.levelList order level).filter (s.keyLt k) = A at hchain hsplit hlinks ⊢
  rw [← hsplit] at hold hnodup
  generalize hQ : A.getLast? = Q at hlinks ⊢
  cases Q with
  | none =>
    -- nothing below the key: the new node goes in front
    rw [List.getLast?_eq_none_iff.mp hQ, List.nil_append] at hchain hold ⊢
    simp only [and_self, if_true]
    apply hchain.splice_front
    · simp [hlinks, successor]
    · intro p hp
      have hpx : p ≠ s.nodes.length := Nat.ne_of_lt (hold p hp)
      simp [hlinks, hpx]
  | some q =>
    -- the new node goes right after `q`, the last node below the key
    obtain ⟨A', rfl⟩ := List.getLast?_eq_some_iff.mp hQ
    rw [List.append_assoc, List.singleton_append] at hchain hold hnodup ⊢
    have hqx : q ≠ s.nodes.length := Nat.ne_of_lt (hold q (by simp))
    have hnd := List.nodup_append.mp hnodup
    simp only [reduceCtorEq, and_false, if_false]
    apply hchain.splice_after
    · simp [hlinks, hqx]
    · simp [hlinks, successor]
    · intro a ha
      have hax : a ≠ s.nodes.length := Nat.ne_of_lt (hold a (by simp [ha]))
      have haq : a ≠ q := hnd.2.2 a ha q List.mem_cons_self
      simp [hlinks, hax, haq]
    · intro b hb
      have hbx : b ≠ s.nodes.length := Nat.ne_of_lt (hold b (by simp [hb]))
      have hbq : b ≠ q := fun hbq => (List.nodup_cons.mp hnd.2.1).1 (hbq ▸ hb)
      simp [hlinks, hbx, hbq]

/-- The linking loop of `insert`, round by round. `t` is the arena of `s` with the new node
`s.nodes.length` appended, and `prev` holds each level's last node below `k`. After `j` rounds the
levels from `j` up are linked as in `t`, and every level below `j` has the new node spliced in
after its last node below `k`. -/
theorem linkLoop_spec (h : Wf s order key) {t : ConcurrentSkipList K V}
    (hlen : t.nodes.length = s.nodes.length + 1)
    (hnext : ∀ level < SkipListImpl.maxHeight, ∀ p < s.nodes.length,
      t.nextAt level p = s.nextAt level p)
    (hhead : ∀ level < SkipListImpl.maxHeight, t.headAt level = s.headAt level) (k : K)
    {prev : Vector (Option Nat) SkipListImpl.maxHeight}
    (hprev : ∀ i < SkipListImpl.maxHeight, prev[i]?.join = s.lastBelow order k i) :
    ∀ j ≤ SkipListImpl.maxHeight,
      (∀ level < SkipListImpl.maxHeight, j ≤ level →
        (t.linkLoop s.nodes.length prev j).nextAt level = t.nextAt level ∧
        (t.linkLoop s.nodes.length prev j).headAt level = t.headAt level) ∧
      ∀ level < j, LinkChain.Chain ((t.linkLoop s.nodes.length prev j).nextAt level)
        ((t.linkLoop s.nodes.length prev j).headAt level)
        ((s.levelList order level).filter (s.keyLt k) ++
          s.nodes.length :: (s.levelList order level).filter (fun p => !s.keyLt k p)) := by
  intro j
  induction j with
  | zero =>
    intro _
    exact ⟨fun _ _ _ => ⟨rfl, rfl⟩, fun _ hlevel => absurd hlevel (Nat.not_lt_zero _)⟩
  | succ j ih =>
    intro hj
    obtain ⟨habove, hbelow⟩ := ih (by omega)
    have hulen : (t.linkLoop s.nodes.length prev j).nodes.length = s.nodes.length + 1 := by
      rw [length_linkLoop, hlen]
    have hlast : ∀ q ∈ s.lastBelow order k j,
        q < (t.linkLoop s.nodes.length prev j).nodes.length ∧ q ≠ s.nodes.length := by
      intro q hq
      have hq' := h.lt_length
        (List.mem_of_mem_filter (List.mem_of_mem_filter (List.mem_of_getLast? hq)))
      omega
    rw [linkLoop_succ, hprev j (by omega)]
    generalize t.linkLoop s.nodes.length prev j = u at habove hbelow hulen hlast ⊢
    -- round `j` links level `j` and leaves every other level as it was
    have hframe : ∀ level < SkipListImpl.maxHeight, level ≠ j →
        (u.linkLevel s.nodes.length j (s.lastBelow order k j)).nextAt level = u.nextAt level ∧
        (u.linkLevel s.nodes.length j (s.lastBelow order k j)).headAt level = u.headAt level := by
      intro level _ hne
      refine ⟨funext fun p => ?_, ?_⟩
      · rw [nextAt_linkLevel (i := level) (p := p) (by omega) hlast (by omega), if_neg hne]
      · rw [headAt_linkLevel (by omega), if_neg fun hc => hne hc.1]
    refine ⟨fun level hlevel hjl => ?_, fun level hlevel => ?_⟩
    · obtain ⟨hn, hh⟩ := hframe level hlevel (by omega)
      rw [hn, hh]
      exact habove level hlevel (by omega)
    · rcases Nat.lt_succ_iff_lt_or_eq.mp hlevel with hlt | rfl
      · obtain ⟨hn, hh⟩ := hframe level (by omega) (by omega)
        rw [hn, hh]
        exact hbelow level hlt
      · obtain ⟨hn, hh⟩ := habove level (by omega) le_rfl
        refine h.chain_linkLevel (by omega) hulen (fun p hp => ?_) ?_ k
        · rw [hn]
          exact hnext level (by omega) p hp
        · rw [hh]
          exact hhead level (by omega)

/-- The linking half of `insert`, on a list whose `max_height` already covers the new tower: the
new node `s.nodes.length`, pushed to the arena and linked into each level its tower reaches after
that level's last node below its key, goes into `order` right after the nodes below its key. -/
theorem insert_linked (h : Wf s order key) {k : K} {v : V} {height : Nat}
    (hfresh : ∀ p ∈ order, key p ≠ k) (hpos : 0 < height) (hle : height ≤ s.maxHeight) :
    let t : ConcurrentSkipList K V :=
      { s with nodes := s.nodes ++ [⟨k, v, height, Vector.replicate _ none⟩] }
    let u := t.linkLoop s.nodes.length
      (s.findPredecessors k s.maxHeight s.maxHeight (Vector.replicate _ none)) height
    Wf { u with
        tail := if (u.nextAt 0 s.nodes.length).isNone then some s.nodes.length else u.tail
        len := u.len + 1 }
      (order.filter (s.keyLt k) ++ s.nodes.length :: order.filter (fun p => !s.keyLt k p))
      (fun p => if p = s.nodes.length then k else key p) := by
  intro t u
  have h12 := h.maxHeight_le
  -- the predecessor search finds each level's last node below `k`
  have hprev : ∀ i < SkipListImpl.maxHeight,
      (s.findPredecessors k s.maxHeight s.maxHeight (Vector.replicate _ none))[i]?.join =
        s.lastBelow order k i := by
    refine h.findPredecessors_eq k _ le_rfl _ fun i hi hi12 => ?_
    simp [lastBelow, h.levelList_eq_nil hi, hi12]
  -- the arena with the new node appended, then linked
  have htlen : t.nodes.length = s.nodes.length + 1 := by simp [t]
  have htnext : ∀ level, ∀ p < s.nodes.length, t.nextAt level p = s.nextAt level p :=
    fun _ _ hp => nextAt_push_of_lt hp
  have hthead : ∀ level, t.headAt level = s.headAt level := fun _ => rfl
  obtain ⟨habove, hbelow⟩ := h.linkLoop_spec htlen (fun level _ => htnext level)
    (fun level _ => hthead level) k hprev height (by omega)
  replace habove : ∀ level < SkipListImpl.maxHeight, height ≤ level →
      u.nextAt level = t.nextAt level ∧ u.headAt level = t.headAt level := habove
  replace hbelow : ∀ level < height, LinkChain.Chain (u.nextAt level) (u.headAt level)
      ((s.levelList order level).filter (s.keyLt k) ++
        s.nodes.length :: (s.levelList order level).filter (fun p => !s.keyLt k p)) := hbelow
  have hulen : u.nodes.length = s.nodes.length + 1 := length_linkLoop.trans htlen
  have hunew : u.nodeKv s.nodes.length = some (k, v) ∧ u.heightOf s.nodes.length = height :=
    ⟨nodeKv_linkLoop.trans nodeKv_push_self, heightOf_linkLoop.trans heightOf_push_self⟩
  have huold : ∀ p < s.nodes.length, u.nodeKv p = s.nodeKv p ∧ u.heightOf p = s.heightOf p :=
    fun _ hp => ⟨nodeKv_linkLoop.trans (nodeKv_push_of_lt hp),
      heightOf_linkLoop.trans (heightOf_push_of_lt hp)⟩
  have hutail : u.tail = s.tail := tail_linkLoop
  have hulen' : u.len = s.len := len_linkLoop
  have humax : u.maxHeight = s.maxHeight := maxHeight_linkLoop
  clear_value u t
  have hold : ∀ p ∈ order, p < s.nodes.length := fun _ hp => h.lt_length hp
  have hmem : ∀ p ∈ order.filter (s.keyLt k) ++
      s.nodes.length :: order.filter (fun p => !s.keyLt k p), p = s.nodes.length ∨ p ∈ order := by
    intro p hp
    rcases List.mem_append.mp hp with hp | hp
    · exact .inr (List.mem_of_mem_filter hp)
    · rcases List.mem_cons.mp hp with hp | hp
      · exact .inl hp
      · exact .inr (List.mem_of_mem_filter hp)
  have hkey : ∀ p ∈ order, (if p = s.nodes.length then k else key p) = key p :=
    fun p hp => if_neg (ne_of_lt (hold p hp))
  refine ⟨?_, ?_, ?_, ?_, ?_, ?_, ?_, ?_, ?_, ?_⟩
  · -- the new node joins the arena's indices at the end
    show List.Perm _ (List.range u.nodes.length)
    rw [hulen, List.range_succ]
    calc List.Perm (order.filter (s.keyLt k) ++
          s.nodes.length :: order.filter (fun p => !s.keyLt k p))
          (s.nodes.length :: (order.filter (s.keyLt k) ++ order.filter (fun p => !s.keyLt k p))) :=
          List.perm_middle
      _ = s.nodes.length :: order := by rw [h.filter_append_filter k]
      List.Perm _ (s.nodes.length :: List.range s.nodes.length) := h.perm.cons _
      List.Perm _ (List.range s.nodes.length ++ [s.nodes.length]) :=
        (List.perm_append_singleton _ _).symm
  · intro p hp
    show (u.nodeKv p).map Prod.fst = _
    rcases hmem p hp with rfl | hp
    · rw [hunew.1, if_pos rfl]
      rfl
    · rw [(huold p (hold p hp)).1, hkey p hp]
      exact h.key_eq p hp
  · -- the nodes below `k`, the new node, the nodes above `k`
    have hsorted := h.sorted
    rw [← h.filter_append_filter k, List.pairwise_append] at hsorted
    obtain ⟨hA, hB, hAB⟩ := hsorted
    have hbelowk : ∀ a ∈ order.filter (s.keyLt k), key a < k := by
      intro a ha
      have ha' := List.mem_filter.mp ha
      rw [h.keyLt_eq ha'.1] at ha'
      exact of_decide_eq_true ha'.2
    have habovek : ∀ b ∈ order.filter (fun p => !s.keyLt k p), k < key b := by
      intro b hb
      have hb' := List.mem_filter.mp hb
      rw [h.keyLt_eq hb'.1] at hb'
      exact lt_of_le_of_ne (not_lt.mp (by simpa using hb'.2)) (hfresh b hb'.1).symm
    rw [List.pairwise_append, List.pairwise_cons]
    refine ⟨hA.imp_of_mem fun ha hb hab => ?_,
      ⟨fun b hb => ?_, hB.imp_of_mem fun ha hb hab => ?_⟩, fun a ha b hb => ?_⟩
    · rw [hkey _ (List.mem_of_mem_filter ha), hkey _ (List.mem_of_mem_filter hb)]
      exact hab
    · rw [if_pos rfl, hkey _ (List.mem_of_mem_filter hb)]
      exact habovek b hb
    · rw [hkey _ (List.mem_of_mem_filter ha), hkey _ (List.mem_of_mem_filter hb)]
      exact hab
    · rw [hkey _ (List.mem_of_mem_filter ha)]
      rcases List.mem_cons.mp hb with rfl | hb
      · rw [if_pos rfl]
        exact hbelowk a ha
      · rw [hkey _ (List.mem_of_mem_filter hb)]
        exact hAB a ha b hb
  · intro p hp
    show 0 < u.heightOf p
    rcases hmem p hp with rfl | hp
    · rw [hunew.2]
      exact hpos
    · rw [(huold p (hold p hp)).2]
      exact h.height_pos p hp
  · intro p hp
    show u.heightOf p ≤ u.maxHeight
    rw [humax]
    rcases hmem p hp with rfl | hp
    · rw [hunew.2]
      exact hle
    · rw [(huold p (hold p hp)).2]
      exact h.height_le p hp
  · show 0 < u.maxHeight
    rw [humax]
    exact h.maxHeight_pos
  · show u.maxHeight ≤ _
    rw [humax]
    exact h12
  · intro level hlevel
    -- the level's nodes in the new order: those below `k`, the new node if its tower reaches the
    -- level, those above `k`
    have hheight : ∀ l : List Nat, (∀ p ∈ l, p ∈ order) →
        l.filter (fun p => decide (level < u.heightOf p)) =
          l.filter (fun p => decide (level < s.heightOf p)) :=
      fun l hl => List.filter_congr fun p hp => by rw [(huold p (hold p (hl p hp))).2]
    have hA : (order.filter (s.keyLt k)).filter (fun p => decide (level < u.heightOf p)) =
        (s.levelList order level).filter (s.keyLt k) := by
      rw [hheight _ fun _ hp => List.mem_of_mem_filter hp, levelList, List.filter_comm]
    have hB : (order.filter (fun p => !s.keyLt k p)).filter
          (fun p => decide (level < u.heightOf p)) =
        (s.levelList order level).filter (fun p => !s.keyLt k p) := by
      rw [hheight _ fun _ hp => List.mem_of_mem_filter hp, levelList, List.filter_comm]
    show LinkChain.Chain (u.nextAt level) (u.headAt level)
      ((order.filter (s.keyLt k) ++ s.nodes.length :: order.filter (fun p => !s.keyLt k p)).filter
        fun p => decide (level < u.heightOf p))
    rw [List.filter_append, List.filter_cons, hunew.2, hA, hB]
    by_cases hreach : level < height
    · -- the tower reaches the level: the new node is spliced in
      rw [if_pos (decide_eq_true hreach)]
      exact hbelow level hreach
    · -- it does not: the level is linked as in `s`
      rw [if_neg (by simpa using hreach),
        (h.pairwise_keyLt level k).filter_append_filter_not fun _ _ hab => hab]
      obtain ⟨hn, hh⟩ := habove level hlevel (by omega)
      rw [hn, hh, hthead]
      exact (h.chain level hlevel).congr fun p hp =>
        htnext level p (hold p (List.mem_of_mem_filter hp))
  · -- the tail: the new node when nothing follows it on level 0, else the old tail
    show (if (u.nextAt 0 s.nodes.length).isNone then some s.nodes.length else u.tail) = _
    have hnext0 : u.nextAt 0 s.nodes.length = (order.filter (fun p => !s.keyLt k p)).head? := by
      have hc := hbelow 0 hpos
      rw [h.levelList_zero] at hc
      exact hc.next_eq
    have hsplit := h.filter_append_filter k
    rw [hnext0, hutail, h.tail_eq]
    cases hB : order.filter (fun p => !s.keyLt k p) with
    | nil => simp
    | cons b B =>
      have horder : order.getLast? = (b :: B).getLast? := by
        rw [← hsplit, hB, List.getLast?_append_of_ne_nil _ (List.cons_ne_nil b B)]
      rw [horder, List.getLast?_append_of_ne_nil _ (List.cons_ne_nil _ _), List.getLast?_cons_cons]
      simp
  · show u.len + 1 = u.nodes.length
    rw [hulen', hulen, h.len_eq]

/-- `insert` of a key that no node holds, with a tower of `1..=MAX_HEIGHT` links, keeps the
invariant: the new node `s.nodes.length` goes into `order` right after the nodes below its key. -/
theorem insert (h : Wf s order key) {k : K} {v : V} {height : Nat}
    (hfresh : ∀ p ∈ order, key p ≠ k) (hpos : 0 < height)
    (hle : height ≤ SkipListImpl.maxHeight) :
    Wf (s.insert k v height)
      (order.filter (s.keyLt k) ++ s.nodes.length :: order.filter (fun p => !s.keyLt k p))
      (fun p => if p = s.nodes.length then k else key p) := by
  rw [insert_eq]
  -- raising `max_height` keeps the invariant and makes it cover the new tower
  by_cases hh : height > s.maxHeight
  · rw [if_pos hh]
    exact (h.raiseMaxHeight (by omega) hle).insert_linked hfresh hpos le_rfl
  · rw [if_neg hh]
    exact h.insert_linked hfresh hpos (by omega)

end Wf

/-! ## Reading entries

The searches return pointers, and `node_kv` reads a pointer's entry. A list of pointers whose
nodes all hold an entry reads as the list of their entries, and a test on pointers that agrees
with a test on their entries filters the two lists alike. -/

section Entries

variable {α β : Type} {f : α → Option β} {l : List α}

theorem head?_bind_of_isSome (hl : ∀ a ∈ l, (f a).isSome) :
    l.head?.bind f = (l.filterMap f).head? := by
  cases l with
  | nil => rfl
  | cons a l =>
    obtain ⟨b, hb⟩ := Option.isSome_iff_exists.mp (hl a List.mem_cons_self)
    simp [hb]

theorem getElem?_filterMap_of_isSome (hl : ∀ a ∈ l, (f a).isSome) (i : Nat) :
    (l.filterMap f)[i]? = l[i]?.bind f := by
  induction l generalizing i with
  | nil => rfl
  | cons a l ih =>
    obtain ⟨b, hb⟩ := Option.isSome_iff_exists.mp (hl a List.mem_cons_self)
    have ih := ih fun a' ha' => hl a' (List.mem_cons_of_mem a ha')
    cases i with
    | zero => simp [hb]
    | succ i => simp [hb, ih i]

theorem length_filterMap_of_isSome (hl : ∀ a ∈ l, (f a).isSome) :
    (l.filterMap f).length = l.length := by
  induction l with
  | nil => rfl
  | cons a l ih =>
    obtain ⟨b, hb⟩ := Option.isSome_iff_exists.mp (hl a List.mem_cons_self)
    simp [hb, ih fun a' ha' => hl a' (List.mem_cons_of_mem a ha')]

theorem getLast?_bind_of_isSome (hl : ∀ a ∈ l, (f a).isSome) :
    l.getLast?.bind f = (l.filterMap f).getLast? := by
  rw [← List.head?_reverse, ← List.head?_reverse, ← List.filterMap_reverse]
  exact head?_bind_of_isSome fun a ha => hl a (List.mem_reverse.mp ha)

theorem filterMap_filter_of_agree {q : α → Bool} {r : β → Bool}
    (hl : ∀ a ∈ l, ∀ b, f a = some b → q a = r b) :
    (l.filter q).filterMap f = (l.filterMap f).filter r := by
  rw [List.filterMap_filter, List.filter_filterMap]
  refine List.filterMap_congr fun a ha => ?_
  cases hfa : f a with
  | none => simp
  | some b => simp [hl a ha b hfa, Option.filter]

end Entries

namespace Wf

variable {s : ConcurrentSkipList K V} {order : List Nat} {key : Nat → K}

theorem nodeKv_isSome (h : Wf s order key) {p : Nat} (hp : p ∈ order) : (s.nodeKv p).isSome := by
  have hk := h.key_eq p hp
  cases hkv : s.nodeKv p <;> simp_all

theorem nodeKv_fst (h : Wf s order key) {p : Nat} (hp : p ∈ order) {kv : K × V}
    (hkv : s.nodeKv p = some kv) : kv.1 = key p := by
  have hk := h.key_eq p hp
  rw [hkv] at hk
  simpa using hk

/-- Below a target, read on a node or on its entry. -/
theorem keyLt_agree (h : Wf s order key) (target : K) :
    ∀ p ∈ order, ∀ kv, s.nodeKv p = some kv → s.keyLt target p = decide (kv.1 < target) := by
  intro p hp kv hkv
  rw [h.keyLt_eq hp, h.nodeKv_fst hp hkv]

/-- At or below a target, read on a node's key or on its entry. -/
theorem keyLe_agree (h : Wf s order key) (target : K) :
    ∀ p ∈ order, ∀ kv, s.nodeKv p = some kv →
      decide (key p ≤ target) = decide (kv.1 ≤ target) := by
  intro p hp kv hkv
  rw [h.nodeKv_fst hp hkv]

/-- Level 0, read as entries, is in strictly ascending key order. -/
theorem collectAll_pairwise (h : Wf s order key) :
    s.collectAll.Pairwise fun a b => a.1 < b.1 := by
  rw [h.collectAll_eq, List.pairwise_filterMap]
  refine h.sorted.imp_of_mem fun ha hb hab kv hkv kv' hkv' => ?_
  rw [h.nodeKv_fst ha hkv, h.nodeKv_fst hb hkv']
  exact hab

/-- `lower_bound`, and the entry at the node `seek_ge_raw` returns: the first entry of level 0
whose key is at least the target. -/
theorem lowerBound_entries (h : Wf s order key) (target : K) :
    s.lowerBound target = s.collectAll.find? fun kv => decide (target ≤ kv.1) := by
  have hagree : ∀ p ∈ order, ∀ kv, s.nodeKv p = some kv →
      (!s.keyLt target p) = decide (target ≤ kv.1) := by
    intro p hp kv hkv
    rw [h.keyLt_eq hp, h.nodeKv_fst hp hkv, ← decide_not]
    exact decide_eq_decide.mpr not_lt
  rw [h.lowerBound_eq, head?_bind_of_isSome fun p hp => h.nodeKv_isSome (List.mem_of_mem_filter hp),
    filterMap_filter_of_agree hagree, ← h.collectAll_eq, List.head?_filter]

/-- The entry at the node `seek_lt_raw` returns: the last entry of level 0 below the target. -/
theorem seekLtRaw_entries (h : Wf s order key) (target : K) :
    (s.seekLtRaw target).bind s.nodeKv =
      (s.collectAll.filter fun kv => decide (kv.1 < target)).getLast? := by
  rw [h.seekLtRaw_eq,
    getLast?_bind_of_isSome fun p hp => h.nodeKv_isSome (List.mem_of_mem_filter hp),
    filterMap_filter_of_agree (h.keyLt_agree target), ← h.collectAll_eq]

/-- The entry at the node `seek_le_raw` returns: the last entry of level 0 at or below the
target. -/
theorem seekLeRaw_entries (h : Wf s order key) (target : K) :
    (s.seekLeRaw target).bind s.nodeKv =
      (s.collectAll.filter fun kv => decide (kv.1 ≤ target)).getLast? := by
  rw [h.seekLeRaw_eq,
    getLast?_bind_of_isSome fun p hp => h.nodeKv_isSome (List.mem_of_mem_filter hp),
    filterMap_filter_of_agree (h.keyLe_agree target), ← h.collectAll_eq]

/-- A level's walk visits the nodes of `order` its towers reach. -/
theorem linkedAt_eq (h : Wf s order key) {level : Nat} (hlevel : level < SkipListImpl.maxHeight) :
    s.linkedAt level = s.levelList order level :=
  LinkChain.collect_chain (h.chain level hlevel) (h.length_levelList_le level)

theorem linkedAt_sublist (h : Wf s order key) {level : Nat}
    (hlevel : level + 1 < SkipListImpl.maxHeight) :
    (s.linkedAt (level + 1)).Sublist (s.linkedAt level) := by
  rw [h.linkedAt_eq hlevel, h.linkedAt_eq (by omega)]
  exact levelList_sublist s order level

theorem tailPtr_eq (h : Wf s order key) : s.tailPtr = (s.linkedAt 0).getLast? := by
  rw [tailPtr, h.tail_eq, h.linkedAt_eq (by decide), h.levelList_zero]

/-- `insert` in terms of entries: level 0 takes the new pair where an ordered insert by key puts
it. -/
theorem collectAll_insert (h : Wf s order key) {k : K} {v : V} {height : Nat}
    (hfresh : ∀ p ∈ order, key p ≠ k) (hpos : 0 < height)
    (hle : height ≤ SkipListImpl.maxHeight) :
    (s.insert k v height).collectAll = s.collectAll.orderedInsert (fun a b => a.1 ≤ b.1) (k, v) := by
  have hsorted := h.collectAll_pairwise
  -- the old nodes read as they did
  have hold : ∀ l : List Nat, (∀ p ∈ l, p ∈ order) →
      l.filterMap (s.insert k v height).nodeKv = l.filterMap s.nodeKv :=
    fun l hl => List.filterMap_congr fun p hp => by
      rw [nodeKv_insert, if_neg (ne_of_lt (h.lt_length (hl p hp)))]
  have hbelow : ∀ p ∈ order, ∀ kv, s.nodeKv p = some kv →
      s.keyLt k p = decide ¬k ≤ kv.1 := by
    intro p hp kv hkv
    rw [h.keyLt_eq hp, h.nodeKv_fst hp hkv]
    exact decide_eq_decide.mpr not_le.symm
  have habove : ∀ p ∈ order, ∀ kv, s.nodeKv p = some kv →
      (!s.keyLt k p) = !decide ¬k ≤ kv.1 := by
    intro p hp kv hkv
    rw [hbelow p hp kv hkv]
  have htrans : ∀ a b : K × V, a.1 < b.1 → decide ¬k ≤ b.1 = true → decide ¬k ≤ a.1 = true := by
    intro a b hab hb
    simp only [decide_eq_true_eq, not_le] at hb ⊢
    exact lt_trans hab hb
  rw [(h.insert hfresh hpos hle).collectAll_eq, List.filterMap_append, List.filterMap_cons,
    nodeKv_insert, if_pos rfl, hold _ fun _ hp => List.mem_of_mem_filter hp,
    hold _ fun _ hp => List.mem_of_mem_filter hp, filterMap_filter_of_agree hbelow,
    filterMap_filter_of_agree habove, ← h.collectAll_eq, List.orderedInsert_eq_take_drop,
    hsorted.takeWhile_eq_filter htrans, hsorted.dropWhile_eq_filter htrans]

end Wf

/-! ## Runs of inserts -/

/-- A run of `insert`s from `new`: the key, the value and the tower height of each, in order. -/
def insertAll (ops : List (K × V × Nat)) : ConcurrentSkipList K V :=
  ops.foldl (fun s op => s.insert op.1 op.2.1 op.2.2) new

/-- Inserts of fresh keys with towers of `1..=MAX_HEIGHT` keep the invariant, and level 0 gains
their pairs. -/
theorem Wf.foldl_insert {s : ConcurrentSkipList K V} {order : List Nat} {key : Nat → K}
    (h : Wf s order key) (ops : List (K × V × Nat))
    (hfresh : ∀ op ∈ ops, ∀ kv ∈ s.collectAll, kv.1 ≠ op.1) (hnodup : (ops.map (·.1)).Nodup)
    (hheight : ∀ op ∈ ops, 0 < op.2.2 ∧ op.2.2 ≤ SkipListImpl.maxHeight) :
    ∃ order' key', Wf (ops.foldl (fun s op => s.insert op.1 op.2.1 op.2.2) s) order' key' ∧
      (ops.foldl (fun s op => s.insert op.1 op.2.1 op.2.2) s).collectAll.Perm
        (s.collectAll ++ ops.map fun op => (op.1, op.2.1)) := by
  induction ops generalizing s order key with
  | nil => exact ⟨order, key, h, by simp⟩
  | cons op ops ih =>
    obtain ⟨hop, hops⟩ := List.nodup_cons.mp hnodup
    -- the first insert: its key is held by no node
    have hfresh₁ : ∀ p ∈ order, key p ≠ op.1 := by
      intro p hp
      obtain ⟨kv, hkv⟩ := Option.isSome_iff_exists.mp (h.nodeKv_isSome hp)
      rw [← h.nodeKv_fst hp hkv]
      exact hfresh op List.mem_cons_self kv
        (h.collectAll_eq ▸ List.mem_filterMap.mpr ⟨p, hp, hkv⟩)
    have hh := hheight op List.mem_cons_self
    have h₁ := h.insert (v := op.2.1) hfresh₁ hh.1 hh.2
    have hperm₁ : (s.insert op.1 op.2.1 op.2.2).collectAll.Perm
        (s.collectAll ++ [(op.1, op.2.1)]) := by
      rw [h.collectAll_insert hfresh₁ hh.1 hh.2]
      exact (List.perm_orderedInsert _ _ _).trans (List.perm_append_singleton _ _).symm
    -- the rest of the run, from there
    have hfresh' : ∀ op' ∈ ops, ∀ kv ∈ (s.insert op.1 op.2.1 op.2.2).collectAll, kv.1 ≠ op'.1 := by
      intro op' hop' kv hkv
      rcases List.mem_append.mp (hperm₁.subset hkv) with hkv | hkv
      · exact hfresh op' (List.mem_cons_of_mem op hop') kv hkv
      · rw [List.mem_singleton.mp hkv]
        exact fun heq => hop (List.mem_map.mpr ⟨op', hop', heq.symm⟩)
    obtain ⟨order', key', h', hperm⟩ := ih h₁ hfresh' hops
      fun op' hop' => hheight op' (List.mem_cons_of_mem op hop')
    refine ⟨order', key', h', hperm.trans ?_⟩
    rw [List.map_cons, ← List.singleton_append, ← List.append_assoc]
    exact hperm₁.append_right _

/-- Over any run of inserts of distinct keys with towers of `1..=MAX_HEIGHT`: level 0 holds the
inserted pairs in ascending key order, every level links a sublist of the level below, the tail
is the last node of level 0, and the searches find what a scan of level 0 finds. -/
theorem insertAll_spec (ops : List (K × V × Nat)) (hnodup : (ops.map (·.1)).Nodup)
    (hheight : ∀ op ∈ ops, 0 < op.2.2 ∧ op.2.2 ≤ SkipListImpl.maxHeight) :
    let s := insertAll ops
    s.collectAll.Perm (ops.map fun op => (op.1, op.2.1)) ∧
    s.collectAll.Pairwise (fun a b => a.1 < b.1) ∧
    (∀ level, level + 1 < SkipListImpl.maxHeight →
      (s.linkedAt (level + 1)).Sublist (s.linkedAt level)) ∧
    s.tailPtr = (s.linkedAt 0).getLast? ∧
    ∀ target, s.lowerBound target = s.collectAll.find? (fun kv => decide (target ≤ kv.1)) ∧
      (s.seekLtRaw target).bind s.nodeKv =
        (s.collectAll.filter fun kv => decide (kv.1 < target)).getLast? ∧
      (s.seekLeRaw target).bind s.nodeKv =
        (s.collectAll.filter fun kv => decide (kv.1 ≤ target)).getLast? := by
  intro s
  cases ops with
  | nil =>
    -- no insert: every level is empty and every search finds nothing
    exact ⟨.nil, .nil, fun _ _ => by simp [s, insertAll, linkedAt, new], rfl,
      fun _ => ⟨rfl, rfl, rfl⟩⟩
  | cons op ops =>
    have hnew : (new : ConcurrentSkipList K V).collectAll = [] := rfl
    obtain ⟨order, key, h, hperm⟩ := (wf_new (V := V) fun _ => op.1).foldl_insert (op :: ops)
      (by simp [hnew]) hnodup hheight
    rw [hnew, List.nil_append] at hperm
    exact ⟨hperm, h.collectAll_pairwise, fun _ hlevel => h.linkedAt_sublist hlevel, h.tailPtr_eq,
      fun target => ⟨h.lowerBound_entries target, h.seekLtRaw_entries target,
        h.seekLeRaw_entries target⟩⟩

end ConcurrentSkipList

end Mmdb.SkipListImpl