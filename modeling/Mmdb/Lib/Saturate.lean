import Mathlib

/-!
# Saturating a selection over a list of candidates

A selection grows over a list of candidates `C` from a seed list of extents `E₀`. A scan visits
the candidates in order, skips those whose key is already selected, and selects each one that
meets an extent gathered so far, appending its own extents (`ext`, which may fail to be read).
Scans repeat until one selects nothing. The result is the least set of candidates that holds
every candidate meeting an extent of the seed or of one of its members.

* `pass_eq_some`: one scan appends a sublist of the candidates to the selection and their
  extents to the extent list;
* `Inv`: the state between scans (distinct keys, the extents of the seed and of the selection),
  kept by a scan (`Inv.pass`);
* `pass_subset`: a scan keeps the selection inside every closed set, and
  `closed_of_pass_stable`: a scan that selects nothing leaves a closed selection;
* `loop_eq_of_le`: `|C| + 1` scans always suffice, since each productive scan selects a key not
  selected before;
* `loop_isLeast`: when every candidate's extents can be read, the loop computes the least closed
  set; `loop_eq_of_ext_none`: a candidate whose extents cannot be read and that meets every
  extent sends back all of `C`.
-/

namespace Saturate

variable {α ε κ : Type} [BEq κ] (key : α → κ) (meets : α → ε → Bool) (ext : α → Option (List ε))

/-- One scan over the candidates from the accumulator `(selected, extents, changed)`; `none` when
the extents of a candidate it selects cannot be read. -/
def pass : List α → List α × List ε × Bool → Option (List α × List ε × Bool)
  | [], acc => some acc
  | a :: as, (sel, E, changed) =>
    if sel.any (fun b => key b == key a) then pass as (sel, E, changed)
    else if E.any (meets a) then
      match ext a with
      | none => none
      | some X => pass as (sel ++ [a], E ++ X, true)
    else pass as (sel, E, changed)

/-- Scans repeated until one selects nothing, at most `fuel` of them; all of `C` when a scan
fails. -/
def loop (C : List α) : Nat → List α → List ε → List α
  | 0, sel, _ => sel
  | fuel + 1, sel, E =>
    match pass key meets ext C (sel, E, false) with
    | none => C
    | some (sel, E, changed) => if changed then loop C fuel sel E else sel

/-! ## The specification -/

/-- The extents of the seed and of the members of `S` (none for a member whose extents cannot be
read). -/
def Extents (E₀ : List ε) (S : Set α) : Set ε :=
  {e | e ∈ E₀ ∨ ∃ a ∈ S, e ∈ (ext a).getD []}

/-- A closed set of candidates: it holds every candidate that meets an extent of the seed or of
one of its members. -/
structure Closed (C : List α) (E₀ : List ε) (S : Set α) : Prop where
  subset : ∀ a ∈ S, a ∈ C
  mem_of_meets : ∀ a ∈ C, ∀ e ∈ Extents ext E₀ S, meets a e = true → a ∈ S

/-- The state between scans: selected candidates with distinct keys, and as extents those of the
seed followed by those of the selection. -/
structure Inv (C : List α) (E₀ : List ε) (sel : List α) (E : List ε) : Prop where
  subset : ∀ a ∈ sel, a ∈ C
  nodup : (sel.map key).Nodup
  extents : E = E₀ ++ sel.flatMap fun a => (ext a).getD []

variable {key meets ext}

omit [BEq κ] in
theorem inv_nil (C : List α) (E₀ : List ε) : Inv key ext C E₀ [] E₀ :=
  ⟨fun _ h => absurd h List.not_mem_nil, List.nodup_nil, by simp⟩

/-- The extents of a selection inside `S` are extents of `S`. -/
theorem extents_subset {E₀ : List ε} {S : Set α} {sel : List α} (hsel : ∀ a ∈ sel, a ∈ S) :
    ∀ e ∈ E₀ ++ sel.flatMap (fun a => (ext a).getD []), e ∈ Extents ext E₀ S := by
  intro e he
  rcases List.mem_append.mp he with h₀ | hsel'
  · exact .inl h₀
  · obtain ⟨a, ha, hea⟩ := List.mem_flatMap.mp hsel'
    exact .inr ⟨a, hsel a ha, hea⟩

/-! ## One scan -/

/-- What a scan does: it appends candidates of the scanned list, in order, to the selection and
their extents to the extent list, and reports a change when it appended any. -/
theorem pass_eq_some {L sel sel' : List α} {E E' : List ε} {ch ch' : Bool}
    (h : pass key meets ext L (sel, E, ch) = some (sel', E', ch')) :
    ∃ new, new.Sublist L ∧ sel' = sel ++ new ∧ E' = E ++ new.flatMap (fun a => (ext a).getD []) ∧
      ch' = (ch || !new.isEmpty) := by
  induction L generalizing sel E ch with
  | nil =>
    simp only [pass, Option.some.injEq, Prod.mk.injEq] at h
    obtain ⟨rfl, rfl, rfl⟩ := h
    exact ⟨[], List.Sublist.slnil, by simp, by simp, by simp⟩
  | cons a L ih =>
    simp only [pass] at h
    split at h
    · obtain ⟨new, hsub, hsel, hE, hch⟩ := ih h
      exact ⟨new, hsub.cons a, hsel, hE, hch⟩
    split at h
    · -- `a` is selected: its extents are read
      split at h
      · cases h
      · rename_i X hX
        obtain ⟨new, hsub, hsel, hE, hch⟩ := ih h
        exact ⟨a :: new, hsub.cons_cons a, by simp [hsel], by simp [hE, hX], by simp [hch]⟩
    · obtain ⟨new, hsub, hsel, hE, hch⟩ := ih h
      exact ⟨new, hsub.cons a, hsel, hE, hch⟩

/-- A scan selects no key twice. -/
theorem pass_nodup [LawfulBEq κ] {L sel sel' : List α} {E E' : List ε} {ch ch' : Bool}
    (h : pass key meets ext L (sel, E, ch) = some (sel', E', ch')) (hnd : (sel.map key).Nodup) :
    (sel'.map key).Nodup := by
  induction L generalizing sel E ch with
  | nil =>
    simp only [pass, Option.some.injEq, Prod.mk.injEq] at h
    rw [← h.1]
    exact hnd
  | cons a L ih =>
    simp only [pass] at h
    split at h
    · exact ih h hnd
    rename_i hkey
    split at h
    · split at h
      · cases h
      · refine ih h ?_
        -- the key of `a` is not yet selected
        have hnot : key a ∉ sel.map key := by
          simpa [List.any_eq_true, beq_iff_eq] using hkey
        rw [List.map_append, List.nodup_append]
        refine ⟨hnd, List.nodup_singleton _, ?_⟩
        intro k hk k' hk' hkk'
        rw [List.map_singleton, List.mem_singleton] at hk'
        exact hnot (by rw [← hk', ← hkk']; exact hk)
    · exact ih h hnd

/-- A scan keeps the invariant. -/
theorem Inv.pass [LawfulBEq κ] {C sel sel' : List α} {E₀ E E' : List ε} {ch ch' : Bool}
    (hinv : Inv key ext C E₀ sel E)
    (h : Saturate.pass key meets ext C (sel, E, ch) = some (sel', E', ch')) :
    Inv key ext C E₀ sel' E' := by
  obtain ⟨new, hsub, rfl, rfl, -⟩ := pass_eq_some h
  refine ⟨?_, pass_nodup h hinv.nodup, ?_⟩
  · intro a ha
    rcases List.mem_append.mp ha with hsel | hnew
    · exact hinv.subset a hsel
    · exact hsub.subset hnew
  · rw [hinv.extents, List.flatMap_append, List.append_assoc]

/-- The selection has no more candidates than `C`: its keys are distinct keys of `C`. -/
theorem Inv.length_le [LawfulBEq κ] {C sel : List α} {E₀ E : List ε}
    (hinv : Inv key ext C E₀ sel E) : sel.length ≤ C.length := by
  have hsub : sel.map key ⊆ C.map key := by
    intro k hk
    obtain ⟨a, ha, rfl⟩ := List.mem_map.mp hk
    exact List.mem_map_of_mem (hinv.subset a ha)
  simpa using (hinv.nodup.subperm hsub).length_le

/-- A scan keeps the selection and its extents inside every closed set. -/
theorem pass_subset {C L sel sel' : List α} {E₀ E E' : List ε} {ch ch' : Bool} {S : Set α}
    (hS : Closed meets ext C E₀ S) (hL : ∀ a ∈ L, a ∈ C) (hsel : ∀ a ∈ sel, a ∈ S)
    (hE : ∀ e ∈ E, e ∈ Extents ext E₀ S)
    (h : pass key meets ext L (sel, E, ch) = some (sel', E', ch')) :
    (∀ a ∈ sel', a ∈ S) ∧ ∀ e ∈ E', e ∈ Extents ext E₀ S := by
  induction L generalizing sel E ch with
  | nil =>
    simp only [pass, Option.some.injEq, Prod.mk.injEq] at h
    obtain ⟨rfl, rfl, rfl⟩ := h
    exact ⟨hsel, hE⟩
  | cons a L ih =>
    have hL' : ∀ b ∈ L, b ∈ C := fun b hb => hL b (List.mem_cons_of_mem a hb)
    simp only [pass] at h
    split at h
    · exact ih hL' hsel hE h
    split at h
    · split at h
      · cases h
      · rename_i hmeets _ X hX
        -- `a` meets an extent of `S`, so it is in `S`, and so are its extents
        obtain ⟨e, he, hae⟩ := List.any_eq_true.mp hmeets
        have ha : a ∈ S := hS.mem_of_meets a (hL a List.mem_cons_self) e (hE e he) hae
        refine ih hL' ?_ ?_ h
        · intro b hb
          rcases List.mem_append.mp hb with hb | hb
          · exact hsel b hb
          · rw [List.mem_singleton.mp hb]
            exact ha
        · intro e' he'
          rcases List.mem_append.mp he' with he' | he'
          · exact hE e' he'
          · exact .inr ⟨a, ha, by rw [hX]; exact he'⟩
    · exact ih hL' hsel hE h

/-- In a scan that selects nothing, every candidate scanned has a selected key or meets no
extent. -/
theorem pass_stable {L sel sel' : List α} {E E' : List ε}
    (h : pass key meets ext L (sel, E, false) = some (sel', E', false)) :
    ∀ a ∈ L, (sel.any fun b => key b == key a) = true ∨ E.any (meets a) = false := by
  induction L with
  | nil => simp
  | cons a L ih =>
    simp only [pass] at h
    intro b hb
    split at h
    · rename_i hkey
      rcases List.mem_cons.mp hb with rfl | hb
      · exact .inl hkey
      · exact ih h b hb
    rename_i hkey
    split at h
    · -- selecting `a` would make the rest of the scan report a change
      split at h
      · cases h
      · obtain ⟨new, -, -, -, hch⟩ := pass_eq_some h
        simp at hch
    · rename_i hmeets
      rcases List.mem_cons.mp hb with rfl | hb
      · exact .inr (Bool.eq_false_iff.mpr hmeets)
      · exact ih h b hb

/-- A scan over all the candidates that selects nothing leaves a closed selection. -/
theorem closed_of_pass_stable [LawfulBEq κ] {C sel sel' : List α} {E₀ E E' : List ε}
    (hC : (C.map key).Nodup) (hinv : Inv key ext C E₀ sel E)
    (h : pass key meets ext C (sel, E, false) = some (sel', E', false)) :
    Closed meets ext C E₀ {a | a ∈ sel} := by
  refine ⟨hinv.subset, fun a ha e he hae => ?_⟩
  rcases pass_stable h a ha with hkey | hnone
  · -- a selected candidate has the key of `a`; keys are distinct over `C`, so it is `a`
    obtain ⟨b, hb, hba⟩ := List.any_eq_true.mp hkey
    have hab : b = a :=
      List.inj_on_of_nodup_map hC (hinv.subset b hb) ha (beq_iff_eq.mp hba)
    exact hab ▸ hb
  · -- otherwise `e` is among the extents scanned, which `a` meets
    have heE : e ∈ E := by
      rw [hinv.extents]
      rcases he with h₀ | ⟨b, hb, heb⟩
      · exact List.mem_append_left _ h₀
      · exact List.mem_append_right _ (List.mem_flatMap.mpr ⟨b, hb, heb⟩)
    have : E.any (meets a) = true := List.any_eq_true.mpr ⟨e, heE, hae⟩
    rw [hnone] at this
    cases this

/-- A scan over candidates whose extents can all be read does not fail. -/
theorem pass_isSome {L sel : List α} {E : List ε} {ch : Bool}
    (hsome : ∀ a ∈ L, (ext a).isSome) : (pass key meets ext L (sel, E, ch)).isSome := by
  induction L generalizing sel E ch with
  | nil => rfl
  | cons a L ih =>
    have hL : ∀ b ∈ L, (ext b).isSome := fun b hb => hsome b (List.mem_cons_of_mem a hb)
    obtain ⟨X, hX⟩ := Option.isSome_iff_exists.mp (hsome a List.mem_cons_self)
    simp only [pass]
    split
    · exact ih hL
    split
    · rw [hX]
      exact ih hL
    · exact ih hL

/-- A candidate whose extents cannot be read, that meets every extent and whose key is not
selected fails the scan once any extent is gathered. -/
theorem pass_eq_none [LawfulBEq κ] {L sel : List α} {E : List ε} {ch : Bool} {a : α}
    (hL : (L.map key).Nodup) (ha : a ∈ L) (hnone : ext a = none) (hmeets : ∀ e, meets a e = true)
    (hE : E ≠ []) (hsel : ∀ b ∈ sel, key b ≠ key a) : pass key meets ext L (sel, E, ch) = none := by
  induction L generalizing sel E ch with
  | nil => cases ha
  | cons b L ih =>
    rw [List.map_cons, List.nodup_cons] at hL
    -- `a` meets the first extent
    have hany : E.any (meets a) = true := by
      obtain ⟨e, E', rfl⟩ := List.exists_cons_of_ne_nil hE
      simp [hmeets]
    have hkey : (sel.any fun c => key c == key a) = false := by
      simpa [List.any_eq_false, beq_iff_eq] using hsel
    rcases List.mem_cons.mp ha with rfl | ha'
    · simp only [pass, hkey, hany, hnone, Bool.false_eq_true, if_false, if_true]
    · have hba : key b ≠ key a := fun h => hL.1 (h ▸ List.mem_map_of_mem ha')
      simp only [pass]
      split
      · exact ih hL.2 ha' hE hsel
      split
      · split
        · rfl
        · refine ih hL.2 ha' (fun h => hE (List.append_eq_nil_iff.mp h).1) ?_
          intro c hc
          rcases List.mem_append.mp hc with hc | hc
          · exact hsel c hc
          · rw [List.mem_singleton.mp hc]
            exact hba
      · exact ih hL.2 ha' hE hsel

/-! ## The loop -/

/-- `|C| + 1` scans always suffice: with at least that much fuel the loop gives the same result,
since each productive scan selects a key not selected before. -/
theorem loop_eq_of_le [LawfulBEq κ] {C sel : List α} {E₀ E : List ε} (hinv : Inv key ext C E₀ sel E)
    {fuel fuel' : Nat} (hf : C.length + 1 ≤ fuel + sel.length)
    (hf' : C.length + 1 ≤ fuel' + sel.length) :
    loop key meets ext C fuel sel E = loop key meets ext C fuel' sel E := by
  have hlen := hinv.length_le
  induction fuel generalizing fuel' sel E with
  | zero => omega
  | succ fuel ih =>
    obtain ⟨fuel', rfl⟩ : ∃ m, fuel' = m + 1 := Nat.exists_eq_add_of_le' (by omega)
    simp only [loop]
    split
    · rfl
    · rename_i sel' E' ch' hp
      split
      · -- a productive scan selected a new candidate
        rename_i hch
        obtain ⟨new, -, rfl, -, hch'⟩ := pass_eq_some hp
        have hnew : new ≠ [] := by
          intro hnil
          simp [hnil, hch] at hch'
        have hgrow : sel.length + 1 ≤ (sel ++ new).length := by
          have := List.length_pos_of_ne_nil hnew
          simp only [List.length_append]
          omega
        have hinv' := hinv.pass hp
        exact ih hinv' (by omega) (by omega) hinv'.length_le
      · rfl

/-- **The loop computes the least closed set** when every candidate's extents can be read and the
fuel covers the candidates not yet selected. -/
theorem loop_isLeast [LawfulBEq κ] {C sel : List α} {E₀ E : List ε} (hC : (C.map key).Nodup)
    (hsome : ∀ a ∈ C, (ext a).isSome) (hinv : Inv key ext C E₀ sel E)
    (hleast : ∀ S, Closed meets ext C E₀ S → ∀ a ∈ sel, a ∈ S) (fuel : Nat)
    (hfuel : C.length + 1 ≤ fuel + sel.length) :
    IsLeast {S | Closed meets ext C E₀ S} {a | a ∈ loop key meets ext C fuel sel E} := by
  have hlen := hinv.length_le
  induction fuel generalizing sel E with
  | zero => omega
  | succ fuel ih =>
    have hscan : (pass key meets ext C (sel, E, false)).isSome := pass_isSome hsome
    obtain ⟨⟨sel', E', ch'⟩, hp⟩ := Option.isSome_iff_exists.mp hscan
    have hinv' := hinv.pass hp
    -- the scan keeps the selection inside every closed set
    have hleast' : ∀ S, Closed meets ext C E₀ S → ∀ a ∈ sel', a ∈ S := fun S hS =>
      (pass_subset hS (fun _ h => h) (hleast S hS)
        (hinv.extents ▸ extents_subset (hleast S hS)) hp).1
    simp only [loop, hp]
    cases ch' with
    | true =>
      obtain ⟨new, -, rfl, -, hch'⟩ := pass_eq_some hp
      have hnew : new ≠ [] := by
        intro hnil
        simp [hnil] at hch'
      have hgrow : sel.length + 1 ≤ (sel ++ new).length := by
        have := List.length_pos_of_ne_nil hnew
        simp only [List.length_append]
        omega
      exact ih hinv' hleast' (by omega) hinv'.length_le
    | false =>
      obtain ⟨new, -, rfl, -, hch'⟩ := pass_eq_some hp
      have hnil : new = [] := by simpa using hch'
      subst hnil
      simp only [List.append_nil] at hp ⊢
      exact ⟨closed_of_pass_stable hC hinv hp, fun S hS a ha => hleast S hS a ha⟩

/-- A candidate whose extents cannot be read and that meets every extent sends back all of `C`,
once the seed holds an extent. -/
theorem loop_eq_of_ext_none [LawfulBEq κ] {C : List α} {E₀ : List ε} {a : α}
    (hC : (C.map key).Nodup) (ha : a ∈ C) (hnone : ext a = none) (hmeets : ∀ e, meets a e = true)
    (hE : E₀ ≠ []) (fuel : Nat) : loop key meets ext C (fuel + 1) [] E₀ = C := by
  rw [loop, pass_eq_none hC ha hnone hmeets hE (fun _ h => absurd h List.not_mem_nil)]

end Saturate
