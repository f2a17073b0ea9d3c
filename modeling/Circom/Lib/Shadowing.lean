import Circom.Lib.Scopes

/-!
# Shadowing undone by saved entries

A flat map can stand for nested scopes: a declaration saves what the map has for the key, and the end of the
scope puts it back. The file relates such a map, with the entries that the open scopes saved, to a list of
scopes. The map may have fewer keys than the scopes; the predicate `P` says which entries it can leave out.
-/

namespace Circom.Lib

variable {K V : Type*} [DecidableEq K]
variable {k : K}

namespace Scopes

/-- The entry of a key in the innermost scope that has it. -/
def find (s : Scopes K V) (k : K) : Option V := s.findSome? fun scope => scope.lookup k

/-- Overwrites the entry of a key where it is found. -/
def set (k : K) (v : V) : Scopes K V → Scopes K V
  | [] => []
  | scope :: s => if k ∈ scope then scope.insert k v :: s else scope :: set k v s

theorem find_cons (scope : HashMap K V) (s : Scopes K V) (k : K) :
    find (scope :: s) k = (scope.lookup k).or (find s k) := by
  unfold find
  rw [List.findSome?_cons]
  cases scope.lookup k with
  | none => rfl
  | some v => rfl

theorem find_cons_of_mem {scope : HashMap K V} (h : k ∈ scope) (s : Scopes K V) :
    find (scope :: s) k = scope.lookup k := by
  obtain ⟨v, hv⟩ := AList.mem_iff_exists_lookup.mp h
  rw [find_cons, hv, Option.some_or]

theorem find_cons_of_notMem {scope : HashMap K V} (h : k ∉ scope) (s : Scopes K V) :
    find (scope :: s) k = find s k := by
  rw [find_cons, AList.lookup_eq_none.mpr h, Option.none_or]

theorem find_insert (scope : HashMap K V) (s : Scopes K V) (k j : K) (v : V) :
    find (scope.insert k v :: s) j = if j = k then some v else find (scope :: s) j := by
  by_cases hj : j = k
  · rw [if_pos hj, hj, find_cons, AList.lookup_insert, Option.some_or]
  · rw [if_neg hj, find_cons, find_cons, AList.lookup_insert_ne hj]

theorem find_set {s : Scopes K V} (hk : (s.find k).isSome) (v : V) (j : K) :
    (s.set k v).find j = if j = k then some v else s.find j := by
  induction s with
  | nil => cases hk
  | cons scope s ih =>
    by_cases hmem : k ∈ scope
    · rw [set, if_pos hmem, find_insert]
    · rw [set, if_neg hmem]
      rw [find_cons_of_notMem hmem] at hk
      by_cases hj : j ∈ scope
      · have hne : j ≠ k := fun h => hmem (h ▸ hj)
        rw [if_neg hne, find_cons_of_mem hj, find_cons_of_mem hj]
      · rw [find_cons_of_notMem hj, find_cons_of_notMem hj, ih hk]

end Scopes

/-! ## Saved entries -/

/-- What the map had for the keys that a scope declared. -/
abbrev Saved (K V : Type*) := HashMap K (Option V)

namespace Saved

/-- The entry of a key, or that there was none. -/
def put (m : HashMap K V) (k : K) : Option V → HashMap K V
  | some v => m.insert k v
  | none => m.erase k

def restore (saved : Saved K V) (m : HashMap K V) : HashMap K V :=
  saved.pairs.foldl (fun m e => put m e.1 e.2) m

/-- Only the first declaration of a key in a scope saves something. -/
def save (saved : Saved K V) (m : HashMap K V) (k : K) : Saved K V :=
  if k ∈ saved then saved else saved.insert k (m.lookup k)

theorem lookup_put (m : HashMap K V) (k j : K) (o : Option V) :
    (put m k o).lookup j = if j = k then o else m.lookup j := by
  by_cases hj : j = k
  · subst hj
    rw [if_pos rfl]
    cases o with
    | none => exact AList.lookup_erase j m
    | some v => exact AList.lookup_insert m
  · rw [if_neg hj]
    cases o with
    | none => exact AList.lookup_erase_ne hj
    | some v => exact AList.lookup_insert_ne hj

theorem lookup_foldl_put_of_notMem {l : List (K × Option V)} (m : HashMap K V)
    (hk : k ∉ l.map Prod.fst) : (l.foldl (fun m e => put m e.1 e.2) m).lookup k = m.lookup k := by
  induction l generalizing m with
  | nil => rfl
  | cons e l ih =>
    rw [List.map_cons, List.mem_cons, not_or] at hk
    rw [List.foldl_cons, ih _ hk.2, lookup_put, if_neg hk.1]

theorem lookup_foldl_put_of_mem {l : List (K × Option V)} (hl : (l.map Prod.fst).Nodup) (m : HashMap K V) {o : Option V}
    (hk : (k, o) ∈ l) : (l.foldl (fun m e => put m e.1 e.2) m).lookup k = o := by
  induction l generalizing m with
  | nil => cases hk
  | cons e l ih =>
    rw [List.map_cons, List.nodup_cons] at hl
    rw [List.foldl_cons]
    rcases List.mem_cons.mp hk with rfl | hk
    · rw [lookup_foldl_put_of_notMem _ hl.1, lookup_put, if_pos rfl]
    · exact ih hl.2 _ hk

theorem lookup_restore (saved : Saved K V) (m : HashMap K V) (k : K) :
    (restore saved m).lookup k = (saved.lookup k).getD (m.lookup k) := by
  unfold restore
  cases ho : saved.lookup k with
  | none =>
    have hk : k ∉ saved.pairs.map Prod.fst := by
      rw [AList.pairs_map_fst, ← AList.mem_keys]
      exact AList.lookup_eq_none.mp ho
    rw [lookup_foldl_put_of_notMem m hk, Option.getD_none]
  | some o =>
    have hnodup : (saved.pairs.map Prod.fst).Nodup := by
      rw [AList.pairs_map_fst]
      exact AList.keys_nodup _
    rw [lookup_foldl_put_of_mem hnodup m (AList.mem_pairs_iff_lookup.mpr ho), Option.getD_some]

theorem mem_save {saved : Saved K V} {m : HashMap K V} {j : K} : j ∈ save saved m k ↔ j = k ∨ j ∈ saved := by
  unfold save
  by_cases hk : k ∈ saved
  · rw [if_pos hk]
    constructor
    · exact Or.inr
    · rintro (rfl | h)
      · exact hk
      · exact h
  · rw [if_neg hk, AList.mem_insert]

/-- After a declaration the end of the scope gives the same map as before it. -/
theorem lookup_restore_save {saved : Saved K V} {m m' : HashMap K V}
    (h : ∀ j, j ≠ k → m'.lookup j = m.lookup j) (j : K) :
    (restore (save saved m k) m').lookup j = (restore saved m).lookup j := by
  rw [lookup_restore, lookup_restore]
  unfold save
  by_cases hj : j = k
  · subst hj
    by_cases hmem : j ∈ saved
    · obtain ⟨o, ho⟩ := AList.mem_iff_exists_lookup.mp hmem
      rw [if_pos hmem, ho, Option.getD_some, Option.getD_some]
    · rw [if_neg hmem, AList.lookup_insert, AList.lookup_eq_none.mpr hmem, Option.getD_some,
        Option.getD_none]
  · have hsave : (if k ∈ saved then saved else saved.insert k (m.lookup k)).lookup j =
        saved.lookup j := by
      by_cases hmem : k ∈ saved
      · rw [if_pos hmem]
      · rw [if_neg hmem, AList.lookup_insert_ne hj]
    rw [hsave, h j hj]

end Saved

/-! ## The map and the scopes -/

/-- The entries of the map are those that the scopes show; the map has every key whose entry is not in `P`. -/
structure Represents (P : V → Prop) (m : HashMap K V) (s : Scopes K V) : Prop where
  known : ∀ k v, m.lookup k = some v → s.find k = some v
  complete : ∀ k v, s.find k = some v → k ∈ m ∨ P v

/-- The map stands for all scopes, and what it becomes at the end of a scope for the scopes around it. -/
def Tracks (P : V → Prop) : HashMap K V → List (Saved K V) → Scopes K V → Prop
  | m, [], [] => Represents P m []
  | m, saved :: rest, scope :: s =>
    Represents P m (scope :: s) ∧ (∀ k, k ∈ saved ↔ k ∈ scope) ∧ Tracks P (saved.restore m) rest s
  | _, _, _ => False

variable {P : V → Prop} {m m' : HashMap K V} {saves : List (Saved K V)} {saved : Saved K V}
  {s : Scopes K V} {scope : HashMap K V}

theorem Represents.congr (h : Represents P m s) (hm : ∀ k, m'.lookup k = m.lookup k) :
    Represents P m' s where
  known k v hk := h.known k v (hm k ▸ hk)
  complete k v hk := by
    rcases h.complete k v hk with hmem | hv
    · left
      rw [← AList.lookup_isSome, hm, AList.lookup_isSome]
      exact hmem
    · exact Or.inr hv

theorem Tracks.congr (h : Tracks P m saves s) (hm : ∀ k, m'.lookup k = m.lookup k) :
    Tracks P m' saves s := by
  induction saves generalizing m m' s with
  | nil =>
    cases s with
    | nil => exact Represents.congr h hm
    | cons scope s => exact h
  | cons saved saves ih =>
    cases s with
    | nil => exact h
    | cons scope s =>
      obtain ⟨hrep, hkeys, hrest⟩ := h
      refine ⟨hrep.congr hm, hkeys, ih hrest fun k => ?_⟩
      rw [Saved.lookup_restore, Saved.lookup_restore, hm]

theorem Tracks.represents (h : Tracks P m saves s) : Represents P m s := by
  cases saves with
  | nil =>
    cases s with
    | nil => exact h
    | cons scope s => exact h.elim
  | cons saved saves =>
    cases s with
    | nil => exact h.elim
    | cons scope s => exact h.1

/-- The keys of the scopes are those for which something was saved. -/
theorem Tracks.isSome_find (h : Tracks P m saves s) (k : K) :
    (s.find k).isSome ↔ ∃ saved ∈ saves, k ∈ saved := by
  induction saves generalizing m s with
  | nil =>
    cases s with
    | nil => simp [Scopes.find]
    | cons scope s => exact h.elim
  | cons saved saves ih =>
    cases s with
    | nil => exact h.elim
    | cons scope s =>
      obtain ⟨-, hkeys, hrest⟩ := h
      rw [List.exists_mem_cons_iff, hkeys, ← ih hrest, Scopes.find_cons, Option.isSome_or,
        Bool.or_eq_true, AList.lookup_isSome]

/-- A single scope all of whose keys are in the map. -/
theorem tracks_singleton (m : HashMap K V) : Tracks P m [m.mapValues fun _ => none] [m] := by
  refine ⟨⟨fun k v hk => ?_, fun k v hk => ?_⟩, fun k => AList.mem_mapValues _ m, ?_⟩
  · rw [Scopes.find_cons, hk, Option.some_or]
  · have hnone : Scopes.find ([] : Scopes K V) k = none := rfl
    rw [Scopes.find_cons, hnone, Option.or_none] at hk
    exact Or.inl (AList.mem_iff_exists_lookup.mpr ⟨v, hk⟩)
  · refine ⟨fun k v hk => ?_, fun k v hk => by cases hk⟩
    rw [Saved.lookup_restore, AList.lookup_mapValues] at hk
    cases hm : m.lookup k with
    | none => rw [hm] at hk; cases hk
    | some w => rw [hm] at hk; cases hk

theorem Tracks.enter (h : Tracks P m saves s) : Tracks P m (∅ :: saves) (∅ :: s) := by
  have hempty : ∀ k : K, k ∉ (∅ : HashMap K V) := AList.notMem_empty
  have hrep := h.represents
  refine ⟨⟨fun k v hk => ?_, fun k v hk => ?_⟩, fun k => ?_, h.congr fun k => ?_⟩
  · rw [Scopes.find_cons_of_notMem (hempty k)]
    exact hrep.known k v hk
  · rw [Scopes.find_cons_of_notMem (hempty k)] at hk
    exact hrep.complete k v hk
  · exact iff_of_false (AList.notMem_empty k) (hempty k)
  · rw [Saved.lookup_restore, AList.lookup_empty, Option.getD_none]

theorem Tracks.leave (h : Tracks P m (saved :: saves) (scope :: s)) :
    Tracks P (saved.restore m) saves s := h.2.2

/-- A declaration of a key that the map afterwards has with its entry, or without it if it may. -/
theorem Tracks.declare {v : V} (h : Tracks P m (saved :: saves) (scope :: s))
    (hne : ∀ j, j ≠ k → m'.lookup j = m.lookup j) (hk : m'.lookup k = some v ∨ m'.lookup k = none ∧ P v) :
    Tracks P m' (saved.save m k :: saves) (scope.insert k v :: s) := by
  obtain ⟨hrep, hkeys, hrest⟩ := h
  refine ⟨⟨fun j w hj => ?_, fun j w hj => ?_⟩, fun j => ?_, ?_⟩
  · rw [Scopes.find_insert]
    by_cases hjk : j = k
    · rcases hk with hk | ⟨hk, -⟩
      · rw [if_pos hjk, ← hk, ← hjk, hj]
      · rw [hjk, hk] at hj
        cases hj
    · rw [if_neg hjk]
      exact hrep.known j w (hne j hjk ▸ hj)
  · rw [Scopes.find_insert] at hj
    by_cases hjk : j = k
    · rw [if_pos hjk] at hj
      cases hj
      rcases hk with hk | ⟨-, hv⟩
      · exact Or.inl (AList.mem_iff_exists_lookup.mpr ⟨_, hjk ▸ hk⟩)
      · exact Or.inr hv
    · rw [if_neg hjk] at hj
      rcases hrep.complete j w hj with hmem | hw
      · left
        rw [← AList.lookup_isSome, hne j hjk, AList.lookup_isSome]
        exact hmem
      · exact Or.inr hw
  · rw [Saved.mem_save, AList.mem_insert, hkeys]
  · exact hrest.congr (Saved.lookup_restore_save hne)

theorem Represents.assign (h : Represents P m s) (hk : (s.find k).isSome) (v : V) :
    Represents P (m.insert k v) (s.set k v) where
  known j w hj := by
    rw [Scopes.find_set hk]
    by_cases hjk : j = k
    · rw [if_pos hjk, ← hj, hjk, AList.lookup_insert]
    · rw [if_neg hjk]
      exact h.known j w (AList.lookup_insert_ne hjk ▸ hj)
  complete j w hj := by
    rw [Scopes.find_set hk] at hj
    by_cases hjk : j = k
    · exact Or.inl ((AList.mem_insert _).mpr (Or.inl hjk))
    · rw [if_neg hjk] at hj
      exact (h.complete j w hj).imp_left fun hmem => (AList.mem_insert _).mpr (Or.inr hmem)

/-- An assignment to a key that some scope has. -/
theorem Tracks.assign (h : Tracks P m saves s) (hk : (s.find k).isSome) (v : V) :
    Tracks P (m.insert k v) saves (s.set k v) := by
  induction saves generalizing m s with
  | nil =>
    cases s with
    | nil => cases hk
    | cons scope s => exact h.elim
  | cons saved saves ih =>
    cases s with
    | nil => exact h.elim
    | cons scope s =>
      have hrep := h.represents.assign hk v
      obtain ⟨-, hkeys, hrest⟩ := h
      by_cases hmem : k ∈ scope
      · -- the key belongs to this scope and so the map keeps nothing of it at its end
        rw [Scopes.set, if_pos hmem] at hrep ⊢
        refine ⟨hrep, fun j => ?_, hrest.congr fun j => ?_⟩
        · rw [hkeys, AList.mem_insert]
          exact ⟨Or.inr, fun hj => hj.elim (fun hj => hj ▸ hmem) id⟩
        · rw [Saved.lookup_restore, Saved.lookup_restore]
          by_cases hj : j = k
          · obtain ⟨o, ho⟩ := AList.mem_iff_exists_lookup.mp ((hkeys k).mpr hmem)
            rw [hj, ho, Option.getD_some, Option.getD_some]
          · rw [AList.lookup_insert_ne hj]
      · rw [Scopes.set, if_neg hmem] at hrep ⊢
        rw [Scopes.find_cons_of_notMem hmem] at hk
        refine ⟨hrep, hkeys, (ih hrest hk).congr fun j => ?_⟩
        have hsaved : saved.lookup k = none := by
          rw [AList.lookup_eq_none, hkeys]
          exact hmem
        rw [Saved.lookup_restore]
        by_cases hj : j = k
        · rw [hj, hsaved, Option.getD_none, AList.lookup_insert, AList.lookup_insert]
        · rw [AList.lookup_insert_ne hj, AList.lookup_insert_ne hj, Saved.lookup_restore]

end Circom.Lib
