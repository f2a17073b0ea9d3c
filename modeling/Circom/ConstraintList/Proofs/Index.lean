import Circom.ConstraintList.Proofs.Extension

/-!
# Substitutions in the storage

A substitution is applied to the constraints that the map of signals lists for its signal. The map lists at
least the constraints that contain the signal, so that no constraint is missed, and only constraints that
exist.
-/

namespace Circom.ConstraintList

open Circom.Algebra (Constraint ConstraintStorage)
open Circom.Algebra.SimplificationUtils (BlankFactors Independent Rewrites replaced mem_replaced)
open Circom.Lib (HashMap foldlM_invariant)

variable {p : ℕ}

/-! ## The map of signals -/

/-- The constraints that the map lists for a signal. -/
def SignalToConstraints.ids (map : SignalToConstraints) (k : ℕ) : List ℕ := (map.lookup k).getD []

theorem ids_pushConstraint (cId : ℕ) (map : SignalToConstraints) (signal k : ℕ) :
    (pushConstraint cId map signal).ids k = if k = signal then map.ids k ++ [cId] else map.ids k := by
  unfold pushConstraint SignalToConstraints.ids
  by_cases hk : k = signal
  · subst hk
    rw [if_pos rfl]
    cases map.lookup k <;> simp
  · rw [if_neg hk]
    cases map.lookup signal <;> simp [hk]

theorem mem_ids_foldl {cId id k : ℕ} (l : List ℕ) (map : SignalToConstraints) :
    id ∈ (l.foldl (pushConstraint cId) map).ids k ↔ id ∈ map.ids k ∨ k ∈ l ∧ id = cId := by
  induction l generalizing map with
  | nil => simp
  | cons signal l ih =>
    rw [List.foldl_cons, ih, ids_pushConstraint, List.mem_cons]
    by_cases hk : k = signal
    · rw [if_pos hk, List.mem_append, List.mem_singleton]
      tauto
    · rw [if_neg hk]
      tauto

theorem mem_of_mem_ids {map : SignalToConstraints} {id k : ℕ} (h : id ∈ map.ids k) : k ∈ map := by
  unfold SignalToConstraints.ids at h
  cases hl : map.lookup k with
  | none =>
    rw [hl] at h
    cases h
  | some l => exact AList.mem_iff_exists_lookup.mpr ⟨l, hl⟩

/-- The map lists every constraint under all its signals, and only constraints that exist. -/
structure Mapped.Indexed (mapped : Mapped) : Prop where
  covers : ∀ (id : ℕ) c k, mapped.storage.constraints[id]? = some c → k ≠ 0 → c.Mentions k →
    id ∈ mapped.map.ids k
  valid : ∀ id k, id ∈ mapped.map.ids k → id < mapped.storage.constraints.length

theorem Mapped.Indexed.addConstraint {mapped : Mapped} (h : mapped.Indexed) (constraint : C) :
    (mapped.addConstraint constraint).Indexed := by
  have hstorage : (mapped.addConstraint constraint).storage.constraints =
      mapped.storage.constraints ++ [constraint] := rfl
  have hids : ∀ id k, id ∈ (mapped.addConstraint constraint).map.ids k ↔
      id ∈ mapped.map.ids k ∨
        k ∈ constraint.takeClonedSignals.ascending ∧ id = mapped.storage.constraints.length :=
    fun id k => mem_ids_foldl _ _
  constructor
  · intro id c k hc hk hm
    rw [hids]
    rw [hstorage, List.getElem?_append] at hc
    split_ifs at hc with hlt
    · exact Or.inl (h.covers id c k hc hk hm)
    · have hid := (List.getElem?_eq_some_iff.mp hc).1
      rw [List.length_singleton] at hid
      obtain rfl : c = constraint := List.mem_singleton.mp (List.mem_of_getElem? hc)
      refine Or.inr ⟨?_, by omega⟩
      rw [Finset.mem_ascending]
      exact Constraint.mem_takeClonedSignals.mpr ⟨hk, hm⟩
  · intro id k hid
    rw [hids] at hid
    rw [hstorage, List.length_append, List.length_singleton]
    rcases hid with hid | ⟨-, rfl⟩
    · have := h.valid id k hid
      omega
    · omega

theorem buildNonLinearSignalMap_spec (storage : ConstraintStorage) :
    ∃ map, buildNonLinearSignalMap storage = some map ∧ Mapped.Indexed ⟨storage, map⟩ := by
  have hloop := foldlM_invariant
    (f := fun map cId => do
      let constraint ← storage.readConstraint cId
      some (constraint.takeClonedSignals.ascending.foldl (pushConstraint cId) map))
    (fun (l : List ℕ) (map : SignalToConstraints) => ∃ done, done ++ l = storage.getIds ∧
      ∀ id k, id ∈ map.ids k ↔ id ∈ done ∧ ∃ c, storage.constraints[id]? = some c ∧
        k ∈ c.takeClonedSignals) ?_ (l := storage.getIds) (s := ∅) ?_
  · obtain ⟨map, hrun, done, hdone, hids⟩ := hloop
    rw [List.append_nil] at hdone
    subst hdone
    refine ⟨map, hrun, ?_, ?_⟩
    · intro id c k hc hk hm
      refine (hids id k).mpr ⟨?_, c, hc, Constraint.mem_takeClonedSignals.mpr ⟨hk, hm⟩⟩
      exact List.mem_range.mpr (List.getElem?_eq_some_iff.mp hc).1
    · intro id k hid
      exact List.mem_range.mp ((hids id k).mp hid).1
  · rintro cId l map ⟨done, hdone, hids⟩
    have hlt : cId < storage.constraints.length := by
      refine List.mem_range.mp (show cId ∈ storage.getIds from ?_)
      rw [← hdone]
      simp
    have hread : storage.readConstraint cId = some storage.constraints[cId] :=
      List.getElem?_eq_getElem hlt
    refine ⟨_, by simp only [hread, Option.bind_eq_bind, Option.bind_some]; rfl, done ++ [cId], ?_, ?_⟩
    · rw [List.append_assoc]
      exact hdone
    · intro id k
      rw [mem_ids_foldl, hids, List.mem_append, List.mem_singleton, Finset.mem_ascending]
      constructor
      · rintro (⟨hid, hc⟩ | ⟨hk, rfl⟩)
        · exact ⟨Or.inl hid, hc⟩
        · exact ⟨Or.inr rfl, _, List.getElem?_eq_getElem hlt, hk⟩
      · rintro ⟨hid | rfl, c, hc, hk⟩
        · exact Or.inl ⟨hid, c, hc, hk⟩
        · rw [List.getElem?_eq_getElem hlt] at hc
          rw [Option.some.inj hc]
          exact Or.inr ⟨hk, rfl⟩
  · refine ⟨[], rfl, ?_⟩
    intro id k
    simp [SignalToConstraints.ids, AList.lookup_empty]

/-! ## Substitutions one after the other -/

/-- The constraint after the substitutions `done` of the list `subs` have been applied. -/
structure Stage (p : ℕ) (subs done : List S) (c c' : C) : Prop where
  sat_iff : ∀ ρ : ℕ → ZMod p, ρ 0 = 1 → (∀ s ∈ subs, s.Holds ρ) → (c'.Sat ρ ↔ c.Sat ρ)
  mentions : ∀ k, c'.Mentions k → k = 0 ∨ (c.Mentions k ∧ k ∉ replaced done) ∨
    ∃ s ∈ subs, c.Mentions s.fromSignal ∧ k ∈ s.toExpr
  coeffs : c.CoeffsInField p → c'.CoeffsInField p

namespace Stage

variable {subs done : List S} {c c' : C}

theorem refl (subs : List S) (c : C) : Stage p subs [] c c :=
  ⟨fun _ _ _ => Iff.rfl, fun _ hk => Or.inr (Or.inl ⟨hk, by simp [replaced]⟩), id⟩

theorem rewrites (h : Stage p subs subs c c') : Rewrites p subs c c' :=
  ⟨h.sat_iff, h.mentions, h.coeffs⟩

theorem mem_replaced_concat {s : S} {k : ℕ} :
    k ∈ replaced (done ++ [s]) ↔ k ∈ replaced done ∨ s.fromSignal = k := by
  simp only [mem_replaced, List.mem_append, List.mem_singleton, or_and_right, exists_or,
    exists_eq_left]

/-- A constraint without the signal of a substitution needs no change. -/
theorem skip (h : Stage p subs done c c') {s : S} (hs : ¬ c'.Mentions s.fromSignal) :
    Stage p subs (done ++ [s]) c c' := by
  refine ⟨h.sat_iff, ?_, h.coeffs⟩
  intro k hk
  refine (h.mentions k hk).imp_right (Or.imp_left (And.imp_right fun hnot => ?_))
  rw [mem_replaced_concat]
  rintro (hmem | rfl)
  · exact hnot hmem
  · exact hs hk

theorem notMentions_apply (hi : Independent subs) {s : S} (hs : s ∈ subs) (c' : C) :
    ¬ (c'.applySubstitution s p).Mentions s.fromSignal := by
  intro hk
  rcases Constraint.mentions_applySubstitution hk with h0 | ⟨-, hne⟩ | ⟨hks, -⟩
  · exact hi.from_ne s hs h0
  · exact hne rfl
  · exact hi.free s hs s hs hks

variable [NeZero p]

theorem fix (h : Stage p subs done c c') : Stage p subs done c (c'.fixConstraint p) := by
  refine ⟨?_, ?_, fun hc => Constraint.coeffsInField_fixConstraint (h.coeffs hc)⟩
  · intro ρ h1 hsubs
    rw [Constraint.sat_fixConstraint c' h1]
    exact h.sat_iff ρ h1 hsubs
  · intro k hk
    rcases Constraint.mentions_fixConstraint hk with h0 | hk
    · exact Or.inl h0
    · exact h.mentions k hk

theorem apply (h : Stage p subs done c c') (hi : Independent subs) {s : S} (hs : s ∈ subs) :
    Stage p subs done c (c'.applySubstitution s p) := by
  refine ⟨?_, ?_, fun hc => Constraint.coeffsInField_applySubstitution (h.coeffs hc) s⟩
  · intro ρ h1 hsubs
    rw [Constraint.sat_applySubstitution c' (hsubs s hs)]
    exact h.sat_iff ρ h1 hsubs
  · intro k hk
    rcases Constraint.mentions_applySubstitution hk with h0 | ⟨hk, -⟩ | ⟨hks, h0 | hcs⟩
    · exact Or.inl h0
    · exact h.mentions k hk
    · exact absurd h0 (hi.from_ne s hs)
    · rcases h.mentions _ hcs with h0 | ⟨hcs, -⟩ | ⟨t, ht, -, hst⟩
      · exact absurd h0 (hi.from_ne s hs)
      · exact Or.inr (Or.inr ⟨s, hs, hcs, hks⟩)
      · exact absurd hst (hi.free s hs t ht)

end Stage

variable [NeZero p]

/-- All substitutions applied to one constraint. -/
theorem rewrites_foldl {subs : List S} (hi : Independent subs) (c : C) :
    Rewrites p subs c (subs.foldl (fun c sub => c.applySubstitution sub p) c) := by
  suffices hgeneral : ∀ (l done : List S) (c' : C), done ++ l = subs → Stage p subs done c c' →
      Stage p subs subs c (l.foldl (fun c sub => c.applySubstitution sub p) c') from
    (hgeneral subs [] c rfl (Stage.refl subs c)).rewrites
  intro l
  induction l with
  | nil =>
    intro done c' hdone h
    rw [List.append_nil] at hdone
    rw [← hdone]
    rwa [← hdone] at h
  | cons s l ih =>
    intro done c' hdone h
    have hs : s ∈ subs := by rw [← hdone]; simp
    refine ih (done ++ [s]) _ (by rw [List.append_assoc]; exact hdone) ?_
    exact (h.apply hi hs).skip (Stage.notMentions_apply hi hs c')

end Circom.ConstraintList
