import Circom.Algebra.Proofs.Constraint
import Circom.Lib.PartialFold

/-!
# Shifting and renaming the signals of a constraint

`apply_offset` adds an offset to every signal and keeps the constant key. It renames the signals one to
one, so it keeps the shape of a constraint and moves its meaning along. `apply_correspondence` renames by
a map.
-/

namespace Circom.Algebra

open Circom.Lib (HashMap)

variable {c : Constraint ℕ} {h : HashMap ℕ ℤ} {k offset : ℕ} {field : ℤ}

/-- The signal `k` after an offset. -/
def shift (offset k : ℕ) : ℕ := if k = constantCoefficient then k else k + offset

@[simp] theorem shift_zero (k : ℕ) : shift 0 k = k := by
  rw [shift, Nat.add_zero, ite_self]

theorem shift_of_ne (h : k ≠ 0) : shift offset k = k + offset := if_neg h

theorem shift_eq_constant : shift offset k = constantCoefficient ↔ k = constantCoefficient := by
  by_cases hk : k = 0
  · subst hk
    rfl
  · rw [shift_of_ne hk]
    show k + offset = 0 ↔ k = 0
    omega

theorem shift_injective (offset : ℕ) : Function.Injective (shift offset) := by
  intro k k' h
  by_cases hk : k = 0
  · subst hk
    exact (shift_eq_constant.mp h.symm).symm
  · by_cases hk' : k' = 0
    · subst hk'
      exact shift_eq_constant.mp h
    · rw [shift_of_ne hk, shift_of_ne hk'] at h
      omega

/-! ## Maps -/

theorem applyRawOffset_eq (h : HashMap ℕ ℤ) (offset : ℕ) :
    applyRawOffset h offset = AList.ofPairs (h.pairs.map fun e => (shift offset e.1, e.2)) := rfl

theorem nodup_shifted (h : HashMap ℕ ℤ) (offset : ℕ) :
    ((h.pairs.map fun e => (shift offset e.1, e.2)).map Prod.fst).Nodup := by
  have hkeys : (h.pairs.map fun e => (shift offset e.1, e.2)).map Prod.fst =
      h.keys.map (shift offset) := by
    rw [← AList.pairs_map_fst, List.map_map, List.map_map]
    rfl
  rw [hkeys]
  exact (AList.keys_nodup h).map (shift_injective offset)

theorem lookup_applyRawOffset {v : ℤ} :
    (applyRawOffset h offset).lookup k = some v ↔
      ∃ k', h.lookup k' = some v ∧ k = shift offset k' := by
  rw [applyRawOffset_eq, AList.lookup_ofPairs (nodup_shifted h offset), List.mem_map]
  constructor
  · rintro ⟨⟨k', v'⟩, he, heq⟩
    obtain ⟨rfl, rfl⟩ := Prod.mk.inj heq
    exact ⟨k', AList.mem_pairs_iff_lookup.mp he, rfl⟩
  · rintro ⟨k', hk', rfl⟩
    exact ⟨(k', v), AList.mem_pairs_iff_lookup.mpr hk', rfl⟩

theorem mem_applyRawOffset : k ∈ applyRawOffset h offset ↔ ∃ k' ∈ h, k = shift offset k' := by
  simp only [AList.mem_iff_exists_lookup, lookup_applyRawOffset]
  constructor
  · rintro ⟨v, k', hk', rfl⟩
    exact ⟨k', ⟨v, hk'⟩, rfl⟩
  · rintro ⟨k', ⟨v, hk'⟩, rfl⟩
    exact ⟨v, k', hk', rfl⟩

theorem len_applyRawOffset (h : HashMap ℕ ℤ) (offset : ℕ) :
    (applyRawOffset h offset).len = h.len := by
  have hperm := AList.entries_ofPairs_perm (nodup_shifted h offset)
  have hlen := hperm.length_eq
  simp only [AList.pairs, List.length_map] at hlen
  exact hlen

theorem toFinmap_applyRawOffset_zero (h : HashMap ℕ ℤ) :
    (applyRawOffset h 0).toFinmap = h.toFinmap := by
  refine AList.toFinmap_eq_iff_lookup.mpr ?_
  intro k
  ext v
  rw [lookup_applyRawOffset]
  constructor
  · rintro ⟨k', hk', rfl⟩
    rw [shift_zero]
    exact hk'
  · intro hk
    exact ⟨k, hk, (shift_zero k).symm⟩

theorem coeffsInField_applyRawOffset (hh : CoeffsInField field h)
    (offset : ℕ) : CoeffsInField field (applyRawOffset h offset) := by
  intro k v hv
  obtain ⟨k', hk', -⟩ := lookup_applyRawOffset.mp hv
  exact hh k' v hk'

theorem noZeroCoeff_applyRawOffset (hh : NoZeroCoeff h) (offset : ℕ) : NoZeroCoeff (applyRawOffset h offset) := by
  intro k hv
  obtain ⟨k', hk', -⟩ := lookup_applyRawOffset.mp hv
  exact hh k' hk'

/-! ## Constraints -/

namespace Constraint

/-- The three maps of a constraint without their iteration orders. -/
def toFinmaps (c : Constraint ℕ) :
    Finmap (fun _ : ℕ => ℤ) × Finmap (fun _ : ℕ => ℤ) × Finmap (fun _ : ℕ => ℤ) :=
  (c.a.toFinmap, c.b.toFinmap, c.c.toFinmap)

theorem toFinmaps_applyOffset_zero (c : Constraint ℕ) :
    (c.applyOffset 0).toFinmaps = c.toFinmaps := by
  simp only [toFinmaps, applyOffset, toFinmap_applyRawOffset_zero]

theorem isLinear_applyOffset (c : Constraint ℕ) (offset : ℕ) :
    (c.applyOffset offset).isLinear = c.isLinear := by
  simp only [isLinear, applyOffset, len_applyRawOffset]

theorem mentions_applyOffset : (c.applyOffset offset).Mentions k ↔ ∃ k', c.Mentions k' ∧ k = shift offset k' := by
  simp only [Mentions, applyOffset, mem_applyRawOffset]
  constructor
  · rintro (⟨k', hk', rfl⟩ | ⟨k', hk', rfl⟩ | ⟨k', hk', rfl⟩)
    · exact ⟨k', Or.inl hk', rfl⟩
    · exact ⟨k', Or.inr (Or.inl hk'), rfl⟩
    · exact ⟨k', Or.inr (Or.inr hk'), rfl⟩
  · rintro ⟨k', hk' | hk' | hk', rfl⟩
    · exact Or.inl ⟨k', hk', rfl⟩
    · exact Or.inr (Or.inl ⟨k', hk', rfl⟩)
    · exact Or.inr (Or.inr ⟨k', hk', rfl⟩)

theorem coeffsInField_applyOffset (h : c.CoeffsInField field)
    (offset : ℕ) : (c.applyOffset offset).CoeffsInField field :=
  ⟨coeffsInField_applyRawOffset h.1 offset, coeffsInField_applyRawOffset h.2.1 offset,
    coeffsInField_applyRawOffset h.2.2 offset⟩

theorem noZeroCoeff_applyOffset (h : c.NoZeroCoeff) (offset : ℕ) : (c.applyOffset offset).NoZeroCoeff :=
  ⟨noZeroCoeff_applyRawOffset h.1 offset, noZeroCoeff_applyRawOffset h.2.1 offset,
    noZeroCoeff_applyRawOffset h.2.2 offset⟩

end Constraint

/-! ## Renamed signals -/

section Correspondence

variable {K L : Type} [DecidableEq K] [Inhabited K] [DecidableEq L] [Inhabited L] {map : HashMap K L}

/-- An entry of a renamed expression comes from an entry of the expression. -/
theorem lookup_applyRawCorrespondence {symbols : HashMap K ℤ} {renamed : HashMap L ℤ}
    (h : applyRawCorrespondence symbols map = some renamed) {k : L} {v : ℤ}
    (hk : renamed.lookup k = some v) :
    ∃ s, symbols.lookup s = some v ∧ (k = constantCoefficient ∨ map.lookup s = some k) := by
  obtain ⟨pairs, hpairs, h⟩ := Option.bind_eq_some_iff.mp h
  obtain rfl := Option.some.inj h
  obtain ⟨⟨s, v'⟩, he, hstep⟩ := Lib.exists_of_forall₂_right (Lib.forall₂_of_mapM hpairs)
    (AList.mem_of_lookup_ofPairs hk)
  have hs := AList.mem_pairs_iff_lookup.mp he
  simp only at hstep
  split_ifs at hstep
  · obtain ⟨rfl, rfl⟩ := Prod.mk.inj (Option.some.inj hstep)
    exact ⟨s, hs, Or.inl rfl⟩
  · obtain ⟨id, hid, hstep⟩ := Option.bind_eq_some_iff.mp hstep
    obtain ⟨rfl, rfl⟩ := Prod.mk.inj (Option.some.inj hstep)
    exact ⟨s, hs, Or.inr hid⟩

theorem coeffsInField_applyRawCorrespondence {symbols : HashMap K ℤ} {renamed : HashMap L ℤ}
    (hs : CoeffsInField field symbols)
    (h : applyRawCorrespondence symbols map = some renamed) : CoeffsInField field renamed := by
  intro k v hk
  obtain ⟨s, hv, -⟩ := lookup_applyRawCorrespondence h hk
  exact hs s v hv

namespace Constraint

theorem coeffsInField_applyCorrespondence {c : Constraint K} {c' : Constraint L} (hc : c.CoeffsInField field)
    (h : c.applyCorrespondence map = some c') : c'.CoeffsInField field := by
  obtain ⟨a, ha, h⟩ := Option.bind_eq_some_iff.mp h
  obtain ⟨b, hb, h⟩ := Option.bind_eq_some_iff.mp h
  obtain ⟨d, hd, h⟩ := Option.bind_eq_some_iff.mp h
  obtain rfl := Option.some.inj h
  exact ⟨coeffsInField_applyRawCorrespondence hc.1 ha, coeffsInField_applyRawCorrespondence hc.2.1 hb,
    coeffsInField_applyRawCorrespondence hc.2.2 hd⟩

/-- A renamed constraint mentions only new names. -/
theorem mentions_applyCorrespondence {c : Constraint K} {c' : Constraint L}
    (h : c.applyCorrespondence map = some c') {k : L} (hk : c'.Mentions k) :
    k = constantCoefficient ∨ ∃ s, map.lookup s = some k := by
  obtain ⟨a, ha, h⟩ := Option.bind_eq_some_iff.mp h
  obtain ⟨b, hb, h⟩ := Option.bind_eq_some_iff.mp h
  obtain ⟨d, hd, h⟩ := Option.bind_eq_some_iff.mp h
  obtain rfl := Option.some.inj h
  have hname : ∀ {symbols : HashMap K ℤ} {renamed : HashMap L ℤ},
      applyRawCorrespondence symbols map = some renamed → k ∈ renamed →
      k = constantCoefficient ∨ ∃ s, map.lookup s = some k := by
    intro symbols renamed hren hmem
    obtain ⟨v, hv⟩ := AList.mem_iff_exists_lookup.mp hmem
    obtain ⟨s, -, hs⟩ := lookup_applyRawCorrespondence hren hv
    exact hs.imp_right fun hs => ⟨s, hs⟩
  rcases hk with hk | hk | hk
  · exact hname ha hk
  · exact hname hb hk
  · exact hname hd hk

end Constraint

end Correspondence

end Circom.Algebra
