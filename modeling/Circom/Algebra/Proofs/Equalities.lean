import Circom.Algebra.Proofs.Pivot

/-!
# Equalities and constant equalities

The constraints that `is_equality` and `is_constant_equality` accept say that two signals are equal, and
that a signal has a certain value.
-/

namespace Circom.Algebra

open Circom.Algebra.SimplificationUtils (C S clearSignal_of_ne_zero)
open Circom.Lib (HashMap)

variable {c : C} {field : ℤ}

namespace Constraint

/-! ## Shape -/

theorem isLinear_of_isConstantEquality (h : c.isConstantEquality) : c.isLinear := by
  simp only [Constraint.isConstantEquality, signalEqualsConstant, Bool.and_eq_true]
    at h
  simp only [Constraint.isLinear, Bool.and_eq_true]
  exact h.1

theorem isLinear_of_isEquality (h : c.isEquality field) : c.isLinear := by
  simp only [Constraint.isEquality, signalEqualsSignal] at h
  split_ifs at h with hc
  simp only [Bool.and_eq_true] at hc
  simp only [Constraint.isLinear, Bool.and_eq_true]
  exact hc.1.1

theorem takeClonedSignals_of_isLinear (h : c.isLinear) :
    c.takeClonedSignals = c.c.keys.toFinset.erase constantCoefficient := by
  obtain ⟨ha, hb⟩ := Constraint.isLinear_iff.mp h
  simp [Constraint.takeClonedSignals, ha, hb]

theorem card_keys (m : HashMap ℕ ℤ) : m.keys.toFinset.card = m.len := by
  rw [List.toFinset_card_of_nodup (AList.keys_nodup m), AList.len_eq_length_keys]

theorem shape_of_isConstantEquality (h : c.isConstantEquality) :
    c.a = ∅ ∧ c.b = ∅ ∧ ∃ s, c.takeClonedSignals = {s} := by
  have hlin := isLinear_of_isConstantEquality h
  obtain ⟨ha, hb⟩ := Constraint.isLinear_iff.mp hlin
  refine ⟨ha, hb, Finset.card_eq_one.mp ?_⟩
  rw [takeClonedSignals_of_isLinear hlin]
  simp only [Constraint.isConstantEquality, signalEqualsConstant, Bool.and_eq_true,
    Bool.or_eq_true, decide_eq_true_eq] at h
  rcases h.2 with ⟨hmem, hlen⟩ | ⟨hmem, hlen⟩
  · rw [Finset.card_erase_of_mem (List.mem_toFinset.mpr (AList.mem_keys.mp hmem)), card_keys, hlen]
  · rw [Finset.erase_eq_of_notMem fun hk => hmem (AList.mem_keys.mpr (List.mem_toFinset.mp hk)),
      card_keys, hlen]

theorem shape_of_isEquality (h : c.isEquality field) :
    c.a = ∅ ∧ c.b = ∅ ∧ ∃ s s' v v', s ≠ s' ∧ c.takeClonedSignals = {s, s'} ∧
      c.c.lookup s = some v ∧ c.c.lookup s' = some v' ∧ field ∣ v + v' := by
  have hlin := isLinear_of_isEquality h
  obtain ⟨ha, hb⟩ := Constraint.isLinear_iff.mp hlin
  refine ⟨ha, hb, ?_⟩
  rw [takeClonedSignals_of_isLinear hlin]
  simp only [Constraint.isEquality, signalEqualsSignal] at h
  split_ifs at h with hc
  simp only [Bool.and_eq_true, decide_eq_true_eq] at hc
  have hconstant : constantCoefficient ∉ c.c := hc.1.2
  have hkeys := AList.pairs_map_fst c.c
  have hnodup := AList.keys_nodup c.c
  match hp : c.c.pairs, h with
  | [(s, v), (s', v')], h =>
    rw [hp] at hkeys
    simp only [List.map_cons, List.map_nil] at hkeys
    rw [← hkeys] at hnodup
    have hmul : ModularArithmetic.mul (-1) v' field = v := of_decide_eq_true h
    refine ⟨s, s', v, v', ?_, ?_, ?_, ?_, ?_⟩
    · exact (List.pairwise_pair.mp hnodup)
    · rw [Finset.erase_eq_of_notMem fun hk =>
        hconstant (AList.mem_keys.mpr (List.mem_toFinset.mp hk)), ← hkeys]
      simp
    · exact AList.mem_pairs_iff_lookup.mp (by rw [hp]; exact List.mem_cons_self)
    · exact AList.mem_pairs_iff_lookup.mp (by rw [hp]; exact List.mem_cons_of_mem _ List.mem_cons_self)
    · have hdvd := ModularArithmetic.dvd_sub_modulus (-1 * v') field
      rw [show ModularArithmetic.modulus (-1 * v') field = v from hmul] at hdvd
      rw [show v + v' = -(-1 * v' - v) by ring]
      exact (dvd_neg).mpr hdvd

theorem pairs_of_isEquality (h : c.isEquality field) :
    ∃ s s' v v', c.c.pairs = [(s, v), (s', v')] ∧ ModularArithmetic.mul (-1) v' field = v ∧
      constantCoefficient ∉ c.c := by
  simp only [isEquality, signalEqualsSignal] at h
  split_ifs at h with hc
  simp only [Bool.and_eq_true, decide_eq_true_eq] at hc
  match hp : c.c.pairs, h with
  | [(s, v), (s', v')], h => exact ⟨s, s', v, v', rfl, of_decide_eq_true h, hc.1.2⟩

theorem mem_of_pairs {m : HashMap ℕ ℤ} {l : List (ℕ × ℤ)} (h : m.pairs = l) {k : ℕ} :
    k ∈ m ↔ k ∈ l.map Prod.fst := by
  rw [← h, AList.pairs_map_fst, AList.mem_keys]

/-! ## Meaning -/

variable {p : ℕ} [hp : Fact p.Prime]

/-- No signal has a coefficient that is zero in the field. -/
def NonzeroCoeffs (p : ℕ) (c : C) : Prop :=
  ∀ k v, k ≠ 0 → c.c.lookup k = some v → (v : ZMod p) ≠ 0

theorem nonzeroCoeffs_iff_pairs : c.NonzeroCoeffs p ↔ ∀ e ∈ c.c.pairs, e.1 ≠ 0 → (e.2 : ZMod p) ≠ 0 := by
  constructor
  · rintro h ⟨k, v⟩ he hk
    exact h k v hk (AList.mem_pairs_iff_lookup.mp he)
  · intro h k v hk hl
    exact h (k, v) (AList.mem_pairs_iff_lookup.mpr hl) hk

instance (c : C) : Decidable (c.NonzeroCoeffs p) := decidable_of_iff _ nonzeroCoeffs_iff_pairs.symm

theorem Reduced.nonzeroCoeffs (hc : c.Reduced p) : c.NonzeroCoeffs p := by
  intro k v _ hl
  rw [Ne, ModularArithmetic.cast_eq_zero_iff (hc.coeffs.2.2 k v hl)]
  rintro rfl
  exact hc.nonzero.2.2 k hl

/-- An equality says that its two signals are equal. -/
theorem equality_spec (h : c.isEquality p) (hc : c.NonzeroCoeffs p) :
    ∃ s s', s ≠ s' ∧ s ≠ 0 ∧ s' ≠ 0 ∧ c.takeClonedSignals = {s, s'} ∧
      (∀ k, c.Mentions k ↔ k = s ∨ k = s') ∧ ∀ ρ : ℕ → ZMod p, c.Sat ρ ↔ ρ s = ρ s' := by
  have hlin := isLinear_of_isEquality h
  obtain ⟨s, s', v, v', hpairs, hmul, hconstant⟩ := pairs_of_isEquality h
  have hmem : ∀ k, c.Mentions k ↔ k = s ∨ k = s' := by
    intro k
    rw [mentions_iff_of_isLinear hlin, mem_of_pairs hpairs]
    simp
  have hs0 : s ≠ 0 := by
    rintro rfl
    exact hconstant ((mem_of_pairs hpairs).mpr (by simp [constantCoefficient]))
  have hs0' : s' ≠ 0 := by
    rintro rfl
    exact hconstant ((mem_of_pairs hpairs).mpr (by simp [constantCoefficient]))
  have hne : s ≠ s' := by
    have hnodup := AList.keys_nodup c.c
    rw [← AList.pairs_map_fst, hpairs] at hnodup
    simpa using hnodup
  have hv : (v : ZMod p) ≠ 0 := hc s v hs0
    (AList.mem_pairs_iff_lookup.mp (by rw [hpairs]; exact List.mem_cons_self))
  refine ⟨s, s', hne, hs0, hs0', ?_, hmem, ?_⟩
  · ext k
    rw [mem_takeClonedSignals, hmem, Finset.mem_insert, Finset.mem_singleton]
    constructor
    · exact And.right
    · rintro (rfl | rfl)
      · exact ⟨hs0, Or.inl rfl⟩
      · exact ⟨hs0', Or.inr rfl⟩
  · intro ρ
    have hv' : (v : ZMod p) = -v' := by
      rw [← hmul, ModularArithmetic.cast_mul]
      push_cast
      ring
    have heval : c.c.eval ρ = v * (ρ s - ρ s') := by
      rw [AList.eval_eq_sum_pairs, hpairs]
      simp only [List.map_cons, List.map_nil, List.sum_cons, List.sum_nil, hv']
      ring
    rw [sat_iff_of_isLinear hlin, heval, mul_eq_zero, sub_eq_zero]
    exact or_iff_right hv

/-- A constraint with a single signal is an equation for it. -/
theorem single_spec (hlin : c.isLinear) (hc : c.NonzeroCoeffs p) {s : ℕ} (hs : c.takeClonedSignals = {s}) :
    ∃ v k : ZMod p, v ≠ 0 ∧ ∀ ρ : ℕ → ZMod p, ρ 0 = 1 → (c.Sat ρ ↔ v * ρ s + k = 0) := by
  have hmem : s ≠ 0 ∧ c.Mentions s :=
    mem_takeClonedSignals.mp (by rw [hs]; exact Finset.mem_singleton_self s)
  obtain ⟨v, hv⟩ := AList.mem_iff_exists_lookup.mp ((mentions_iff_of_isLinear hlin).mp hmem.2)
  refine ⟨v, (c.c.erase s).eval fun _ => 1, hc s v hmem.1 hv, ?_⟩
  intro ρ h1
  have hrest : (c.c.erase s).eval ρ = (c.c.erase s).eval fun _ => 1 := by
    refine AList.eval_congr ?_
    intro k hk
    obtain ⟨hne, hk⟩ := AList.mem_erase.mp hk
    by_cases hk0 : k = 0
    · rw [hk0, h1]
    · have : k ∈ c.takeClonedSignals :=
        mem_takeClonedSignals.mpr ⟨hk0, (mentions_iff_of_isLinear hlin).mpr hk⟩
      rw [hs] at this
      exact absurd (Finset.mem_singleton.mp this) hne
  rw [sat_iff_of_isLinear hlin, AList.eval_of_lookup ρ hv, hrest]

/-- Solving a linear constraint for one of its signals. -/
theorem clearSignalFromLinear_spec {work : C} (hw : work.isLinear) (hc : work.NonzeroCoeffs p)
    {out : ℕ} (hout : out ∈ work.c) (h0 : out ≠ 0) :
    ∃ sub : S, work.clearSignalFromLinear out p = some sub ∧ sub.fromSignal = out ∧
      Algebra.CoeffsInField p sub.toExpr ∧ (∀ ρ : ℕ → ZMod p, sub.Holds ρ ↔ work.Sat ρ) ∧
      ∀ k ∈ sub.toExpr, k = 0 ∨ k ∈ work.c ∧ k ≠ out := by
  obtain ⟨v, hv⟩ := AList.mem_iff_exists_lookup.mp hout
  obtain ⟨coefficient, rest, hclear, hok, hsat, hkeys⟩ :=
    clearSignal_of_ne_zero hw hv (hc out v h0 hv) h0
  obtain ⟨⟨coefficient', rest'⟩, hraw, heq⟩ := Option.bind_eq_some_iff.mp hclear
  obtain ⟨rfl, hrest⟩ := Prod.mk.inj (Option.some.inj heq)
  obtain rfl : rest' = rest := congrArg Algebra.Substitution.toExpr hrest
  obtain ⟨inverse, hinverse⟩ := ModularArithmetic.div_eq_ok (p := p) (l := 1) hok.unit
  have hdivide : divideCoefficientsByConstant coefficient' rest' p =
      .ok (multiplyCoefficientsByConstant inverse rest' p) := by
    rw [divideCoefficientsByConstant, hinverse]
    rfl
  refine ⟨⟨out, Algebra.removeZeroValueCoefficients
    (multiplyCoefficientsByConstant inverse rest' p)⟩, ?_, rfl, ?_, ?_, ?_⟩
  · simp only [clearSignalFromLinear, clearSignal, hraw, Option.bind_eq_bind, Option.bind_some,
      hdivide]
  · exact Algebra.coeffsInField_removeZero (coeffsInField_multiply _ _)
  · intro ρ
    obtain ⟨-, heval⟩ := ArithmeticExpression.divideCoefficients_spec (ρ := ρ) hdivide
    rw [hsat ρ, Substitution.Holds, eval_removeZero, heval]
    simp only [SimplificationUtils.PivotHolds]
    rw [eq_div_iff hok.unit, mul_comm]
  · intro k hk
    exact hkeys k (mem_multiplyCoefficients.mp (mem_of_mem_removeZero hk))

end Constraint

end Circom.Algebra
