import Circom.Algebra.SimplificationUtils
import Circom.Algebra.Proofs.Expression

/-!
# Pivots

Eliminating a signal from a linear constraint gives a pivot `coefficient * from = to`, and two pivots
of one signal give a constraint without it. Both steps keep the solutions.
-/

set_option linter.unusedSectionVars false

namespace Circom.Algebra

open Circom.Lib (HashMap)
open ModularArithmetic (InField)

variable {K : Type} [DecidableEq K] [Inhabited K] {p : ℕ} {ρ : K → ZMod p}
variable {e : ArithmeticExpression K} {work : C} {out : ℕ}

/-- A linear constraint with canonical coefficients none of which is zero. -/
structure Constraint.Reduced (p : ℕ) (c : Constraint K) : Prop where
  linear : c.isLinear
  coeffs : c.CoeffsInField p
  nonzero : c.NoZeroCoeff

instance (p : ℕ) (c : Constraint K) : Decidable (c.Reduced p) :=
  decidable_of_iff (c.isLinear ∧ c.CoeffsInField p ∧ c.NoZeroCoeff)
    ⟨fun ⟨h1, h2, h3⟩ => ⟨h1, h2, h3⟩, fun h => ⟨h.1, h.2, h.3⟩⟩

namespace ArithmeticExpression

/-! ## Affine expressions -/

/-- A number or a linear expression with its constant key. -/
def Affine : ArithmeticExpression K → Prop
  | .number _ => True
  | .linear m => constantCoefficient ∈ m
  | _ => False

/-- The signals of an affine expression; the constant key counts when it is written. -/
def Mentions : ArithmeticExpression K → K → Prop
  | .linear m, k => k ∈ m
  | _, _ => False

theorem Affine.hasConstant (h : e.Affine) : e.HasConstant := by
  cases e <;> first | exact h | exact h.elim

theorem Affine.ne_nonQuadratic (h : e.Affine) : e ≠ .nonQuadratic := by
  rintro rfl
  exact h

section Field

variable [hp : Fact p.Prime]

theorem hashmapIntoArith_affine {m : HashMap K ℤ} (h : constantCoefficient ∈ m) :
    (hashmapIntoArith m).Affine ∧ ∀ k, (hashmapIntoArith m).Mentions k → k ∈ m := by
  have hl : (ArithmeticExpression.linear (initializeHashmapForExpression m)).Affine ∧
      ∀ k, (ArithmeticExpression.linear (initializeHashmapForExpression m)).Mentions k → k ∈ m := by
    rw [initialize_of_mem h]
    exact ⟨h, fun k hk => hk⟩
  unfold hashmapIntoArith
  split
  · next symbol value heq =>
    have hs : constantCoefficient = symbol := by
      have : constantCoefficient ∈ m.pairs.map Prod.fst := by
        rw [AList.pairs_map_fst]; exact h
      simpa [heq] using this
    rw [if_pos hs.symm]
    exact ⟨trivial, fun k hk => hk.elim⟩
  · exact hl

theorem eval_hashmapIntoArith (h1 : ρ constantCoefficient = 1) (m : HashMap K ℤ) :
    (hashmapIntoArith m).eval ρ = m.eval ρ := by
  unfold hashmapIntoArith
  split
  · next symbol value heq =>
    have hm : m.eval ρ = value * ρ symbol := by simp [AList.eval_eq_sum_pairs, heq]
    split_ifs with hs hv
    · rw [hm, hs, h1, mul_one]; rfl
    · rw [hm, hv, Int.cast_one, one_mul]; rfl
    · exact eval_initialized m
  · exact eval_initialized m

theorem mul_number_affine (v : ℤ) (h : e.Affine) (field : ℤ) :
    (mul (.number v) e field).Affine ∧ ∀ k, (mul (.number v) e field).Mentions k → e.Mentions k := by
  cases e with
  | number => exact ⟨trivial, fun k hk => hk⟩
  | linear m => exact ⟨mem_multiplyCoefficients.mpr h, fun k hk => mem_multiplyCoefficients.mp hk⟩
  | signal | quadratic | nonQuadratic => exact h.elim

theorem mul_number_right_affine (v : ℤ) (h : e.Affine) (field : ℤ) :
    (mul e (.number v) field).Affine ∧ ∀ k, (mul e (.number v) field).Mentions k → e.Mentions k := by
  cases e with
  | number => exact ⟨trivial, fun k hk => hk⟩
  | linear m => exact ⟨mem_multiplyCoefficients.mpr h, fun k hk => mem_multiplyCoefficients.mp hk⟩
  | signal | quadratic | nonQuadratic => exact h.elim

theorem add_affine {l r : ArithmeticExpression K} (hl : l.Affine) (hr : r.Affine) {field : ℤ}
    (h : add l r field = some e) : e.Affine ∧ ∀ k, e.Mentions k → l.Mentions k ∨ r.Mentions k := by
  cases l <;> cases r <;> simp only [Affine] at hl hr
  case number.number =>
    cases h
    exact ⟨trivial, fun k hk => hk.elim⟩
  case number.linear value m =>
    rw [add, addConstant_eq_some hr] at h
    cases h
    refine ⟨mem_addSymbol.mpr (Or.inl rfl), fun k hk => Or.inr ?_⟩
    exact (mem_addSymbol.mp hk).elim (fun e => e ▸ hr) id
  case linear.number m value =>
    rw [add, addConstant_eq_some hl] at h
    cases h
    refine ⟨mem_addSymbol.mpr (Or.inl rfl), fun k hk => Or.inl ?_⟩
    exact (mem_addSymbol.mp hk).elim (fun e => e ▸ hl) id
  case linear.linear m m' =>
    cases h
    exact ⟨mem_addCoefficients.mpr (Or.inl hl), fun k hk => mem_addCoefficients.mp hk⟩

theorem sub_affine {l r : ArithmeticExpression K} (hl : l.Affine) (hr : r.Affine) {field : ℤ}
    (h : sub l r field = some e) : e.Affine ∧ ∀ k, e.Mentions k → l.Mentions k ∨ r.Mentions k := by
  obtain ⟨hm, hmk⟩ := mul_number_affine (-1) hr field
  obtain ⟨he, hek⟩ := add_affine hl hm h
  exact ⟨he, fun k hk => (hek k hk).imp_right (hmk k)⟩

/-- The constraint form of an affine expression, without its zero coefficients. -/
theorem transform_affine (h : e.Affine) {c : Constraint K} (hc : transformExpressionToConstraintForm e p = some c) :
    c.removeZeroValueCoefficients.Reduced p ∧
      ∀ k ∈ c.removeZeroValueCoefficients.c, k = constantCoefficient ∨ e.Mentions k := by
  have hz : removeZeroValueCoefficients
      (initializeHashmapForExpression (∅ : HashMap K ℤ)) = ∅ := by
    rw [← AList.len_eq_zero]
    simp [removeZeroValueCoefficients, initializeHashmapForExpression, AList.insert,
      AList.pairs, List.kinsert]
  have key : ∀ m : HashMap K ℤ, c = ⟨initializeHashmapForExpression ∅,
      initializeHashmapForExpression ∅, multiplyCoefficientsByConstant (-1) m p⟩ →
      (∀ k ∈ m, k = constantCoefficient ∨ e.Mentions k) →
      c.removeZeroValueCoefficients.Reduced p ∧
        ∀ k ∈ c.removeZeroValueCoefficients.c, k = constantCoefficient ∨ e.Mentions k := by
    rintro m rfl hm
    refine ⟨⟨?_, ⟨?_, ?_, ?_⟩, ?_, ?_, ?_⟩, fun k hk => ?_⟩
    · simp [Constraint.isLinear, Constraint.removeZeroValueCoefficients, hz]
    · exact hz ▸ Constraint.coeffsInField_empty _
    · exact hz ▸ Constraint.coeffsInField_empty _
    · exact coeffsInField_removeZero (coeffsInField_multiply _ _)
    · exact noZeroCoeff_removeZero _
    · exact noZeroCoeff_removeZero _
    · exact noZeroCoeff_removeZero _
    · exact hm k (mem_multiplyCoefficients.mp (mem_of_mem_removeZero hk))
  cases e with
  | number value =>
    refine key _ (Option.some.inj hc).symm fun k hk => Or.inl ?_
    rcases (AList.mem_insert _).mp hk with hk | hk
    · exact hk
    · exact (mem_initialized.mp hk).elim id fun hk => absurd hk (AList.notMem_empty _)
  | linear m => exact key _ (Option.some.inj hc).symm fun k hk => Or.inr hk
  | signal | quadratic | nonQuadratic => exact h.elim

end Field

end ArithmeticExpression

namespace SimplificationUtils

/-! ## Pivots -/

/-- An assignment satisfies the pivot `coefficient * from = to`. -/
def PivotHolds (ρ : ℕ → ZMod p) (pivot : ℤ × S) : Prop :=
  pivot.1 * ρ pivot.2.fromSignal = pivot.2.toExpr.eval ρ

/-- The coefficient of a pivot is a unit, and its signal is not in its right-hand side. -/
structure PivotOk (p : ℕ) (pivot : ℤ × S) : Prop where
  unit : (pivot.1 : ZMod p) ≠ 0
  fromNotMem : pivot.2.fromSignal ∉ pivot.2.toExpr
  constantMem : constantCoefficient ∈ pivot.2.toExpr

variable [hp : Fact p.Prime] {ρ : ℕ → ZMod p}

/-- Taking a signal with a written coefficient out of a constraint. -/
theorem clearSignal_shape {v : ℤ} (hv : work.c.lookup out = some v) (hv0 : v ≠ 0) (h0 : out ≠ 0) (field : ℤ) :
    ∃ rest, work.clearSignalFromLinearNotNormalized out field =
        some (ModularArithmetic.mul v (-1) field, ⟨out, rest⟩) ∧
      rest = initializeHashmapForExpression (work.c.erase out) ∧ out ∉ rest ∧
      constantCoefficient ∈ rest ∧ ∀ k ∈ rest, k = 0 ∨ (k ∈ work.c ∧ k ≠ out) := by
  refine ⟨initializeHashmapForExpression (work.c.erase out), ?_, rfl, fun h => ?_,
    mem_initialized.mpr (Or.inl rfl), fun k hk => ?_⟩
  · simp [Constraint.clearSignalFromLinearNotNormalized, clearSignalNotNormalized, hv, hv0]
  · rcases mem_initialized.mp h with h | h
    · exact h0 h
    · exact (AList.mem_erase.mp h).1 rfl
  · rcases mem_initialized.mp hk with h | h
    · exact Or.inl h
    · obtain ⟨hne, hm⟩ := AList.mem_erase.mp h
      exact Or.inr ⟨hm, hne⟩

/-- Solving a linear constraint for a signal with a coefficient that is not zero. -/
theorem clearSignal_of_ne_zero (hw : work.isLinear) {v : ℤ} (hv : work.c.lookup out = some v) (hvp : (v : ZMod p) ≠ 0)
    (h0 : out ≠ 0) :
    ∃ coefficient rest, work.clearSignalFromLinearNotNormalized out p = some (coefficient, ⟨out, rest⟩) ∧
      PivotOk p (coefficient, ⟨out, rest⟩) ∧
      (∀ ρ : ℕ → ZMod p, work.Sat ρ ↔ PivotHolds ρ (coefficient, ⟨out, rest⟩)) ∧
      ∀ k ∈ rest, k = 0 ∨ (k ∈ work.c ∧ k ≠ out) := by
  have hv0 : v ≠ 0 := by
    rintro rfl
    exact hvp Int.cast_zero
  obtain ⟨rest, hclear, hrest, hnot, hconst, hkeys⟩ := clearSignal_shape hv hv0 h0 p
  refine ⟨_, rest, hclear, ⟨by simpa using hvp, hnot, hconst⟩, fun ρ => ?_, hkeys⟩
  rw [Constraint.sat_iff_of_isLinear hw, PivotHolds, hrest, eval_initialized, AList.eval_erase, hv]
  simp only [ModularArithmetic.cast_mul, Option.getD_some]
  constructor
  · intro h; rw [h]; push_cast; ring
  · intro h; push_cast at h; linear_combination -h

/-- Solving a constraint for one of its signals. -/
theorem clearSignal_spec (hw : work.Reduced p) (hout : out ∈ work.c) (h0 : out ≠ 0) :
    ∃ coefficient rest, work.clearSignalFromLinearNotNormalized out p = some (coefficient, ⟨out, rest⟩) ∧
      PivotOk p (coefficient, ⟨out, rest⟩) ∧
      (∀ ρ : ℕ → ZMod p, work.Sat ρ ↔ PivotHolds ρ (coefficient, ⟨out, rest⟩)) ∧
      ∀ k ∈ rest, k = 0 ∨ (k ∈ work.c ∧ k ≠ out) := by
  obtain ⟨v, hv⟩ := AList.mem_iff_exists_lookup.mp hout
  refine clearSignal_of_ne_zero hw.linear hv ?_ h0
  rw [Ne, ModularArithmetic.cast_eq_zero_iff (hw.coeffs.2.2 out v hv)]
  rintro rfl
  exact hw.nonzero.2.2 out hv

/-- Two substitutions with their constant keys can be merged. -/
theorem mergeConflict_shape {stored : ℤ × S} (coefficient : ℤ) (out : ℕ) {rest : HashMap ℕ ℤ}
    (hs : constantCoefficient ∈ stored.2.toExpr) (hc : constantCoefficient ∈ rest) :
    ∃ work, mergeConflict stored coefficient ⟨out, rest⟩ p = some work ∧ work.Reduced p ∧
      (∀ ρ : ℕ → ZMod p, ρ 0 = 1 →
        (work.Sat ρ ↔ stored.1 * rest.eval ρ - coefficient * stored.2.toExpr.eval ρ = 0)) ∧
      ∀ k ∈ work.c, k ∈ stored.2.toExpr ∨ k ∈ rest := by
  obtain ⟨hr, hrk⟩ := ArithmeticExpression.hashmapIntoArith_affine hs
  obtain ⟨hl, hlk⟩ := ArithmeticExpression.hashmapIntoArith_affine hc
  obtain ⟨hnl, hnlk⟩ := ArithmeticExpression.mul_number_affine stored.1 hl p
  obtain ⟨hnr, hnrk⟩ := ArithmeticExpression.mul_number_affine coefficient hr p
  obtain ⟨merge, hmerge, -⟩ := ArithmeticExpression.sub_spec (p := p) (ρ := fun _ => 1) rfl
    hnl.hasConstant hnr.hasConstant
  obtain ⟨hm, hmk⟩ := ArithmeticExpression.sub_affine hnl hnr hmerge
  obtain ⟨c, hct, -⟩ := ArithmeticExpression.transform_spec (p := p) (ρ := fun _ => 1) rfl
    hm.ne_nonQuadratic
  obtain ⟨hred, hck⟩ := ArithmeticExpression.transform_affine hm hct
  refine ⟨_, ?_, hred, fun ρ h1 => ?_, fun k hk => ?_⟩
  · simp [mergeConflict, Substitution.decompose, hmerge, hct]
  · obtain ⟨merge', hmerge', hev⟩ := ArithmeticExpression.sub_spec (p := p) (ρ := ρ) h1
      hnl.hasConstant hnr.hasConstant
    obtain rfl : merge' = merge := Option.some.inj (hmerge'.symm.trans hmerge)
    obtain ⟨c', hct', hcv⟩ := ArithmeticExpression.transform_spec (p := p) (ρ := ρ) h1
      hm.ne_nonQuadratic
    obtain rfl : c' = c := Option.some.inj (hct'.symm.trans hct)
    rw [Constraint.sat_removeZero, Constraint.Sat, ← sub_eq_zero, hcv, hev hm.ne_nonQuadratic,
      ArithmeticExpression.mul_spec _ _ hnl.ne_nonQuadratic,
      ArithmeticExpression.mul_spec _ _ hnr.ne_nonQuadratic,
      ArithmeticExpression.eval_hashmapIntoArith h1, ArithmeticExpression.eval_hashmapIntoArith h1]
    rfl
  · rcases hck k hk with rfl | h
    · exact Or.inl hs
    · exact (hmk k h).symm.imp (fun h => hrk k (hnrk k h)) fun h => hlk k (hnlk k h)

/-- Two pivots of one signal: under the first, the merged constraint says the same as the second. -/
theorem mergeConflict_spec {stored : ℤ × S} {coefficient : ℤ} {rest : HashMap ℕ ℤ} (hs : PivotOk p stored)
    (hfrom : stored.2.fromSignal = out) (hc : PivotOk p (coefficient, ⟨out, rest⟩)) :
    ∃ work, mergeConflict stored coefficient ⟨out, rest⟩ p = some work ∧ work.Reduced p ∧
      (∀ ρ : ℕ → ZMod p, ρ 0 = 1 → PivotHolds ρ stored →
        (work.Sat ρ ↔ PivotHolds ρ (coefficient, ⟨out, rest⟩))) ∧
      ∀ k ∈ work.c, k ∈ stored.2.toExpr ∨ k ∈ rest := by
  obtain ⟨work, hmerge, hred, hsat, hkeys⟩ :=
    mergeConflict_shape (p := p) coefficient out hs.constantMem hc.constantMem
  refine ⟨work, hmerge, hred, fun ρ h1 hst => ?_, hkeys⟩
  rw [hsat ρ h1]
  simp only [PivotHolds] at hst ⊢
  rw [← hst, hfrom]
  constructor
  · intro h
    refine mul_left_cancel₀ hs.unit ?_
    linear_combination -h
  · intro h; rw [← h]; ring

end SimplificationUtils

end Circom.Algebra
