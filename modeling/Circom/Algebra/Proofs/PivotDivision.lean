import Circom.Algebra.Proofs.BackSubstitution

/-!
# Dividing the pivots

`normalize_substitutions` walks its table twice, once for the coefficients and once for the
right-hand sides, and pairs them by position. Every right-hand side is divided by the coefficient it
was stored with.
-/

namespace Circom.Algebra

open Circom.Lib (HashMap)
open ModularArithmetic (InField)

namespace ArithmeticExpression

variable {K : Type} [DecidableEq K] [Inhabited K] {p : ℕ} [hp : Fact p.Prime]

/-! ## A right-hand side times an inverse -/

theorem mul_zero_left (inv : ℤ) : ModularArithmetic.mul 0 inv p = 0 := by
  unfold ModularArithmetic.mul
  rw [zero_mul]
  exact ModularArithmetic.modulus_of_inField ModularArithmetic.zero_inField

theorem getD_multiplyCoefficients (inv : ℤ) (m : HashMap K ℤ) (y : K) :
    ((multiplyCoefficientsByConstant inv m p).lookup y).getD 0 =
      ModularArithmetic.mul ((m.lookup y).getD 0) inv p := by
  rw [multiplyCoefficientsByConstant, AList.lookup_mapValues]
  cases m.lookup y with
  | none => exact (mul_zero_left inv).symm
  | some v => rfl

theorem getD_of_pairs_singleton {m : HashMap K ℤ} {s : K} {v : ℤ} (h : m.pairs = [(s, v)]) (y : K) :
    (m.lookup y).getD 0 = if y = s then v else 0 := by
  split_ifs with hy
  · have hl : m.lookup s = some v := AList.mem_pairs_iff_lookup.mp (by rw [h]; exact List.mem_cons_self)
    rw [hy, hl]
    rfl
  · have hl : m.lookup y = none := by
      rw [AList.lookup_eq_none, AList.mem_keys, ← AList.pairs_map_fst, h]
      simpa using hy
    rw [hl]
    rfl

/-- All coefficients of a right-hand side are multiplied by the inverse. -/
theorem new_mul_inverse {m : HashMap K ℤ} {k : K} {inv : ℤ} {t : Substitution K}
    (h : Substitution.new k (mul (hashmapIntoArith m) (.number inv) p) = some t) :
    t.fromSignal = k ∧ ∀ y, (t.toExpr.lookup y).getD 0 =
      ModularArithmetic.mul ((m.lookup y).getD 0) inv p := by
  have hlinear : ∀ {t : Substitution K},
      Substitution.new k (mul (.linear (initializeHashmapForExpression m)) (.number inv) p) = some t →
      t.fromSignal = k ∧ ∀ y, (t.toExpr.lookup y).getD 0 =
        ModularArithmetic.mul ((m.lookup y).getD 0) inv p := by
    intro t h
    simp only [mul, Substitution.new] at h
    split_ifs at h
    cases h
    refine ⟨rfl, fun y => ?_⟩
    rw [getD_multiplyCoefficients, getD_initialized]
  unfold hashmapIntoArith at h
  split at h
  · next s v heq =>
    split_ifs at h with hs hv
    · simp only [mul, Substitution.new, Option.some.injEq] at h
      subst h
      refine ⟨rfl, fun y => ?_⟩
      rw [getD_of_pairs_singleton heq, hs]
      by_cases hy : y = constantCoefficient
      · subst hy
        rw [AList.lookup_insert, if_pos rfl]
        rfl
      · rw [AList.lookup_insert_ne hy, if_neg hy, mul_zero_left]
        rfl
    · simp only [mul, Substitution.new] at h
      split_ifs at h
      cases h
      refine ⟨rfl, fun y => ?_⟩
      rw [getD_of_pairs_singleton heq, hv]
      by_cases hy : y = s
      · subst hy
        rw [singleSymbol, lookup_addSymbol_self, getD_initialized, if_pos rfl]
        simp [ModularArithmetic.add, ModularArithmetic.mul]
      · rw [singleSymbol, lookup_addSymbol_ne _ _ hy, getD_initialized, if_neg hy, mul_zero_left]
        rfl
    · exact hlinear h
  · exact hlinear h

/-- The division succeeds when the right-hand side does not mention the replaced signal. -/
theorem exists_new_mul_inverse {m : HashMap K ℤ} {k : K} (h0 : k ≠ constantCoefficient) (hk : k ∉ m)
    (inv : ℤ) : ∃ t, Substitution.new k (mul (hashmapIntoArith m) (.number inv) p) = some t := by
  have hlinear : ∃ t, Substitution.new k
      (mul (.linear (initializeHashmapForExpression m)) (.number inv) p) = some t := by
    refine ⟨_, if_neg ?_⟩
    rw [mem_multiplyCoefficients, mem_initialized]
    exact not_or.mpr ⟨h0, hk⟩
  unfold hashmapIntoArith
  split
  · next s v heq =>
    split_ifs
    · exact ⟨_, rfl⟩
    · refine ⟨_, if_neg ?_⟩
      rw [mem_singleSymbol]
      refine not_or.mpr ⟨?_, h0⟩
      rintro rfl
      apply hk
      rw [AList.mem_keys, ← AList.pairs_map_fst, heq]
      exact List.mem_cons_self
    · exact hlinear
  · exact hlinear

end ArithmeticExpression

namespace SimplificationUtils

variable {p : ℕ} [hp : Fact p.Prime]

/-! ## The whole table -/

/-- `s` divided by `c`: every coefficient is the canonical one that `c` multiplies to that of `s`. -/
structure DividedBy (p : ℕ) (c : ℤ) (s t : S) : Prop where
  coeffs : ∀ y, InField p ((t.toExpr.lookup y).getD 0)
  multiple : ∀ y, (p : ℤ) ∣ c * (t.toExpr.lookup y).getD 0 - (s.toExpr.lookup y).getD 0

/-- The turn of the second loop for the pair at position `i` uses the inverse of its coefficient. -/
theorem dividedBy_of_new {c inv : ℤ} (hc : (c : ZMod p) ≠ 0) (hinv : (inv : ZMod p) = (c : ZMod p)⁻¹)
    {k : ℕ} {s t : S} (h : Substitution.new k (ArithmeticExpression.mul
      (ArithmeticExpression.hashmapIntoArith s.toExpr) (.number inv) p) = some t) :
    t.fromSignal = k ∧ DividedBy p c s t := by
  obtain ⟨hfrom, hcoeff⟩ := ArithmeticExpression.new_mul_inverse h
  refine ⟨hfrom, ⟨fun y => ?_, fun y => ?_⟩⟩
  · rw [hcoeff y]
    exact ModularArithmetic.mul_inField _ _
  · rw [hcoeff y, ← ZMod.intCast_zmod_eq_zero_iff_dvd]
    push_cast
    rw [ModularArithmetic.cast_mul, hinv]
    field_simp
    ring

theorem normalizeSubstitutions_divides {holder : SHNotNormalized} (hinv : Invertible p holder)
    {tree : SH} (h : normalizeSubstitutions holder p = some tree) :
    (∀ k, k ∈ tree ↔ k ∈ holder) ∧ ∀ k t, tree.lookup k = some t →
      ∃ c s, holder.lookup k = some (c, s) ∧ t.fromSignal = k ∧ DividedBy p c s t := by
  obtain ⟨hkeys, hturns⟩ := normalizeSubstitutions_turns hinv h
  refine ⟨hkeys, fun k t hl => ?_⟩
  obtain ⟨c, s, inv, hholder, hcast, hnew⟩ := hturns k t hl
  obtain ⟨hfrom, hdiv⟩ := dividedBy_of_new (cast_ne_zero_of_invertible hinv hholder) hcast hnew
  exact ⟨c, s, hholder, hfrom, hdiv⟩

end SimplificationUtils

/-! ## Batch inversion and its use -/

/-- Batch inversion inverts every value at its own position, so that each right-hand side is divided
by the coefficient of its own pivot. The table is normalized when no right-hand side mentions the
signal it replaces, the constant key included. -/
theorem multiInv_inverts {p : ℕ} (hp : p.Prime) :
    (∀ values : List ℤ, (∀ v ∈ values, ¬ (p : ℤ) ∣ v) →
      ∃ out, ModularArithmetic.multiInv values p = some out ∧ out.length = values.length + 1 ∧
        ∀ i < values.length, InField p (out.getD i 0) ∧
          (p : ℤ) ∣ out.getD i 0 * values.getD i 0 - 1) ∧
    ∀ holder : SimplificationUtils.SHNotNormalized, SimplificationUtils.Invertible p holder →
      ((∀ k c s, holder.lookup k = some (c, s) → k ≠ 0 ∧ k ∉ s.toExpr) →
        ∃ tree, SimplificationUtils.normalizeSubstitutions holder p = some tree) ∧
      ∀ tree, SimplificationUtils.normalizeSubstitutions holder p = some tree →
        (∀ k, k ∈ tree ↔ k ∈ holder) ∧ ∀ k t, tree.lookup k = some t →
          ∃ c s, holder.lookup k = some (c, s) ∧ t.fromSignal = k ∧
            SimplificationUtils.DividedBy p c s t := by
  have : Fact p.Prime := ⟨hp⟩
  refine ⟨fun values hvalues => ?_, fun holder hinv => ⟨?_, fun tree htree => ?_⟩⟩
  · have hunit : ∀ v ∈ values, (v : ZMod p) ≠ 0 := fun v hv => by
      rw [Ne, ZMod.intCast_zmod_eq_zero_iff_dvd]
      exact hvalues v hv
    obtain ⟨out, hout, hlen, hspec⟩ := ModularArithmetic.multiInv_eq_some values hunit
    refine ⟨out, hout, hlen, fun i hi => ⟨(hspec i hi).1, ?_⟩⟩
    have hv : ((values.getD i 0 : ℤ) : ZMod p) ≠ 0 := by
      rw [List.getD_eq_getElem _ _ hi]
      exact hunit _ (List.getElem_mem hi)
    rw [← ZMod.intCast_zmod_eq_zero_iff_dvd]
    push_cast
    rw [(hspec i hi).2, inv_mul_cancel₀ hv, sub_self]
  · intro hself
    refine SimplificationUtils.exists_normalizeSubstitutions hinv fun k c s inv hl _ => ?_
    obtain ⟨h0, hk⟩ := hself k c s hl
    exact ArithmeticExpression.exists_new_mul_inverse h0 hk inv
  · exact SimplificationUtils.normalizeSubstitutions_divides hinv htree

/-- `2 * x₃ = 4 + x₅`, `3 * x₄ = 2 * x₅` and `5 * x₆ = 1` in the field with seven elements. -/
theorem multiInv_inverts_seven :
    (∃ out, ModularArithmetic.multiInv [2, 3, 5] (7 : ℕ) = some out ∧ out.length = 4 ∧
      ∀ i < 3, InField (7 : ℕ) (out.getD i 0) ∧
        ((7 : ℕ) : ℤ) ∣ out.getD i 0 * [2, 3, 5].getD i 0 - 1) ∧
    ∃ tree, SimplificationUtils.normalizeSubstitutions
      (AList.ofPairs [(3, (2, ⟨3, AList.ofPairs [(0, 4), (5, 1)]⟩)), (4, (3, ⟨4, AList.ofPairs [(5, 2)]⟩)),
        (6, (5, ⟨6, AList.ofPairs [(0, 1)]⟩))]) (7 : ℕ) = some tree := by
  obtain ⟨hvalues, htable⟩ := multiInv_inverts (p := 7) (by decide)
  refine ⟨hvalues [2, 3, 5] (by decide), (htable _ fun k c s h => ?_).1 fun k c s h => ?_⟩
  all_goals
    have hmem := AList.mem_of_lookup_ofPairs h
    simp only [List.mem_cons, List.not_mem_nil, or_false] at hmem
    rcases hmem with h | h | h
    all_goals
      cases h
      decide

end Circom.Algebra
