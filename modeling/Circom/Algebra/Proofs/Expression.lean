import Circom.Algebra.Proofs.Constraint
import Mathlib.Tactic.NormNum.Prime

/-!
# Arithmetic expressions denote field elements

The value of an expression under an assignment, and one lemma for each operator: a result that is not
`nonQuadratic` has the value of the field operation applied to the values of the operands.
-/

set_option linter.unusedSectionVars false

namespace Circom.Algebra

open Circom.Lib (HashMap)
open ModularArithmetic (InField)

variable {K : Type} [DecidableEq K] [Inhabited K] {p : ℕ} {ρ : K → ZMod p}
variable {e l r : ArithmeticExpression K}

namespace ArithmeticExpression

/-- The value of an expression; `nonQuadratic` stands for an unknown one and has none. -/
def eval (ρ : K → ZMod p) : ArithmeticExpression K → ZMod p
  | .number value => value
  | .signal symbol => ρ symbol
  | .linear coefficients => coefficients.eval ρ
  | .quadratic a b c => a.eval ρ * b.eval ρ + c.eval ρ
  | .nonQuadratic => 0

/-- The power of the field: the exponent is the canonical representative of the second operand. -/
def fieldPow (x y : ZMod p) : ZMod p := x ^ y.val

/-- Every coefficient map of the expression has the constant key. -/
def HasConstant : ArithmeticExpression K → Prop
  | .linear m => constantCoefficient ∈ m
  | .quadratic a b c =>
    constantCoefficient ∈ a ∧ constantCoefficient ∈ b ∧ constantCoefficient ∈ c
  | _ => True

section Maps

variable [NeZero p]

theorem mem_initialize_self (m : HashMap K ℤ) :
    constantCoefficient ∈ initializeHashmapForExpression m := mem_initialized.mpr (Or.inl rfl)

theorem eval_singleSymbol (s : K) (c : ℤ) : (singleSymbol s c p).eval ρ = c * ρ s := by
  rw [singleSymbol, eval_addSymbol, eval_initialized, AList.eval_empty, zero_add]

theorem mem_singleSymbol {s k : K} {c field : ℤ} :
    k ∈ singleSymbol s c field ↔ k = s ∨ k = constantCoefficient := by
  rw [singleSymbol, mem_addSymbol, mem_initialized]
  simp

end Maps

/-! ## Sums and products -/

section Prime

variable [hp : Fact p.Prime]

theorem add_spec (h1 : ρ constantCoefficient = 1) (hl : l.HasConstant) (hr : r.HasConstant) :
    ∃ e, add l r p = some e ∧ (e ≠ .nonQuadratic → e.eval ρ = l.eval ρ + r.eval ρ) := by
  have hz : constantCoefficient ∈ initializeHashmapForExpression (∅ : HashMap K ℤ) :=
    mem_initialize_self ∅
  cases l <;> cases r
  all_goals
    simp only [HasConstant] at hl hr
    simp only [add, addConstant_eq_some, hz, hl, hr, Option.bind_eq_bind, Option.bind_some,
      Option.some.injEq, exists_eq_left']
    intro hne
    first
      | exact absurd rfl hne
      | simp only [eval, eval_addSymbol, eval_singleSymbol, eval_initialized, eval_addCoefficients,
          ModularArithmetic.cast_add, AList.eval_empty, h1, Int.cast_one] <;> ring

theorem mul_spec (l r : ArithmeticExpression K)
    (hne : mul l r p ≠ .nonQuadratic) : (mul l r p).eval ρ = l.eval ρ * r.eval ρ := by
  cases l <;> cases r
  all_goals first
    | exact absurd rfl hne
    | simp only [mul, eval, eval_singleSymbol, eval_initialized, eval_multiplyCoefficients,
        ModularArithmetic.cast_mul, AList.eval_empty, Int.cast_one] <;> ring

theorem mul_hasConstant (hl : l.HasConstant) (hr : r.HasConstant) (field : ℤ) : (mul l r field).HasConstant := by
  cases l <;> cases r <;> simp_all [mul, HasConstant, mem_singleSymbol, mem_initialize_self]

theorem mul_minus_one_ne (field : ℤ) (h : r ≠ .nonQuadratic) : mul (.number (-1)) r field ≠ .nonQuadratic := by
  cases r <;> simp_all [mul]

theorem add_nonQuadratic (field : ℤ) : add l .nonQuadratic field = some .nonQuadratic := by
  cases l <;> rfl

theorem sub_spec (h1 : ρ constantCoefficient = 1) (hl : l.HasConstant) (hr : r.HasConstant) :
    ∃ e, sub l r p = some e ∧ (e ≠ .nonQuadratic → e.eval ρ = l.eval ρ - r.eval ρ) := by
  have hm : (mul (.number (-1)) r p).HasConstant :=
    mul_hasConstant (l := .number (-1)) trivial hr _
  obtain ⟨e, he, hev⟩ := add_spec h1 hl hm
  refine ⟨e, he, fun hne => ?_⟩
  by_cases hr0 : r = .nonQuadratic
  · subst hr0
    simp only [mul, add_nonQuadratic, Option.some.injEq] at he
    exact absurd he.symm hne
  · rw [hev hne, mul_spec _ _ (mul_minus_one_ne _ hr0)]
    simp [eval]
    ring

theorem prefixSub_spec (e : ArithmeticExpression K)
    (hne : prefixSub e p ≠ .nonQuadratic) : (prefixSub e p).eval ρ = -e.eval ρ := by
  rw [prefixSub, mul_spec _ _ hne]
  simp [eval]

/-! ## Quotients and powers -/

theorem divideCoefficients_spec {c : ℤ} {m m' : HashMap K ℤ}
    (h : divideCoefficientsByConstant c m p = .ok m') :
    (c : ZMod p) ≠ 0 ∧ m'.eval ρ = m.eval ρ / c := by
  unfold divideCoefficientsByConstant at h
  cases hd : ModularArithmetic.div 1 c p with
  | error e => rw [hd] at h; cases h
  | ok v =>
    obtain ⟨hc, hv, -⟩ := ModularArithmetic.div_ok hd
    rw [hd] at h
    cases h
    refine ⟨hc, ?_⟩
    rw [eval_multiplyCoefficients, hv]
    simp [div_eq_mul_inv]

theorem div_spec (h : div l r p = .ok e) (hne : e ≠ .nonQuadratic) : e.eval ρ = l.eval ρ / r.eval ρ := by
  cases l <;> cases r
  case number.number v0 v1 =>
    simp only [div] at h
    cases hd : ModularArithmetic.div v0 v1 p with
    | error e => rw [hd] at h; cases h
    | ok v => rw [hd] at h; cases h; exact (ModularArithmetic.div_ok hd).2.1
  case signal.number s v =>
    simp only [div] at h
    cases hd : divideCoefficientsByConstant v (singleSymbol s 1 p) p with
    | error e => rw [hd] at h; cases h
    | ok m =>
      rw [hd] at h; cases h
      have hv := (divideCoefficients_spec (ρ := ρ) hd).2
      rw [eval_singleSymbol] at hv
      simpa [eval] using hv
  case linear.number m v =>
    simp only [div] at h
    cases hd : divideCoefficientsByConstant v m p with
    | error e => rw [hd] at h; cases h
    | ok m' => rw [hd] at h; cases h; exact (divideCoefficients_spec hd).2
  case quadratic.number a b c v =>
    simp only [div] at h
    cases hda : divideCoefficientsByConstant v a p with
    | error e => rw [hda] at h; cases h
    | ok a' =>
      cases hdc : divideCoefficientsByConstant v c p with
      | error e => rw [hda, hdc] at h; cases h
      | ok c' =>
        rw [hda, hdc] at h; cases h
        simp only [eval, (divideCoefficients_spec hda).2, (divideCoefficients_spec hdc).2]
        ring
  all_goals
    simp only [div, Except.ok.injEq] at h
    exact absurd h.symm hne

/-- A power that is not `nonQuadratic` has a number as exponent, and is that power. -/
theorem pow_spec (h : pow l r p = some e) (hne : e ≠ .nonQuadratic) :
    ∃ v : ℤ, r = .number v ∧ 0 ≤ v ∧ e.eval ρ = l.eval ρ ^ v.toNat := by
  have hp0 : (0 : ℤ) < p := ModularArithmetic.field_pos
  cases l <;> cases r
  case number.number v0 v1 =>
    simp only [pow, ModularArithmetic.pow, ModularArithmetic.modpow] at h
    split_ifs at h with hneg
    · cases h
    · cases h
      refine ⟨v1, rfl, by omega, ?_⟩
      rw [eval, Int.fmod_eq_emod_of_nonneg _ hp0.le, ZMod.intCast_mod]
      simp [eval]
  case signal.number s v =>
    simp only [pow] at h
    split_ifs at h with h2
    · cases h
      refine ⟨v, rfl, by omega, ?_⟩
      rw [mul_spec _ _ (by simp [mul]), h2]
      exact (pow_two _).symm
    · cases h; exact absurd rfl hne
  case linear.number m v =>
    simp only [pow] at h
    split_ifs at h with h2
    · cases h
      refine ⟨v, rfl, by omega, ?_⟩
      rw [mul_spec _ _ (by simp [mul]), h2]
      exact (pow_two _).symm
    · cases h; exact absurd rfl hne
  all_goals
    simp only [pow, Option.some.injEq] at h
    exact absurd h.symm hne

/-! ## Constraint form -/

theorem eval_insert_initialized (k : K) (v : ℤ) :
    ((initializeHashmapForExpression (∅ : HashMap K ℤ)).insert k v).eval ρ = v * ρ k := by
  rw [AList.eval_insert_sub, eval_initialized, getD_initialized]
  simp

/-- The constraint form of an expression is zero exactly where the expression is. -/
theorem transform_spec (h1 : ρ constantCoefficient = 1) (hne : e ≠ .nonQuadratic) :
    ∃ c, transformExpressionToConstraintForm e p = some c ∧
      c.a.eval ρ * c.b.eval ρ - c.c.eval ρ = e.eval ρ := by
  cases e
  case nonQuadratic => exact absurd rfl hne
  all_goals
    refine ⟨_, rfl, ?_⟩
    simp only [eval, eval_multiplyCoefficients, eval_insert_initialized, eval_initialized,
      AList.eval_empty, h1]
    push_cast
    ring

/-! ## All operators together -/

/-- The arithmetic operators compute the field operations. The exponent of a power is the integer that
the right operand holds; it is the field operation when that integer is canonical. -/
theorem operators_denote (h1 : ρ constantCoefficient = 1) {l r : ArithmeticExpression K}
    (hl : l.HasConstant) (hr : r.HasConstant) :
    (∃ e, add l r p = some e ∧ (e ≠ .nonQuadratic → e.eval ρ = l.eval ρ + r.eval ρ)) ∧
    (∃ e, sub l r p = some e ∧ (e ≠ .nonQuadratic → e.eval ρ = l.eval ρ - r.eval ρ)) ∧
    (mul l r p ≠ .nonQuadratic → (mul l r p).eval ρ = l.eval ρ * r.eval ρ) ∧
    (∀ e, div l r p = .ok e → e ≠ .nonQuadratic → e.eval ρ = l.eval ρ / r.eval ρ) ∧
    (∀ e, pow l r p = some e → e ≠ .nonQuadratic →
      ∃ v : ℤ, r = .number v ∧ 0 ≤ v ∧ e.eval ρ = l.eval ρ ^ v.toNat ∧
        (v < p → e.eval ρ = fieldPow (l.eval ρ) (r.eval ρ))) ∧
    (prefixSub l p ≠ .nonQuadratic → (prefixSub l p).eval ρ = -l.eval ρ) ∧
    (l ≠ .nonQuadratic → ∃ c, transformExpressionToConstraintForm l p = some c ∧
      (c.a.eval ρ * c.b.eval ρ - c.c.eval ρ = 0 ↔ l.eval ρ = 0)) := by
  refine ⟨add_spec h1 hl hr, sub_spec h1 hl hr, mul_spec l r, fun e he => div_spec he,
    fun e he hne => ?_, prefixSub_spec l, fun hne => ?_⟩
  · obtain ⟨v, rfl, hv0, hev⟩ := pow_spec (ρ := ρ) he hne
    refine ⟨v, rfl, hv0, hev, fun hvp => ?_⟩
    have hval : ((v : ZMod p)).val = v.toNat := by
      obtain ⟨n, rfl⟩ := Int.eq_ofNat_of_zero_le hv0
      simp only [Int.cast_natCast, Int.toNat_natCast]
      exact ZMod.val_cast_of_lt (by simpa using hvp)
    rw [hev, fieldPow, eval, hval]
  · obtain ⟨c, hc, hcv⟩ := transform_spec h1 hne
    exact ⟨c, hc, by rw [hcv]⟩

/-- `(s + 2) - 3`, `s * s` and the like in the field with seven elements. -/
theorem operators_denote_seven :
    let ρ : ℕ → ZMod 7 := fun k => if k = 0 then 1 else k
    let l : ArithmeticExpression ℕ := .linear ((∅ : HashMap ℕ ℤ).insert 1 4 |>.insert 0 2)
    (∃ e, add l (.number 3) (7 : ℕ) = some e ∧ (e ≠ .nonQuadratic → e.eval ρ = l.eval ρ + 3)) ∧
      (l ≠ .nonQuadratic → ∃ c, transformExpressionToConstraintForm l (7 : ℕ) = some c ∧
        (c.a.eval ρ * c.b.eval ρ - c.c.eval ρ = 0 ↔ l.eval ρ = 0)) := by
  have : Fact (Nat.Prime 7) := ⟨by norm_num⟩
  intro ρ l
  have h := operators_denote (p := 7) (ρ := ρ) (l := l) (r := .number 3) rfl
    (show constantCoefficient ∈ _ by decide) trivial
  exact ⟨h.1, h.2.2.2.2.2.2⟩

/-- The function takes any integer for an exponent, and does not reduce it: `2 ^ 5` is `2` in the field with five
elements, where the exponent `5` denotes zero. -/
theorem pow_ne_fieldPow :
    ¬ ∀ (ρ : ℕ → ZMod 5) (l r e : ArithmeticExpression ℕ), ρ constantCoefficient = 1 →
      l.HasConstant → r.HasConstant → pow l r (5 : ℕ) = some e → e ≠ .nonQuadratic →
      e.eval ρ = fieldPow (l.eval ρ) (r.eval ρ) := by
  intro h
  have h2 := h (fun _ => 1) (.number 2) (.number 5) (.number 2) rfl trivial trivial (by rfl)
    (by simp)
  revert h2
  decide

end Prime

end ArithmeticExpression

end Circom.Algebra
