import Circom.Algebra.Proofs.Expression

/-!
# Division by zero

`div` and `idiv` report a right operand that is zero in the field. `mod_op` reduces by the reduced
right operand without a test, so it panics there although its result type has the error.
-/

namespace Circom.Algebra

open Circom.Lib (HashMap)
open ModularArithmetic

namespace ModularArithmetic

variable {p : ℕ} [hp : Fact p.Prime]

theorem modulus_eq_zero_iff (r : ℤ) : modulus r p = 0 ↔ (r : ZMod p) = 0 := by
  rw [← cast_eq_zero_iff (modulus_inField field_pos), cast_modulus]

/-! ## One lemma for each operator -/

theorem div_eq_error_iff (l r : ℤ) :
    div l r p = .error .divisionByZero ↔ (r : ZMod p) = 0 := by
  unfold div
  rcases modInverse_spec (p := p) r with ⟨h1, h2⟩ | ⟨h1, b, h2, -⟩ <;> simp [h1, h2]

theorem idiv_eq_error_iff (l r : ℤ) :
    idiv l r p = .error .divisionByZero ↔ (r : ZMod p) = 0 := by
  simp only [idiv]
  rw [← modulus_eq_zero_iff]
  split_ifs with h <;> simp [h]

theorem idiv_eq_ok {l r : ℤ} (h : (r : ZMod p) ≠ 0) : idiv l r p = .ok (l % p / (r % p)) := by
  have h0 : ¬ modulus r p = 0 := fun h0 => h ((modulus_eq_zero_iff r).mp h0)
  simp only [idiv]
  rw [if_neg h0, Int.tdiv_eq_ediv_of_nonneg (modulus_inField field_pos).1,
    modulus_eq_emod field_pos, modulus_eq_emod field_pos]

theorem modOp_eq_none_iff (l r : ℤ) : modOp l r p = none ↔ (r : ZMod p) = 0 := by
  simp only [modOp]
  rw [← modulus_eq_zero_iff]
  split_ifs with h <;> simp [h]

theorem modOp_eq_ok {l r : ℤ} (h : (r : ZMod p) ≠ 0) :
    modOp l r p = some (.ok (l % p % (r % p))) := by
  have h0 : ¬ modulus r p = 0 := fun h0 => h ((modulus_eq_zero_iff r).mp h0)
  have hr := modulus_inField (a := r) (field_pos (p := p))
  have hpos : 0 < modulus r p := lt_of_le_of_ne hr.1 (Ne.symm h0)
  simp only [modOp]
  rw [if_neg h0, modulus_eq_emod hpos, modulus_eq_emod field_pos, modulus_eq_emod field_pos]

end ModularArithmetic

/-! ## The operators on expressions -/

namespace ArithmeticExpression

variable {K : Type} [DecidableEq K] [Inhabited K] {p : ℕ} [hp : Fact p.Prime]

omit [DecidableEq K] [Inhabited K] in
theorem divideCoefficientsByConstant_eq_error_iff (c : ℤ) (m : HashMap K ℤ) :
    divideCoefficientsByConstant c m p = .error .divisionByZero ↔ (c : ZMod p) = 0 := by
  rw [← div_eq_error_iff 1 c]
  unfold divideCoefficientsByConstant
  cases ModularArithmetic.div 1 c p with
  | error e => simp [bind, Except.bind]
  | ok v => simp [bind, Except.bind]

theorem div_number_eq_error_iff {left : ArithmeticExpression K} (h : left ≠ .nonQuadratic) (r : ℤ) :
    div left (.number r) p = .error .divisionByZero ↔ (r : ZMod p) = 0 := by
  cases left with
  | number l =>
    rw [← div_eq_error_iff l r]
    unfold div
    cases hd : ModularArithmetic.div l r p <;> simp [hd, bind, Except.bind]
  | signal symbol =>
    rw [← divideCoefficientsByConstant_eq_error_iff r (singleSymbol symbol 1 p)]
    unfold div
    cases hd : divideCoefficientsByConstant r (singleSymbol symbol 1 p) p <;>
      simp [hd, bind, Except.bind]
  | linear m =>
    rw [← divideCoefficientsByConstant_eq_error_iff r m]
    unfold div
    cases hd : divideCoefficientsByConstant r m p <;> simp [hd, bind, Except.bind]
  | quadratic a b c =>
    unfold div
    cases ha : divideCoefficientsByConstant r a p with
    | error e =>
      rw [← divideCoefficientsByConstant_eq_error_iff r a, ha]
      simp [ha, bind, Except.bind]
    | ok a' =>
      rw [← divideCoefficientsByConstant_eq_error_iff r c]
      cases hc : divideCoefficientsByConstant r c p <;> simp [ha, hc, bind, Except.bind]
  | nonQuadratic => exact absurd rfl h

end ArithmeticExpression

/-! ## Which operators signal a zero right operand -/

/-- `div` and `idiv` on `l` and `r` signal a zero right operand and otherwise return the field quotient and the
integer quotient of the canonical representatives; the operators on expressions do the same where they apply them. -/
structure DivisionSignals (K : Type) [DecidableEq K] [Inhabited K] (p : ℕ) (l r : ℤ) : Prop where
  /-- A zero divisor is an error, and nothing else is. -/
  div_error : div l r p = .error .divisionByZero ↔ (p : ℤ) ∣ r
  idiv_error : idiv l r p = .error .divisionByZero ↔ (p : ℤ) ∣ r
  /-- The quotient of the field. -/
  div_value : ¬ (p : ℤ) ∣ r → ∃ v, div l r p = .ok v ∧ InField p v ∧ (p : ℤ) ∣ v * r - l
  /-- The integer quotient of the canonical representatives. -/
  idiv_value : ¬ (p : ℤ) ∣ r → idiv l r p = .ok (l % p / (r % p))
  /-- A quotient of a non quadratic expression is non quadratic for every right operand. -/
  expression_div_error : ∀ left : ArithmeticExpression K, left ≠ .nonQuadratic →
    (left.div (.number r) p = .error .divisionByZero ↔ (p : ℤ) ∣ r)
  expression_div_value : ∀ left e : ArithmeticExpression K, ∀ ρ : K → ZMod p,
    left.div (.number r) p = .ok e → e ≠ .nonQuadratic → e.eval ρ * r = left.eval ρ
  /-- On numbers, the operator of expressions is the one on numbers. -/
  expression_idiv : ArithmeticExpression.idiv (K := K) (.number l) (.number r) p =
    (idiv l r p).map .number

/-- `mod_op` on `l` and `r` signals a zero right operand and otherwise returns the integer remainder of the canonical
representatives, which goes with the quotient of `idiv`; the operator on expressions does the same. -/
structure RemainderSignals (K : Type) [DecidableEq K] [Inhabited K] (p : ℕ) (l r : ℤ) : Prop where
  /-- A zero divisor is an error, and nothing else is. -/
  error : modOp l r p = some (.error .divisionByZero) ↔ (p : ℤ) ∣ r
  /-- It does not panic. -/
  total : modOp l r p ≠ none
  value : ¬ (p : ℤ) ∣ r → modOp l r p = some (.ok (l % p % (r % p)))
  /-- Quotient and remainder go together. -/
  euclid : ∀ q m, idiv l r p = .ok q → modOp l r p = some (.ok m) → q * (r % p) + m = l % p
  expression : ArithmeticExpression.modOp (K := K) (.number l) (.number r) p =
    (modOp l r p).map (·.map .number)

variable {K : Type} [DecidableEq K] [Inhabited K] {p : ℕ}

theorem divisionSignals [Fact p.Prime] (l r : ℤ) : DivisionSignals K p l r := by
  have hzero : (r : ZMod p) = 0 ↔ (p : ℤ) ∣ r := ZMod.intCast_zmod_eq_zero_iff_dvd r p
  constructor
  case div_error => rw [div_eq_error_iff, hzero]
  case idiv_error => rw [idiv_eq_error_iff, hzero]
  case div_value =>
    intro hr
    have hne : (r : ZMod p) ≠ 0 := mt hzero.mp hr
    obtain ⟨v, hv⟩ := div_eq_ok (l := l) hne
    obtain ⟨-, hval, hfield⟩ := div_ok hv
    refine ⟨v, hv, hfield, ?_⟩
    rw [← ZMod.intCast_zmod_eq_zero_iff_dvd]
    push_cast
    rw [hval, div_mul_cancel₀ _ hne, sub_self]
  case idiv_value => exact fun hr => idiv_eq_ok (mt hzero.mp hr)
  case expression_div_error =>
    intro left hleft
    rw [ArithmeticExpression.div_number_eq_error_iff hleft, hzero]
  case expression_div_value =>
    intro left e ρ h he
    have hleft : left ≠ .nonQuadratic := by
      rintro rfl
      cases h
      exact he rfl
    have hne : (r : ZMod p) ≠ 0 := by
      intro h0
      rw [(ArithmeticExpression.div_number_eq_error_iff hleft r).mpr h0] at h
      cases h
    rw [ArithmeticExpression.div_spec h he]
    exact div_mul_cancel₀ _ hne
  case expression_idiv =>
    unfold ArithmeticExpression.idiv ArithmeticExpression.numberResult2
    cases hd : idiv l r p <;> simp [hd, bind, Except.bind, Except.map]

theorem remainderSignals_iff [Fact p.Prime] (l r : ℤ) : RemainderSignals K p l r ↔ ¬ (p : ℤ) ∣ r := by
  have hzero : (r : ZMod p) = 0 ↔ (p : ℤ) ∣ r := ZMod.intCast_zmod_eq_zero_iff_dvd r p
  constructor
  · intro h hr
    exact h.total ((modOp_eq_none_iff l r).mpr (hzero.mpr hr))
  · intro hr
    have hmod := modOp_eq_ok (l := l) (mt hzero.mp hr)
    constructor
    case error => simp [hmod, hr]
    case total => simp [hmod]
    case value => exact fun _ => hmod
    case euclid =>
      intro q m hq hm
      rw [idiv_eq_ok (mt hzero.mp hr)] at hq
      rw [hmod] at hm
      cases hq
      cases hm
      exact Int.ediv_mul_add_emod _ _
    case expression =>
      unfold ArithmeticExpression.modOp
      cases hm : modOp l r p <;> simp [hm]

/-- `div` and `idiv` signal a zero right operand on all operands, and `mod_op` goes wrong exactly on the right operands
that are zero in the field. -/
theorem signalsDivisionByZero_iff (hp : p.Prime) (l r : ℤ) :
    DivisionSignals K p l r ∧ (RemainderSignals K p l r ↔ ¬ (p : ℤ) ∣ r) := by
  have : Fact p.Prime := ⟨hp⟩
  exact ⟨divisionSignals l r, remainderSignals_iff l r⟩

theorem signalsDivisionByZero_iff_seven :
    DivisionSignals ℕ 7 5 3 ∧ (RemainderSignals ℕ 7 5 3 ↔ ¬ ((7 : ℕ) : ℤ) ∣ 3) :=
  signalsDivisionByZero_iff (by decide) 5 3

/-- `5 % 0` panics. -/
theorem not_signalsDivisionByZero :
    ¬ ∀ p : ℕ, p.Prime → ∀ l r : ℤ, DivisionSignals ℕ p l r ∧ RemainderSignals ℕ p l r := by
  intro h
  have h1 : modOp 5 0 (7 : ℕ) ≠ none := (h 7 (by decide) 5 0).2.total
  exact h1 (by decide)

end Circom.Algebra
