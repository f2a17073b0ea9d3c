import Circom.Algebra.Proofs.ModularArithmetic

/-!
# Relational operators

`lesser` compares signed representatives and `eq` canonical ones; the other relations are composed
from these two with the boolean operators. In an odd prime field all of them are the relations of
one total order, the order of the balanced residues.
-/

namespace Circom.Algebra.ModularArithmetic

/-- The operators that compare two values. -/
def relationalOperators : List (ℤ → ℤ → ℤ → ℤ) := [lesser, lesserEq, greater, greaterEq, eq, notEq]

section Balanced

variable {p : ℕ} [hp : Fact p.Prime]

/-! ## Signed representatives -/

theorem comparableElement_eq_bmod (hodd : Odd p) (x : ℤ) : comparableElement x p = Int.bmod x p := by
  have hp0 : (0 : ℤ) < p := field_pos
  have h1 := Int.emod_nonneg x hp0.ne'
  have h2 := Int.emod_lt_of_pos x hp0
  have h3 : (p : ℤ).tdiv 2 = p / 2 := Int.tdiv_eq_ediv_of_nonneg hp0.le
  obtain ⟨k, hk⟩ := hodd
  unfold comparableElement val
  rw [modulus_eq_emod hp0, h3, Int.bmod_def]
  dsimp only
  split_ifs <;> omega

omit hp in
theorem bmod_eq_iff (x y : ℤ) : Int.bmod x p = Int.bmod y p ↔ x % p = y % p := by
  constructor
  · intro h
    have h1 := congrArg (· % (p : ℤ)) h
    simpa using h1
  · intro h
    rw [Int.bmod_def, Int.bmod_def, h]

/-! ## The bits of the relations -/

/-- The truth value of a proposition as a field element. -/
def bit (b : Prop) [Decidable b] : ℤ := if b then constantTrue else constantFalse

theorem bit_eq_one_iff {b : Prop} [Decidable b] : bit b = 1 ↔ b := by
  unfold bit constantTrue constantFalse
  split_ifs with h <;> simp [h]

theorem bit_congr {b c : Prop} [Decidable b] [Decidable c] (h : b ↔ c) : bit b = bit c := by
  unfold bit
  simp only [h]

theorem normalize_bit {b : Prop} [Decidable b] : normalize (bit b) p = bit b := by
  have h1 : modulus 1 p = 1 := modulus_of_inField one_inField
  have h0 : modulus 0 p = 0 := modulus_of_inField zero_inField
  have h2 := hp.out.two_le
  have h3 : (p : ℤ).tdiv 2 = p / 2 := Int.tdiv_eq_ediv_of_nonneg field_pos.le
  unfold normalize comparableElement val bit constantTrue constantFalse
  rw [h3]
  by_cases h : b
  · simp only [if_pos h, h1]
    split_ifs <;> omega
  · simp only [if_neg h, h0]
    split_ifs <;> omega

theorem not_bit {b : Prop} [Decidable b] : not (bit b) p = bit (¬ b) := by
  unfold not
  rw [normalize_bit]
  by_cases h : b <;> simp [bit, constantTrue, constantFalse, h]

theorem boolOr_bit {b c : Prop} [Decidable b] [Decidable c] :
    boolOr (bit b) (bit c) p = bit (b ∨ c) := by
  unfold boolOr boolAnd
  rw [normalize_bit, normalize_bit]
  by_cases h : b <;> by_cases h' : c <;> simp [bit, constantTrue, constantFalse, h, h']

/-! ## Every relation compares balanced residues -/

section Odd

variable (hodd : Odd p) (x y : ℤ)

include hodd

theorem lesser_eq_bit : lesser x y p = bit (Int.bmod x p < Int.bmod y p) := by
  unfold lesser bit
  rw [comparableElement_eq_bmod hodd, comparableElement_eq_bmod hodd]

omit hodd in
theorem eq_eq_bit : eq x y p = bit (Int.bmod x p = Int.bmod y p) := by
  have h : modulus x p = modulus y p ↔ Int.bmod x p = Int.bmod y p := by
    rw [modulus_eq_emod field_pos, modulus_eq_emod field_pos, bmod_eq_iff]
  unfold eq bit
  simp only [h]

theorem lesserEq_eq_bit : lesserEq x y p = bit (Int.bmod x p ≤ Int.bmod y p) := by
  unfold lesserEq
  rw [lesser_eq_bit hodd, eq_eq_bit, boolOr_bit]
  exact bit_congr le_iff_lt_or_eq.symm

theorem greater_eq_bit : greater x y p = bit (Int.bmod y p < Int.bmod x p) := by
  unfold greater
  rw [lesserEq_eq_bit hodd, not_bit]
  exact bit_congr not_le

theorem greaterEq_eq_bit : greaterEq x y p = bit (Int.bmod y p ≤ Int.bmod x p) := by
  unfold greaterEq
  rw [greater_eq_bit hodd, eq_eq_bit, boolOr_bit]
  exact bit_congr (by rw [eq_comm, ← le_iff_lt_or_eq])

omit hodd in
theorem notEq_eq_bit : notEq x y p = bit (Int.bmod x p ≠ Int.bmod y p) := by
  unfold notEq
  rw [eq_eq_bit, not_bit]

/-- A relation is a bit that its operands determine up to the field. -/
theorem relationalOperators_eq_bit {op : ℤ → ℤ → ℤ → ℤ} (h : op ∈ relationalOperators) :
    ∃ r : ℤ → ℤ → Bool, ∀ x y, op x y p = bit (r (Int.bmod x p) (Int.bmod y p) = true) := by
  simp only [relationalOperators, List.mem_cons, List.not_mem_nil, or_false] at h
  rcases h with rfl | rfl | rfl | rfl | rfl | rfl
  · exact ⟨fun v w => v < w, fun x y => by simp [lesser_eq_bit hodd]⟩
  · exact ⟨fun v w => v ≤ w, fun x y => by simp [lesserEq_eq_bit hodd]⟩
  · exact ⟨fun v w => w < v, fun x y => by simp [greater_eq_bit hodd]⟩
  · exact ⟨fun v w => w ≤ v, fun x y => by simp [greaterEq_eq_bit hodd]⟩
  · exact ⟨fun v w => v = w, fun x y => by simp [eq_eq_bit]⟩
  · exact ⟨fun v w => v ≠ w, fun x y => by simp [notEq_eq_bit]⟩

end Odd

end Balanced

/-! ## One total order -/

/-- The relational operators of a field are those of one total order on its elements. -/
structure ImplementsTotalOrder (p : ℕ) : Prop where
  /-- The values that are compared are the representatives of least magnitude. -/
  signed : ∀ x : ℤ, (p : ℤ) ∣ x - val (x % p) p ∧ 2 * |val (x % p) p| < p
  /-- `<` compares these values. -/
  lesser_iff : ∀ x y : ℤ, lesser x y p = 1 ↔ val (x % p) p < val (y % p) p
  /-- Exactly one of `<`, `==` and `>` holds. -/
  trichotomy : ∀ x y : ℤ, (lesser x y p = 1 ∧ eq x y p ≠ 1 ∧ lesser y x p ≠ 1) ∨
    (lesser x y p ≠ 1 ∧ eq x y p = 1 ∧ lesser y x p ≠ 1) ∨
    (lesser x y p ≠ 1 ∧ eq x y p ≠ 1 ∧ lesser y x p = 1)
  lesserEq_iff : ∀ x y : ℤ, lesserEq x y p = 1 ↔ lesser x y p = 1 ∨ eq x y p = 1
  greater_eq : ∀ x y : ℤ, greater x y p = lesser y x p
  greaterEq_eq : ∀ x y : ℤ, greaterEq x y p = lesserEq y x p
  notEq_iff : ∀ x y : ℤ, notEq x y p = 1 ↔ ¬ eq x y p = 1
  lesser_trans : ∀ x y z : ℤ, lesser x y p = 1 → lesser y z p = 1 → lesser x z p = 1
  /-- The result does not depend on the representatives of the operands. -/
  congr : ∀ op ∈ relationalOperators, ∀ x x' y y' : ℤ, x ≡ x' [ZMOD p] → y ≡ y' [ZMOD p] →
    op x y p = op x' y' p
  /-- The results are truth values. -/
  bits : ∀ op ∈ relationalOperators, ∀ x y : ℤ, op x y p = 0 ∨ op x y p = 1

/-- All relational operators compare the signed representatives of their operands. -/
theorem relationalOperators_implementsTotalOrder {p : ℕ} (hp : p.Prime) (hodd : Odd p) :
    ImplementsTotalOrder p := by
  have : Fact p.Prime := ⟨hp⟩
  have hp0 : (0 : ℤ) < p := field_pos
  have hval : ∀ x : ℤ, val (x % p) p = Int.bmod x p := by
    intro x
    rw [← comparableElement_eq_bmod hodd, comparableElement, modulus_eq_emod hp0]
  constructor
  case signed =>
    intro x
    rw [hval]
    have h1 : x % p = Int.bmod x p % p := by simp
    refine ⟨Int.ModEq.dvd h1.symm, ?_⟩
    obtain ⟨k, hk⟩ := hodd
    have h2 := Int.le_bmod (x := x) hp.pos
    have h3 := Int.bmod_lt (x := x) hp.pos
    rcases abs_cases (Int.bmod x p) with ⟨h4, -⟩ | ⟨h4, -⟩ <;> omega
  case lesser_iff =>
    intro x y
    rw [lesser_eq_bit hodd, bit_eq_one_iff, hval, hval]
  case trichotomy =>
    intro x y
    simp only [lesser_eq_bit hodd, eq_eq_bit, ne_eq, bit_eq_one_iff]
    omega
  case lesserEq_iff =>
    intro x y
    rw [lesserEq_eq_bit hodd, lesser_eq_bit hodd, eq_eq_bit]
    simp only [bit_eq_one_iff]
    exact le_iff_lt_or_eq
  case greater_eq =>
    intro x y
    rw [greater_eq_bit hodd, lesser_eq_bit hodd]
  case greaterEq_eq =>
    intro x y
    rw [greaterEq_eq_bit hodd, lesserEq_eq_bit hodd]
  case notEq_iff =>
    intro x y
    rw [notEq_eq_bit, eq_eq_bit, bit_eq_one_iff, bit_eq_one_iff]
  case lesser_trans =>
    intro x y z
    simp only [lesser_eq_bit hodd, bit_eq_one_iff]
    exact lt_trans
  case congr =>
    intro op hop x x' y y' hx hy
    obtain ⟨r, hr⟩ := relationalOperators_eq_bit hodd hop
    rw [hr, hr, (bmod_eq_iff x x').mpr hx, (bmod_eq_iff y y').mpr hy]
  case bits =>
    intro op hop x y
    obtain ⟨r, hr⟩ := relationalOperators_eq_bit hodd hop
    rw [hr]
    unfold bit constantTrue constantFalse
    split_ifs
    · exact Or.inr rfl
    · exact Or.inl rfl

theorem relationalOperators_implementsTotalOrder_seven : ImplementsTotalOrder 7 :=
  relationalOperators_implementsTotalOrder (by decide) (by decide)

end Circom.Algebra.ModularArithmetic
