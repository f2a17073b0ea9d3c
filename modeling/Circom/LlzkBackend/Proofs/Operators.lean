import Circom.Algebra.Proofs.ModularArithmetic
import Circom.Ast.Operators
import Circom.LlzkBackend.Shared
import Mathlib.Tactic.Ring

/-!
# Two implementations of the operators

On canonical field elements the unsigned operators of the backend compute what those of
`modular_arithmetic` compute on signed integers.
-/

namespace Circom.LlzkBackend

open Circom.Algebra.ModularArithmetic
open Circom.Ast (ExpressionInfixOpcode ExpressionPrefixOpcode)

variable {p : ℕ}
variable {a b n : ℕ}

/-! ## Canonical elements -/

theorem modulus_natCast (hp : 0 < p) (n : ℕ) : modulus n p = ((n % p : ℕ) : ℤ) := by
  rw [modulus_eq_emod (by exact_mod_cast hp)]
  rfl

theorem modulus_of_lt (hn : n < p) : modulus n p = n := by
  have hp : 0 < p := by omega
  rw [modulus_natCast hp, Nat.mod_eq_of_lt hn]

theorem tdiv_two (p : ℕ) : (p : ℤ).tdiv 2 = ((p / 2 : ℕ) : ℤ) := rfl

theorem relationalVal_eq (ha : a < p) : relationalVal a p = comparableElement a p := by
  rw [comparableElement, modulus_of_lt ha, relationalVal, val, tdiv_two, Nat.mod_eq_of_lt ha]
  by_cases h : p / 2 + 1 ≤ a
  · have h' : ((p / 2 : ℕ) : ℤ) + 1 ≤ a ∧ (a : ℤ) < p := by omega
    simp only [if_pos h, if_pos h']
  · have h' : ¬ (((p / 2 : ℕ) : ℤ) + 1 ≤ a ∧ (a : ℤ) < p) := by omega
    simp only [if_neg h, if_neg h']

theorem comparableElement_eq_zero (ha : a < p) : comparableElement a p = 0 ↔ a = 0 := by
  rw [← relationalVal_eq ha, relationalVal, Nat.mod_eq_of_lt ha]
  split_ifs
  · omega
  · omega

theorem normalize_eq (ha : a < p) : normalize a p = if a = 0 then 0 else 1 := by
  show (if comparableElement a p = 0 then (0 : ℤ) else 1) = _
  by_cases h : a = 0
  · rw [if_pos ((comparableElement_eq_zero ha).mpr h), if_pos h]
  · rw [if_neg (fun h' => h ((comparableElement_eq_zero ha).mp h')), if_neg h]

theorem asBool_eq (ha : a < p) : asBool a p = decide (a ≠ 0) := by
  rw [asBool, normalize_eq ha]
  by_cases h : a = 0
  · simp [h, constantFalse]
  · simp [h, constantFalse]

/-- The truth values are elements themselves. -/
theorem normalize_boolToBiguint (hp : 1 < p) (b : Bool) :
    normalize (boolToBiguint b) p = boolToBiguint b := by
  have hlt : boolToBiguint b < p := by
    cases b
    all_goals simp [boolToBiguint]
    all_goals omega
  rw [normalize_eq hlt]
  cases b
  · rfl
  · rfl

/-! ## Arithmetic operators -/

theorem add_eq (hp : 0 < p) (a b : ℕ) : add a b p = ((a + b) % p : ℕ) := by
  rw [add, ← Nat.cast_add, modulus_natCast hp]

theorem mul_eq (hp : 0 < p) (a b : ℕ) : mul a b p = (a * b % p : ℕ) := by
  rw [mul, ← Nat.cast_mul, modulus_natCast hp]

theorem sub_eq (hp : 0 < p) (hb : b < p) (a : ℕ) : sub a b p = ((a + (p - b)) % p : ℕ) := by
  have hcast : ((a + (p - b) : ℕ) : ℤ) = (a - b) + p := by omega
  rw [sub, modulus_eq_emod (by exact_mod_cast hp), Int.natCast_mod, hcast, Int.add_emod_right]

theorem prefixSub_eq (ha : a < p) : prefixSub a p = ((if a = 0 then a else p - a : ℕ) : ℤ) := by
  have hp : (0 : ℤ) < p := by omega
  rw [prefixSub, mul, modulus_eq_emod hp]
  split_ifs with h
  · simp [h]
  · have hrange : 0 ≤ (p : ℤ) - a ∧ (p : ℤ) - a < p := by omega
    have hshift : (a : ℤ) * -1 = (p - a) + p * (-1) := by ring
    rw [hshift, Int.add_mul_emod_self_left, Int.emod_eq_of_lt hrange.1 hrange.2]
    omega

theorem pow_eq (hp : 0 < p) (a b : ℕ) : pow a b p = some ((a ^ b % p : ℕ) : ℤ) := by
  have hcond : ¬ ((b : ℤ) < 0 ∨ (p : ℤ) = 0) := by omega
  rw [pow, modpow, if_neg hcond, Int.toNat_natCast, Int.fmod_eq_emod_of_nonneg _ (by omega)]
  norm_cast

theorem idiv_eq (ha : a < p) (hb : b < p) (h0 : b ≠ 0) : idiv a b p = .ok ((a / b % p : ℕ) : ℤ) := by
  have hlt : a / b < p := (Nat.div_le_self a b).trans_lt ha
  have hne : ¬ (b : ℤ) = 0 := by omega
  rw [idiv, modulus_of_lt ha, modulus_of_lt hb, if_neg hne, Nat.mod_eq_of_lt hlt]
  rfl

theorem modOp_eq (ha : a < p) (hb : b < p) (h0 : b ≠ 0) : modOp a b p = some (.ok ((a % b : ℕ) : ℤ)) := by
  have hne : ¬ (b : ℤ) = 0 := by omega
  rw [modOp, modulus_of_lt ha, modulus_of_lt hb, if_neg hne,
    modulus_natCast (Nat.pos_of_ne_zero h0)]

/-- The inverses of both number types are the same. -/
theorem modInverse_eq (hp : p.Prime) (hb : b < p) (h0 : b ≠ 0) :
    ∃ inverse : ℕ, modInverse b p = some inverse ∧
      Algebra.ModularArithmetic.modInverse b p = some (inverse : ℤ) := by
  have hcoprime : Nat.gcd b p = 1 :=
    Nat.coprime_comm.mp ((Nat.Prime.coprime_iff_not_dvd hp).mpr
      (Nat.not_dvd_of_pos_of_lt (Nat.pos_of_ne_zero h0) hb))
  have hgcd : Int.gcd b p = 1 := hcoprime
  have hpos : (p : ℤ) ≠ 0 := by
    have := hp.pos
    omega
  have hnonneg : 0 ≤ Int.gcdA b p % p := Int.emod_nonneg _ hpos
  have hinverse : Algebra.ModularArithmetic.modInverse b p = some (Int.gcdA b p % p) := by
    rw [Algebra.ModularArithmetic.modInverse, if_pos hgcd]
  refine ⟨(Int.gcdA b p % p).toNat, ?_, ?_⟩
  · rw [modInverse, hinverse]
    rfl
  · rw [hinverse, Int.toNat_of_nonneg hnonneg]

theorem modInverse_zero (hp : 1 < p) : modInverse 0 p = none := by
  have hgcd : ¬ Int.gcd 0 p = 1 := by
    rw [Int.gcd_zero_left]
    simp only [Int.natAbs_natCast]
    omega
  rw [modInverse, Algebra.ModularArithmetic.modInverse]
  simp only [Nat.cast_zero, if_neg hgcd, Option.map_none]

/-! ## Relational and boolean operators -/

theorem lesser_eq (ha : a < p) (hb : b < p) : lesser a b p = boolToBiguint (relationalVal a p < relationalVal b p) := by
  rw [lesser, ← relationalVal_eq ha, ← relationalVal_eq hb, boolToBiguint]
  by_cases h : relationalVal a p < relationalVal b p
  · simp [h, constantTrue]
  · simp [h, constantFalse]

theorem eq_eq (ha : a < p) (hb : b < p) : eq a b p = boolToBiguint (a = b) := by
  rw [eq, modulus_of_lt ha, modulus_of_lt hb, boolToBiguint]
  by_cases h : a = b
  · simp [h, constantTrue]
  · simp [h, constantFalse]

theorem not_boolToBiguint (hp : 1 < p) (b : Bool) : not (boolToBiguint b) p = boolToBiguint !b := by
  show (normalize (boolToBiguint b) p + 1).tmod 2 = _
  rw [normalize_boolToBiguint hp]
  cases b
  · rfl
  · rfl

theorem boolOr_boolToBiguint (hp : 1 < p) (b c : Bool) :
    boolOr (boolToBiguint b) (boolToBiguint c) p = boolToBiguint (b || c) := by
  rw [boolOr, boolAnd, normalize_boolToBiguint hp, normalize_boolToBiguint hp]
  cases b
  · cases c
    · rfl
    · rfl
  · cases c
    · rfl
    · rfl

/-- Signed representatives tell elements apart. -/
theorem relationalVal_inj (ha : a < p) (hb : b < p) (h : relationalVal a p = relationalVal b p) : a = b := by
  rw [relationalVal, relationalVal, Nat.mod_eq_of_lt ha, Nat.mod_eq_of_lt hb] at h
  split_ifs at h
  all_goals omega

theorem lesserEq_eq (hp : 1 < p) (ha : a < p) (hb : b < p) :
    lesserEq a b p = boolToBiguint (relationalVal a p ≤ relationalVal b p) := by
  rw [lesserEq, lesser_eq ha hb, eq_eq ha hb, boolOr_boolToBiguint hp, ← Bool.decide_or]
  congr 2
  apply decide_eq_decide.mpr
  rw [le_iff_lt_or_eq]
  constructor
  · rintro (h | rfl)
    · exact Or.inl h
    · exact Or.inr rfl
  · rintro (h | h)
    · exact Or.inl h
    · exact Or.inr (relationalVal_inj ha hb h)

theorem greater_eq (hp : 1 < p) (ha : a < p) (hb : b < p) :
    greater a b p = boolToBiguint (relationalVal a p > relationalVal b p) := by
  rw [greater, lesserEq_eq hp ha hb, not_boolToBiguint hp, ← decide_not]
  congr 2
  exact decide_eq_decide.mpr not_le

theorem greaterEq_eq (hp : 1 < p) (ha : a < p) (hb : b < p) :
    greaterEq a b p = boolToBiguint (relationalVal a p ≥ relationalVal b p) := by
  rw [greaterEq, greater_eq hp ha hb, eq_eq ha hb, boolOr_boolToBiguint hp, ← Bool.decide_or]
  congr 2
  apply decide_eq_decide.mpr
  rw [ge_iff_le, le_iff_lt_or_eq]
  constructor
  · rintro (h | rfl)
    · exact Or.inl h
    · exact Or.inr rfl
  · rintro (h | h)
    · exact Or.inl h
    · exact Or.inr (relationalVal_inj hb ha h).symm

theorem notEq_eq (hp : 1 < p) (ha : a < p) (hb : b < p) : notEq a b p = boolToBiguint (a ≠ b) := by
  rw [notEq, eq_eq ha hb, not_boolToBiguint hp, ← decide_not]

theorem normalize_eq_boolToBiguint (ha : a < p) : normalize a p = boolToBiguint (a ≠ 0) := by
  rw [normalize_eq ha, boolToBiguint]
  by_cases h : a = 0
  · simp [h]
  · simp [h]

theorem boolAnd_eq (ha : a < p) (hb : b < p) : boolAnd a b p = boolToBiguint (a ≠ 0 ∧ b ≠ 0) := by
  rw [boolAnd, normalize_eq ha, normalize_eq hb, boolToBiguint]
  by_cases h1 : a = 0
  · simp [h1]
  · by_cases h2 : b = 0
    · simp [h2]
    · simp [h1, h2]

theorem boolOr_eq (ha : a < p) (hb : b < p) : boolOr a b p = boolToBiguint (a ≠ 0 ∨ b ≠ 0) := by
  rw [boolOr, boolAnd, normalize_eq ha, normalize_eq hb, boolToBiguint]
  by_cases h1 : a = 0
  · by_cases h2 : b = 0
    · simp [h1, h2]
    · simp [h1, h2]
  · by_cases h2 : b = 0
    · simp [h1, h2]
    · simp [h1, h2]

/-! ## Bit operators -/

theorem length_bitRepresentation (hp : p ≠ 0) : (bitRepresentation p).length = p.size := by
  have hne : ¬ (p : ℤ) = 0 := by omega
  rw [bitRepresentation, if_neg hne, Int.natAbs_natCast, Nat.digits_two_eq_bits, List.length_map,
    Nat.size_eq_bits_len]

theorem mask_eq (hp : p ≠ 0) : mask p = ((2 ^ p.size - 1 : ℕ) : ℤ) := by
  have hpos : 0 < 2 ^ p.size := Nat.two_pow_pos p.size
  rw [mask, length_bitRepresentation hp, Nat.cast_sub hpos]
  norm_cast

theorem bitOr_eq (hp : 0 < p) (a b : ℕ) : bitOr a b p = ((a ||| b) % p : ℕ) :=
  modulus_natCast hp (a ||| b)

theorem bitAnd_eq (ha : a < p) : bitAnd a b p = (a &&& b : ℕ) :=
  modulus_of_lt (Nat.and_le_left.trans_lt ha)

theorem bitXor_eq (hp : 0 < p) (a b : ℕ) : bitXor a b p = ((a ^^^ b) % p : ℕ) :=
  modulus_natCast hp (a ^^^ b)

theorem two_pow_sub_one_xor (h : a < 2 ^ n) : (2 ^ n - 1) ^^^ a = 2 ^ n - (a + 1) := by
  apply Nat.eq_of_testBit_eq
  intro i
  rw [Nat.testBit_xor, Nat.testBit_two_pow_sub_one, Nat.testBit_two_pow_sub_succ h]
  by_cases hi : i < n
  · simp [hi]
  · have hlt : a < 2 ^ i := h.trans_le (Nat.pow_le_pow_right (by decide) (by omega))
    simp [hi, Nat.testBit_lt_two_pow hlt]

/-- Flipped bits and the bits themselves add up to a number of ones. -/
theorem ofDigits_flip (l : List ℕ) (h : ∀ d ∈ l, d < 2) :
    Nat.ofDigits 2 (l.map fun bit => if bit = 0 then 1 else 0) + Nat.ofDigits 2 l + 1 =
      2 ^ l.length := by
  induction l with
  | nil => rfl
  | cons d l ih =>
    have hd : d < 2 := h d List.mem_cons_self
    have htail := ih fun e he => h e (List.mem_cons_of_mem d he)
    rw [List.map_cons, Nat.ofDigits_cons, Nat.ofDigits_cons, List.length_cons, pow_succ, ← htail]
    split_ifs
    · omega
    · omega

theorem length_resizeBits (l : List ℕ) (n : ℕ) : (resizeBits l n).length = n := by
  rw [resizeBits, List.length_append, List.length_replicate, List.length_take]
  omega

theorem resizeBits_of_le {l : List ℕ} (h : l.length ≤ n) : resizeBits l n = l ++ List.replicate (n - l.length) 0 := by
  rw [resizeBits, List.take_of_length_le h]

theorem bitRepresentation_natCast (a : ℕ) :
    Nat.ofDigits 2 (bitRepresentation a) = a ∧ ∀ d ∈ bitRepresentation a, d < 2 := by
  by_cases h : a = 0
  · subst h
    refine ⟨rfl, ?_⟩
    intro d hd
    rw [List.mem_singleton.mp hd]
    omega
  · have hne : ¬ (a : ℤ) = 0 := by omega
    rw [bitRepresentation, if_neg hne, Int.natAbs_natCast]
    exact ⟨Nat.ofDigits_digits 2 a, fun d hd => Nat.digits_lt_base (by decide) hd⟩

theorem length_bitRepresentation_le (ha : a < p) : (bitRepresentation a).length ≤ p.size := by
  by_cases h : a = 0
  · subst h
    exact Nat.size_pos.mpr ha
  · rw [length_bitRepresentation h]
    exact Nat.size_le_size ha.le

theorem complement_eq (hp : 0 < p) (ha : a < p) : complement a p = (((1 <<< p.size - 1) ^^^ a) % p : ℕ) := by
  obtain ⟨hvalue, hbits⟩ := bitRepresentation_natCast a
  have hnonneg : ¬ (a : ℤ) < 0 := by omega
  have hlt : a < 2 ^ p.size := ha.trans (Nat.lt_size_self p)
  have hlist := resizeBits_of_le (length_bitRepresentation_le ha)
  have hdigits : ∀ d ∈ resizeBits (bitRepresentation a) p.size, d < 2 := by
    intro d hd
    rw [hlist, List.mem_append] at hd
    rcases hd with hd | hd
    · exact hbits d hd
    · rw [List.eq_of_mem_replicate hd]
      omega
  have hresize : Nat.ofDigits 2 (resizeBits (bitRepresentation a) p.size) = a := by
    rw [hlist, Nat.ofDigits_append_replicate_zero, hvalue]
  have hflip := ofDigits_flip _ hdigits
  rw [hresize, length_resizeBits] at hflip
  have hsub : Nat.ofDigits 2 ((resizeBits (bitRepresentation a) p.size).map
      fun bit => if bit = 0 then 1 else 0) = 2 ^ p.size - (a + 1) := by omega
  rw [Nat.one_shiftLeft, two_pow_sub_one_xor hlt, ← hsub, ← modulus_natCast hp, complement,
    if_neg hnonneg, Nat.coe_ofDigits ℤ]
  rfl

/-! ## Shifts -/

theorem toUsize_natCast (k : ℕ) : Algebra.ModularArithmetic.toUsize k = toUsize k := by
  rw [Algebra.ModularArithmetic.toUsize, toUsize]
  by_cases h : k < 2 ^ 64
  · have h' : 0 ≤ (k : ℤ) ∧ (k : ℤ) < 2 ^ 64 := by
      constructor
      · omega
      · exact_mod_cast h
    rw [if_pos h, if_pos h', Int.toNat_natCast]
  · have h' : ¬ (0 ≤ (k : ℤ) ∧ (k : ℤ) < 2 ^ 64) := by
      intro hk
      exact h (by exact_mod_cast hk.2)
    rw [if_neg h, if_neg h']

/-- A shift to the left by a count in the lower half of the field. -/
def leftShift (a k p : ℕ) : ℕ :=
  match (toUsize k).filter (· < p.size) with
  | some k => ((a <<< k) &&& (1 <<< p.size - 1)) % p
  | none => 0

/-- A shift to the right by a count in the lower half of the field. -/
def rightShift (a k p : ℕ) : ℕ :=
  match (toUsize k).filter (· < p.size) with
  | some k => a >>> k
  | none => 0

theorem computeShift_eq (ha : a < p) (hb : b < p) (left : Bool) :
    computeShift left a b p =
      if b ≤ p / 2 then if left then leftShift a b p else rightShift a b p
      else if left then rightShift a (p - b) p else leftShift a (p - b) p := by
  rw [computeShift, Nat.mod_eq_of_lt ha, Nat.mod_eq_of_lt hb, Nat.shiftRight_one]
  by_cases h : b ≤ p / 2
  · have hreverse : ¬ p / 2 < b := by omega
    simp only [if_pos h, if_neg hreverse, leftShift, rightShift]
    cases (toUsize b).filter (· < p.size) with
    | none => cases left <;> rfl
    | some k =>
      cases left
      all_goals simp [hreverse]
  · have hreverse : p / 2 < b := by omega
    simp only [if_neg h, if_pos hreverse, leftShift, rightShift]
    cases (toUsize (p - b)).filter (· < p.size) with
    | none => cases left <;> rfl
    | some k =>
      cases left
      all_goals simp [hreverse]

theorem shiftL_le_eq (hp : 0 < p) {k : ℕ} (hk : k ≤ p / 2) (a : ℕ) :
    (shiftL a k p).toOption.getD 0 = leftShift a k p := by
  have htop : (k : ℤ) ≤ (p : ℤ).tdiv 2 := by
    rw [tdiv_two]
    omega
  rw [shiftL_of_le htop, toUsize_natCast, leftShift]
  cases hword : toUsize k with
  | none => rfl
  | some n =>
    have hshift : Int.land (a * 2 ^ n) (mask p) = ((a * 2 ^ n % 2 ^ p.size : ℕ) : ℤ) := by
      rw [mask_eq (by omega), ← Nat.and_two_pow_sub_one_eq_mod]
      have hcast : (a : ℤ) * 2 ^ n = ((a * 2 ^ n : ℕ) : ℤ) := by norm_cast
      rw [hcast]
      rfl
    show modulus (Int.land (a * 2 ^ n) (mask p)) p = _
    rw [hshift, modulus_natCast hp]
    by_cases hn : n < p.size
    · have hsome : (some n).filter (· < p.size) = some n := by simp [hn]
      rw [hsome]
      show _ = (((a <<< n &&& 1 <<< p.size - 1) % p : ℕ) : ℤ)
      rw [Nat.one_shiftLeft, Nat.and_two_pow_sub_one_eq_mod, Nat.shiftLeft_eq]
    · have hnone : (some n).filter (· < p.size) = none := by simpa using Nat.le_of_not_lt hn
      -- all bits leave the field
      have hzero : a * 2 ^ n % 2 ^ p.size = 0 :=
        Nat.mod_eq_zero_of_dvd (Dvd.dvd.mul_left (pow_dvd_pow 2 (by omega)) a)
      rw [hnone, hzero, Nat.zero_mod]

theorem shiftR_le_eq (ha : a < p) {k : ℕ} (hk : k ≤ p / 2) : (shiftR a k p).toOption.getD 0 = rightShift a k p := by
  have htop : (k : ℤ) ≤ (p : ℤ).tdiv 2 := by
    rw [tdiv_two]
    omega
  rw [shiftR_of_le htop, toUsize_natCast, rightShift]
  cases hword : toUsize k with
  | none => rfl
  | some n =>
    have hdiv : (a : ℤ).tdiv (2 ^ n) = ((a / 2 ^ n : ℕ) : ℤ) := by
      have hcast : (2 : ℤ) ^ n = ((2 ^ n : ℕ) : ℤ) := by norm_cast
      rw [hcast]
      rfl
    show (a : ℤ).tdiv (2 ^ n) = _
    rw [hdiv]
    by_cases hn : n < p.size
    · have hsome : (some n).filter (· < p.size) = some n := by simp [hn]
      rw [hsome]
      show _ = ((a >>> n : ℕ) : ℤ)
      rw [Nat.shiftRight_eq_div_pow]
    · have hnone : (some n).filter (· < p.size) = none := by simpa using Nat.le_of_not_lt hn
      have hlt : a < 2 ^ n :=
        ha.trans ((Nat.lt_size_self p).trans_le (Nat.pow_le_pow_right (by decide) (by omega)))
      rw [hnone, Nat.div_eq_of_lt hlt]

/-- Where a count is too large for a machine word, the backend shifts everything out. -/
theorem shiftL_eq (hodd : Odd p) (ha : a < p) (hb : b < p) :
    (shiftL a b p).toOption.getD 0 = computeShift true a b p := by
  rw [computeShift_eq ha hb]
  by_cases h : b ≤ p / 2
  · rw [shiftL_le_eq (by omega) h, if_pos h, if_pos rfl]
  · have htop : ¬ (b : ℤ) ≤ (p : ℤ).tdiv 2 := by
      rw [tdiv_two]
      omega
    have hrest : p - b ≤ p / 2 := by
      obtain ⟨m, rfl⟩ := hodd
      omega
    have hcast : (p : ℤ) - b = ((p - b : ℕ) : ℤ) := by omega
    rw [shiftL_of_gt htop, hcast, shiftR_le_eq ha hrest, if_neg h, if_pos rfl]

theorem shiftR_eq (hodd : Odd p) (ha : a < p) (hb : b < p) :
    (shiftR a b p).toOption.getD 0 = computeShift false a b p := by
  rw [computeShift_eq ha hb]
  by_cases h : b ≤ p / 2
  · rw [shiftR_le_eq ha h, if_pos h, if_neg Bool.false_ne_true]
  · have htop : ¬ (b : ℤ) ≤ (p : ℤ).tdiv 2 := by
      rw [tdiv_two]
      omega
    have hrest : p - b ≤ p / 2 := by
      obtain ⟨m, rfl⟩ := hodd
      omega
    have hcast : (p : ℤ) - b = ((p - b : ℕ) : ℤ) := by omega
    rw [shiftR_of_gt htop, hcast, shiftL_le_eq (by omega) hrest, if_neg h,
      if_neg Bool.false_ne_true]

theorem computeShift_lt (ha : a < p) (hb : b < p) (left : Bool) : computeShift left a b p < p := by
  have hl : ∀ k, leftShift a k p < p := by
    intro k
    rw [leftShift]
    split
    · exact Nat.mod_lt _ (by omega)
    · omega
  have hr : ∀ k, rightShift a k p < p := by
    intro k
    rw [rightShift]
    split
    · rw [Nat.shiftRight_eq_div_pow]
      exact (Nat.div_le_self _ _).trans_lt ha
    · omega
  rw [computeShift_eq ha hb]
  split_ifs
  · exact hl _
  · exact hr _
  · exact hr _
  · exact hl _

end Circom.LlzkBackend
