import Circom.Algebra.ModularArithmetic
import Mathlib.Data.ZMod.Basic
import Mathlib.Algebra.Field.ZMod
import Mathlib.RingTheory.Int.Basic
import Mathlib.RingTheory.Coprime.Lemmas
import Mathlib.Tactic.FieldSimp
import Mathlib.Tactic.LinearCombination
import Mathlib.Data.Nat.Digits.Lemmas

/-!
# Modular arithmetic: values and ranges

Every operator computes its field operation when its result is read in `ZMod p`, and the operators
return canonical representatives, given canonical operands where they do not reduce them.
-/

namespace Circom.Algebra.ModularArithmetic

variable {p : ℕ} {a b field k l r v x : ℤ}

/-- `v` is the canonical representative of a field element. -/
def InField (field v : ℤ) : Prop := 0 ≤ v ∧ v < field

instance (field v : ℤ) : Decidable (InField field v) := by unfold InField; infer_instance

theorem modulus_eq_emod (hb : 0 < b) : modulus a b = a % b := by
  unfold modulus
  have h1 : 0 ≤ a.tmod b + b := by have := Int.lt_tmod_of_pos a hb; omega
  rw [Int.tmod_eq_emod_of_nonneg h1, Int.tmod_eq_emod]
  split_ifs
  · simp
  · rw [Int.natCast_natAbs, abs_of_pos hb]; simp

theorem dvd_sub_modulus (a b : ℤ) : b ∣ a - modulus a b := by
  have h1 := Int.mul_tdiv_add_tmod a b
  have h2 := Int.mul_tdiv_add_tmod (a.tmod b + b) b
  refine ⟨a.tdiv b + (a.tmod b + b).tdiv b - 1, ?_⟩
  unfold modulus
  linear_combination -h1 - h2

theorem modulus_inField (hb : 0 < b) : InField b (modulus a b) := by
  rw [modulus_eq_emod hb]
  exact ⟨Int.emod_nonneg _ hb.ne', Int.emod_lt_of_pos _ hb⟩

theorem modulus_of_inField (h : InField b a) : modulus a b = a := by
  rw [modulus_eq_emod (h.1.trans_lt h.2)]
  exact Int.emod_eq_of_lt h.1 h.2

section ZMod

variable {p : ℕ} [NeZero p]

theorem field_pos : (0 : ℤ) < p := by
  have := NeZero.pos p
  omega

@[simp] theorem cast_modulus (a : ℤ) : ((modulus a p : ℤ) : ZMod p) = a := by
  rw [modulus_eq_emod field_pos, ZMod.intCast_mod]

@[simp] theorem cast_add (l r : ℤ) : ((add l r p : ℤ) : ZMod p) = l + r := by simp [add]

@[simp] theorem cast_mul (l r : ℤ) : ((mul l r p : ℤ) : ZMod p) = l * r := by simp [mul]

@[simp] theorem cast_sub (l r : ℤ) : ((sub l r p : ℤ) : ZMod p) = l - r := by simp [sub]

theorem add_inField (l r : ℤ) : InField p (add l r p) := modulus_inField field_pos

theorem mul_inField (l r : ℤ) : InField p (mul l r p) := modulus_inField field_pos

omit [NeZero p] in
/-- Canonical representatives are determined by their class. -/
theorem eq_of_cast_eq {y : ℤ} (hx : InField p x) (hy : InField p y) (h : (x : ZMod p) = y) : x = y := by
  have h1 := (ZMod.intCast_eq_intCast_iff' x y p).mp h
  rwa [Int.emod_eq_of_lt hx.1 hx.2, Int.emod_eq_of_lt hy.1 hy.2] at h1

theorem cast_eq_zero_iff (hx : InField p x) : (x : ZMod p) = 0 ↔ x = 0 := by
  constructor
  · intro h
    exact eq_of_cast_eq hx ⟨le_refl _, field_pos⟩ (by simpa using h)
  · rintro rfl; simp

end ZMod

/-! ## Inverses -/

section Prime

variable {p : ℕ} [hp : Fact p.Prime]

theorem gcd_eq_one_iff (a : ℤ) : Int.gcd a p = 1 ↔ (a : ZMod p) ≠ 0 := by
  rw [Ne, ZMod.intCast_zmod_eq_zero_iff_dvd]
  constructor
  · intro h hd
    have h2 : (p : ℤ) ∣ (Int.gcd a p : ℤ) := Int.dvd_coe_gcd hd dvd_rfl
    rw [h] at h2
    have h3 := Int.le_of_dvd (by norm_num) h2
    have := hp.out.two_le
    omega
  · intro h
    have h1 : IsCoprime (p : ℤ) a :=
      (Nat.prime_iff_prime_int.mp hp.out).irreducible.coprime_iff_not_dvd.mpr h
    rw [Int.gcd_comm]
    exact Int.isCoprime_iff_gcd_eq_one.mp h1

/-- `modInverse` fails exactly on the zero class and otherwise returns the field inverse. -/
theorem modInverse_spec (a : ℤ) :
    ((a : ZMod p) = 0 ∧ modInverse a p = none) ∨
    ((a : ZMod p) ≠ 0 ∧ ∃ b, modInverse a p = some b ∧ (b : ZMod p) = (a : ZMod p)⁻¹) := by
  unfold modInverse
  by_cases h : (a : ZMod p) = 0
  · left
    exact ⟨h, if_neg fun hg => (gcd_eq_one_iff a).mp hg h⟩
  · right
    have hg := (gcd_eq_one_iff a).mpr h
    refine ⟨h, _, if_pos hg, ?_⟩
    have hb := Int.gcd_eq_gcd_ab a p
    rw [hg] at hb
    have hb' : (1 : ZMod p) = a * (Int.gcdA a p : ℤ) := by
      have := congrArg (fun x : ℤ => (x : ZMod p)) hb
      simpa using this
    rw [ZMod.intCast_mod]
    exact (eq_inv_of_mul_eq_one_right hb'.symm)

theorem div_ok (h : div l r p = .ok v) : (r : ZMod p) ≠ 0 ∧ (v : ZMod p) = l / r ∧ InField p v := by
  unfold div at h
  rcases modInverse_spec (p := p) r with ⟨-, h2⟩ | ⟨h1, b, h2, h3⟩
  · rw [h2] at h; cases h
  · rw [h2] at h
    cases h
    exact ⟨h1, by rw [cast_mul, h3, div_eq_mul_inv], mul_inField _ _⟩

theorem div_eq_ok (h : (r : ZMod p) ≠ 0) : ∃ v, div l r p = .ok v := by
  unfold div
  rcases modInverse_spec (p := p) r with ⟨h1, -⟩ | ⟨-, b, h2, -⟩
  · exact absurd h1 h
  · exact ⟨_, by rw [h2]⟩

end Prime

/-! ## Ranges of the shifts -/

section Ranges

variable {p : ℕ} [hp : Fact p.Prime]

theorem zero_inField : InField p 0 := ⟨le_refl _, field_pos⟩

theorem one_inField : InField p 1 := ⟨by norm_num, by have := hp.out.two_le; omega⟩

omit hp in
theorem tdiv_inField (hl : InField p l) (n : ℕ) : InField p (l.tdiv (2 ^ n)) := by
  have h2 : (0 : ℤ) ≤ 2 ^ n := by positivity
  refine ⟨Int.tdiv_nonneg hl.1 h2, ?_⟩
  rw [Int.tdiv_eq_ediv_of_nonneg hl.1]
  exact (Int.ediv_le_self _ hl.1).trans_lt hl.2

/-- A shift by at most half the field does not call the other shift. -/
theorem shiftL_of_le (hr : r ≤ field.tdiv 2) :
    shiftL l r field = match toUsize r with
      | none => .error .divisionByZero
      | some n => .ok (modulus (Int.land (l * 2 ^ n) (mask field)) field) := by
  rw [shiftL]
  exact if_pos hr

theorem shiftR_of_le (hr : r ≤ field.tdiv 2) :
    shiftR l r field = match toUsize r with
      | none => .error .divisionByZero
      | some n => .ok (l.tdiv (2 ^ n)) := by
  rw [shiftR]
  exact if_pos hr

theorem shiftL_of_gt (hr : ¬ r ≤ field.tdiv 2) : shiftL l r field = shiftR l (field - r) field := by
  rw [shiftL]
  exact if_neg hr

theorem shiftR_of_gt (hr : ¬ r ≤ field.tdiv 2) : shiftR l r field = shiftL l (field - r) field := by
  rw [shiftR]
  exact if_neg hr

theorem shiftL_inField_of_le (hr : r ≤ (p : ℤ).tdiv 2) (h : shiftL l r p = .ok v) : InField p v := by
  rw [shiftL_of_le hr] at h
  split at h
  · cases h
  · cases h; exact modulus_inField field_pos

omit hp in
theorem shiftR_inField_of_le (hl : InField p l) (hr : r ≤ (p : ℤ).tdiv 2) (h : shiftR l r p = .ok v) : InField p v := by
  rw [shiftR_of_le hr] at h
  split at h
  · cases h
  · cases h; exact tdiv_inField hl _

theorem shiftL_inField (hl : InField p l) (h : shiftL l r p = .ok v) : InField p v := by
  by_cases hr : r ≤ (p : ℤ).tdiv 2
  · exact shiftL_inField_of_le hr h
  · rw [shiftL_of_gt hr] at h
    exact shiftR_inField_of_le hl (sub_le_half hr) h

theorem shiftR_inField (hl : InField p l) (h : shiftR l r p = .ok v) : InField p v := by
  by_cases hr : r ≤ (p : ℤ).tdiv 2
  · exact shiftR_inField_of_le hl hr h
  · rw [shiftR_of_gt hr] at h
    exact shiftL_inField_of_le (sub_le_half hr) h

end Ranges

/-!
## Shifts

A shift by at most half the field is a division or a masked multiplication by a power of two. A
larger one is the opposite shift by the rest, which is at most half the field: the two functions
call each other at most once.
-/

/-! ## The mask -/

theorem length_bitRepresentation {n : ℕ} (hn : n ≠ 0) :
    (bitRepresentation (n : ℤ)).length = n.size := by
  have h0 : (n : ℤ) ≠ 0 := by omega
  unfold bitRepresentation
  rw [if_neg h0, Int.natAbs_natCast]
  refine eq_of_forall_ge_iff fun k => ?_
  rw [Nat.digits_length_le_iff (by norm_num), Nat.size_le]

theorem land_mask (hv : 0 ≤ v) (hp : p ≠ 0) : Int.land v (mask p) = v % 2 ^ p.size := by
  obtain ⟨n, rfl⟩ := Int.eq_ofNat_of_zero_le hv
  have h1 : mask p = ((2 ^ p.size - 1 : ℕ) : ℤ) := by
    unfold mask
    rw [length_bitRepresentation hp]
    have := Nat.one_le_two_pow (n := p.size)
    push_cast [this]
    rfl
  have h2 : Int.land (n : ℤ) ((2 ^ p.size - 1 : ℕ) : ℤ) = ((n &&& (2 ^ p.size - 1) : ℕ) : ℤ) := rfl
  rw [h1, h2, Nat.and_two_pow_sub_one_eq_mod]
  push_cast
  rfl

/-! ## Shifts by at most half the field -/

theorem toUsize_eq_some (h0 : 0 ≤ k) (h : k < 2 ^ 64) : toUsize k = some k.toNat := by
  unfold toUsize
  exact if_pos ⟨h0, h⟩

/-- The value of a shift to the left by at most half the field. -/
theorem shiftL_eq (hp : p ≠ 0) (hx : 0 ≤ x) (hk0 : 0 ≤ k) (hk : k ≤ (p : ℤ) / 2) (hsize : k < 2 ^ 64) :
    shiftL x k p = .ok (x * 2 ^ k.toNat % 2 ^ p.size % p) := by
  have hp0 : (0 : ℤ) < p := by omega
  have h1 : 0 ≤ x * 2 ^ k.toNat := by positivity
  rw [← Int.tdiv_eq_ediv_of_nonneg hp0.le] at hk
  rw [shiftL_of_le hk, toUsize_eq_some hk0 hsize]
  dsimp only
  rw [land_mask h1 hp, modulus_eq_emod hp0]

/-- The value of a shift to the right by at most half the field. -/
theorem shiftR_eq (hx : 0 ≤ x) (hk0 : 0 ≤ k) (hk : k ≤ (p : ℤ) / 2) (hsize : k < 2 ^ 64) :
    shiftR x k p = .ok (x / 2 ^ k.toNat) := by
  have hp0 : (0 : ℤ) ≤ p := by omega
  rw [← Int.tdiv_eq_ediv_of_nonneg hp0] at hk
  rw [shiftR_of_le hk, toUsize_eq_some hk0 hsize]
  dsimp only
  rw [Int.tdiv_eq_ediv_of_nonneg hx]

/-! ## Both halves of the field -/

/-- A shift to the left that does not call `shift_r`. -/
def maskedShift (left right field : ℤ) : Except ArithmeticError ℤ :=
  match toUsize right with
  | none => .error .divisionByZero
  | some n => .ok (modulus (Int.land (left * 2 ^ n) (mask field)) field)

/-- A shift to the right that does not call `shift_l`. -/
def truncatedShift (left right : ℤ) : Except ArithmeticError ℤ :=
  match toUsize right with
  | none => .error .divisionByZero
  | some n => .ok (left.tdiv (2 ^ n))

/-- One call of the opposite shift is enough: that call takes its own direct branch. -/
theorem shiftL_eq_ite (x k field : ℤ) :
    shiftL x k field =
      if k ≤ field.tdiv 2 then maskedShift x k field else truncatedShift x (field - k) := by
  split_ifs with h
  · exact shiftL_of_le h
  · rw [shiftL_of_gt h]
    exact shiftR_of_le (sub_le_half h)

theorem shiftR_eq_ite (x k field : ℤ) :
    shiftR x k field =
      if k ≤ field.tdiv 2 then truncatedShift x k else maskedShift x (field - k) field := by
  split_ifs with h
  · exact shiftR_of_le h
  · rw [shiftR_of_gt h]
    exact shiftL_of_le (sub_le_half h)

/-- What the language reference says about the shifts of `x` by `k`. -/
structure DocumentedShifts (p : ℕ) (x k : ℤ) : Prop where
  /-- `p.size` is the number of significant bits of the field. -/
  lower : k ≤ (p : ℤ) / 2 → k < 2 ^ 64 →
    shiftR x k p = .ok (x / 2 ^ k.toNat) ∧
    shiftL x k p = .ok (x * 2 ^ k.toNat % 2 ^ p.size % p)
  /-- In the upper half of the field, a shift is the opposite one by the negated amount. -/
  upper : (p : ℤ) / 2 < k →
    shiftR x k p = shiftL x (p - k) p ∧ shiftL x k p = shiftR x (p - k) p
  /-- Neither call of the opposite shift calls back. -/
  oneHop : shiftL x k p =
      (if k ≤ (p : ℤ) / 2 then maskedShift x k p else truncatedShift x (p - k)) ∧
    shiftR x k p =
      (if k ≤ (p : ℤ) / 2 then truncatedShift x k else maskedShift x (p - k) p)
  /-- The results are canonical. -/
  inField : ∀ v, shiftL x k p = .ok v ∨ shiftR x k p = .ok v → InField p v

/-- The shifts of canonical elements are those of the language reference. -/
theorem shifts_documented {p : ℕ} (hp : p.Prime) {x k : ℤ} (hx : InField p x) (hk : InField p k) :
    DocumentedShifts p x k := by
  have : Fact p.Prime := ⟨hp⟩
  have htop : (p : ℤ).tdiv 2 = p / 2 := Int.tdiv_eq_ediv_of_nonneg field_pos.le
  constructor
  case lower =>
    intro hle hsize
    exact ⟨shiftR_eq hx.1 hk.1 hle hsize, shiftL_eq hp.ne_zero hx.1 hk.1 hle hsize⟩
  case upper =>
    intro hgt
    have h : ¬ k ≤ (p : ℤ).tdiv 2 := by omega
    exact ⟨shiftR_of_gt h, shiftL_of_gt h⟩
  case oneHop =>
    rw [← htop]
    exact ⟨shiftL_eq_ite x k p, shiftR_eq_ite x k p⟩
  case inField =>
    rintro v (h | h)
    · exact shiftL_inField hx h
    · exact shiftR_inField hx h

theorem shifts_documented_eleven : DocumentedShifts 11 9 6 :=
  shifts_documented (by decide) (by decide) (by decide)

/-!
## Batch inversion

`multi_inv` inverts a list of field elements with a single inversion: it multiplies them up, inverts
the product and walks back, peeling off one factor at a time.
-/

section

variable [hp : Fact p.Prime] {values : List ℤ}

/-- The product of the first `i` values in the field. -/
def prefixProd (p : ℕ) (values : List ℤ) (i : ℕ) : ZMod p :=
  ((values.take i).map fun v : ℤ => (v : ZMod p)).prod

theorem prefixProd_succ {i : ℕ} (h : i < values.length) :
    prefixProd p values (i + 1) = prefixProd p values i * (values.getD i 0 : ℤ) := by
  rw [prefixProd, prefixProd, List.take_succ_eq_append_getElem h, List.map_append, List.prod_append,
    List.getD_eq_getElem _ _ h, List.map_singleton, List.prod_singleton]

theorem prefixProd_ne_zero (h : ∀ v ∈ values, (v : ZMod p) ≠ 0) (i : ℕ) : prefixProd p values i ≠ 0 := by
  simp only [prefixProd, Ne, List.prod_eq_zero_iff, List.mem_map, not_exists, not_and]
  exact fun v hv => h v (List.mem_of_mem_take hv)

/-! ## The forward pass -/

theorem partialProducts_concat (values : List ℤ) (v field : ℤ) :
    partialProducts (values ++ [v]) field =
      partialProducts values field ++ [mul ((partialProducts values field).getLastD 0) v field] := by
  simp [partialProducts]

@[simp] theorem length_partialProducts (values : List ℤ) (field : ℤ) :
    (partialProducts values field).length = values.length + 1 := by
  induction values using List.reverseRecOn with
  | nil => rfl
  | append_singleton l v ih => simp [partialProducts_concat, ih]

theorem getLastD_eq_getD (l : List ℤ) : l.getLastD 0 = l.getD (l.length - 1) 0 := by
  rw [List.getLastD_eq_getLast?, List.getLast?_eq_getElem?, List.getD_eq_getElem?_getD]

theorem cast_partialProducts (values : List ℤ) {i : ℕ} (h : i ≤ values.length) :
    (((partialProducts values p).getD i 0 : ℤ) : ZMod p) = prefixProd p values i := by
  induction values using List.reverseRecOn generalizing i with
  | nil =>
    obtain rfl : i = 0 := by simpa using h
    simp [partialProducts, prefixProd]
  | append_singleton l v ih =>
    rw [partialProducts_concat]
    simp only [List.length_append, List.length_singleton] at h
    rcases Nat.lt_or_ge i (l.length + 1) with hi | hi
    · rw [List.getD_append _ _ _ _ (by simpa using hi), ih (by omega)]
      simp [prefixProd, List.take_append_of_le_length (Nat.le_of_lt_succ hi)]
    · obtain rfl : i = l.length + 1 := by omega
      rw [List.getD_append_right _ _ _ _ (by simp), length_partialProducts, getLastD_eq_getD,
        length_partialProducts, prefixProd_succ (by simp)]
      simp only [Nat.sub_self, List.getD_cons_zero, cast_mul, Nat.add_sub_cancel]
      rw [ih le_rfl]
      simp [prefixProd]

/-! ## The backward pass -/

/-- The loop below position `j` inverts the first `j` values and leaves the other entries alone. -/
theorem multiInvStep_foldl (h : ∀ v ∈ values, (v : ZMod p) ≠ 0) (j : ℕ) (hj : j ≤ values.length) (acc : List ℤ × ℤ)
    (hlen : acc.1.length = values.length + 1) (hinv : (acc.2 : ZMod p) = (prefixProd p values j)⁻¹) :
    let out := ((List.range j).reverse.foldl
      (multiInvStep values (partialProducts values p) p) acc).1
    out.length = values.length + 1 ∧
      (∀ i < j, InField p (out.getD i 0) ∧
        ((out.getD i 0 : ℤ) : ZMod p) = ((values.getD i 0 : ℤ) : ZMod p)⁻¹) ∧
      ∀ i, j ≤ i → out.getD i 0 = acc.1.getD i 0 := by
  induction j generalizing acc with
  | zero => exact ⟨hlen, fun i hi => absurd hi (Nat.not_lt_zero i), fun _ _ => rfl⟩
  | succ j ih =>
    have hv : ((values.getD j 0 : ℤ) : ZMod p) ≠ 0 := by
      rw [List.getD_eq_getElem _ _ (by omega)]
      exact h _ (List.getElem_mem _)
    have hprod := prefixProd_ne_zero h j
    rw [prefixProd_succ (by omega)] at hinv
    rw [List.range_succ, List.reverse_append, List.reverse_singleton, List.singleton_append,
      List.foldl_cons]
    obtain ⟨hl, hlow, hhigh⟩ := ih (by omega)
      (multiInvStep values (partialProducts values p) p acc j) (by simp [multiInvStep, hlen]) (by
        simp only [multiInvStep, cast_mul, hinv]
        field_simp)
    refine ⟨hl, fun i hi => ?_, fun i hi => ?_⟩
    · rcases Nat.lt_or_ge i j with hij | hij
      · exact hlow i hij
      · obtain rfl : i = j := by omega
        rw [hhigh i le_rfl]
        have hset : (multiInvStep values (partialProducts values p) p acc i).1.getD i 0 =
            mul ((partialProducts values p).getD i 0) acc.2 p := by
          simp [multiInvStep, List.getD_eq_getElem?_getD, hlen, show i < values.length + 1 by omega]
        rw [hset]
        refine ⟨mul_inField _ _, ?_⟩
        rw [cast_mul, cast_partialProducts values (by omega), hinv]
        field_simp
    · rw [hhigh i (by omega)]
      simp [multiInvStep, List.getD_eq_getElem?_getD, List.getElem?_set_ne (show j ≠ i by omega)]

/-- The inverses of a list of units; the last entry of the output is not one of them. -/
theorem multiInv_eq_some (values : List ℤ) (h : ∀ v ∈ values, (v : ZMod p) ≠ 0) :
    ∃ out, multiInv values p = some out ∧ out.length = values.length + 1 ∧
      ∀ i < values.length, InField p (out.getD i 0) ∧
        ((out.getD i 0 : ℤ) : ZMod p) = ((values.getD i 0 : ℤ) : ZMod p)⁻¹ := by
  have hlast : (((partialProducts values p).getLastD 0 : ℤ) : ZMod p) =
      prefixProd p values values.length := by
    rw [getLastD_eq_getD, length_partialProducts]
    exact cast_partialProducts values le_rfl
  obtain ⟨inverse, hd⟩ := div_eq_ok (p := p) (l := 1)
    (hlast ▸ prefixProd_ne_zero h values.length)
  obtain ⟨-, hcast, -⟩ := div_ok hd
  have hinv : (inverse : ZMod p) = (prefixProd p values values.length)⁻¹ := by
    rw [hcast, hlast]
    simp
  obtain ⟨hlen, hlow, -⟩ := multiInvStep_foldl h values.length le_rfl
    (List.replicate (partialProducts values p).length 0, inverse) (by simp) hinv
  exact ⟨_, by simp only [multiInv, hd], hlen, hlow⟩

end

end Circom.Algebra.ModularArithmetic
