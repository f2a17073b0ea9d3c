import Circom.Algebra.Proofs.Coefficients

/-!
# Constraints: satisfaction and signals

An assignment gives every signal a field element and the constant key the value `1`. For every
operation on constraints: which assignments satisfy the result, and which signals it mentions.
-/

set_option linter.unusedSectionVars false

namespace Circom.Algebra

open Circom.Lib (HashMap)
open ModularArithmetic (InField)

variable {K : Type} [DecidableEq K] [Inhabited K] {p : ℕ} {ρ : K → ZMod p}

/-- An assignment satisfies the constraint `a * b - c = 0`. -/
def Constraint.Sat (ρ : K → ZMod p) (c : Constraint K) : Prop :=
  c.a.eval ρ * c.b.eval ρ = c.c.eval ρ

instance (ρ : K → ZMod p) (c : Constraint K) : Decidable (c.Sat ρ) :=
  inferInstanceAs (Decidable (c.a.eval ρ * c.b.eval ρ = c.c.eval ρ))

/-- A signal, or the constant key, is a key of one of the three maps. -/
def Constraint.Mentions (c : Constraint K) (k : K) : Prop := k ∈ c.a ∨ k ∈ c.b ∨ k ∈ c.c

instance (c : Constraint K) (k : K) : Decidable (c.Mentions k) :=
  inferInstanceAs (Decidable (k ∈ c.a ∨ k ∈ c.b ∨ k ∈ c.c))

/-- All coefficients are canonical representatives. -/
def Constraint.CoeffsInField (field : ℤ) (c : Constraint K) : Prop :=
  Algebra.CoeffsInField field c.a ∧ Algebra.CoeffsInField field c.b ∧
    Algebra.CoeffsInField field c.c

/-- No coefficient is zero. -/
def Constraint.NoZeroCoeff (c : Constraint K) : Prop :=
  Algebra.NoZeroCoeff c.a ∧ Algebra.NoZeroCoeff c.b ∧ Algebra.NoZeroCoeff c.c

/-- The two constraints are equal as three finite maps, whatever the order of their entries. -/
def Constraint.SameMaps (c d : Constraint K) : Prop :=
  (∀ k, c.a.lookup k = d.a.lookup k) ∧ (∀ k, c.b.lookup k = d.b.lookup k) ∧
    ∀ k, c.c.lookup k = d.c.lookup k

instance (field : ℤ) (c : Constraint K) : Decidable (c.CoeffsInField field) := by
  unfold Constraint.CoeffsInField
  infer_instance

instance (c : Constraint K) : Decidable c.NoZeroCoeff := by
  unfold Constraint.NoZeroCoeff
  infer_instance

/-- An assignment satisfies the substitution read as the equation `from = to`. -/
def Substitution.Holds (ρ : K → ZMod p) (s : Substitution K) : Prop :=
  ρ s.fromSignal = s.toExpr.eval ρ

namespace Constraint

/-! ## Shape -/

theorem isLinear_iff {c : Constraint K} : c.isLinear ↔ c.a = ∅ ∧ c.b = ∅ := by
  simp [isLinear, AList.len_eq_zero]

theorem isEmpty_iff {c : Constraint K} : c.isEmpty ↔ c.a = ∅ ∧ c.b = ∅ ∧ c.c = ∅ := by
  simp [isEmpty, AList.len_eq_zero, and_assoc]

theorem sat_of_isEmpty {c : Constraint K} (h : c.isEmpty) : c.Sat ρ := by
  obtain ⟨ha, hb, hc⟩ := isEmpty_iff.mp h
  simp [Sat, ha, hb, hc]

theorem sat_iff_of_isLinear {c : Constraint K} (h : c.isLinear) : c.Sat ρ ↔ c.c.eval ρ = 0 := by
  obtain ⟨ha, hb⟩ := isLinear_iff.mp h
  simp [Sat, ha, hb, eq_comm]

theorem mentions_iff_of_isLinear {c : Constraint K} (h : c.isLinear) {k : K} :
    c.Mentions k ↔ k ∈ c.c := by
  obtain ⟨ha, hb⟩ := isLinear_iff.mp h
  simp [Mentions, ha, hb]

theorem mem_takeClonedSignals {c : Constraint K} {k : K} :
    k ∈ c.takeClonedSignals ↔ k ≠ constantCoefficient ∧ c.Mentions k := by
  simp only [takeClonedSignals, Finset.mem_erase, List.mem_toFinset, List.mem_append, Mentions,
    AList.mem_keys]
  tauto

theorem mem_takeClonedSignalsOrdered {c : Constraint ℕ} {k : ℕ} :
    k ∈ c.takeClonedSignalsOrdered ↔ k ≠ 0 ∧ c.Mentions k := by
  rw [takeClonedSignalsOrdered, Finset.mem_ascending]
  exact mem_takeClonedSignals

theorem sat_congr {c : Constraint K} {ρ ρ' : K → ZMod p} (h : ∀ k, c.Mentions k → ρ k = ρ' k) :
    c.Sat ρ ↔ c.Sat ρ' := by
  unfold Sat
  rw [AList.eval_congr fun k hk => h k (Or.inl hk),
    AList.eval_congr fun k hk => h k (Or.inr (Or.inl hk)),
    AList.eval_congr fun k hk => h k (Or.inr (Or.inr hk))]

/-! ## Applying a substitution -/

variable [NeZero p]

theorem sat_applySubstitution (c : Constraint K) {s : Substitution K} (h : s.Holds ρ) :
    (c.applySubstitution s p).Sat ρ ↔ c.Sat ρ := by
  simp only [Sat, applySubstitution, eval_rawSubstitution_of_eq _ h]

theorem mentions_applySubstitution {c : Constraint K} {s : Substitution K} {field : ℤ} {k : K}
    (h : (c.applySubstitution s field).Mentions k) :
    k = constantCoefficient ∨ (c.Mentions k ∧ k ≠ s.fromSignal) ∨
      (k ∈ s.toExpr ∧ (s.fromSignal = constantCoefficient ∨ c.Mentions s.fromSignal)) := by
  rcases h with h | h | h <;> rcases mem_rawSubstitution h with h | ⟨h1, h2⟩ | ⟨h1, h2 | h2⟩
  all_goals first
    | exact Or.inl h
    | exact Or.inr (Or.inr ⟨h1, Or.inl h2⟩)
    | skip
  · exact Or.inr (Or.inl ⟨Or.inl h1, h2⟩)
  · exact Or.inr (Or.inr ⟨h1, Or.inr (Or.inl h2)⟩)
  · exact Or.inr (Or.inl ⟨Or.inr (Or.inl h1), h2⟩)
  · exact Or.inr (Or.inr ⟨h1, Or.inr (Or.inr (Or.inl h2))⟩)
  · exact Or.inr (Or.inl ⟨Or.inr (Or.inr h1), h2⟩)
  · exact Or.inr (Or.inr ⟨h1, Or.inr (Or.inr (Or.inr h2))⟩)

theorem coeffsInField_applySubstitution {c : Constraint K} (h : c.CoeffsInField p)
    (s : Substitution K) : (c.applySubstitution s p).CoeffsInField p :=
  ⟨coeffsInField_rawSubstitution h.1 s, coeffsInField_rawSubstitution h.2.1 s,
    coeffsInField_rawSubstitution h.2.2 s⟩

/-! ## Normalization -/

theorem sat_removeZero (c : Constraint K) : c.removeZeroValueCoefficients.Sat ρ ↔ c.Sat ρ := by
  simp only [Sat, removeZeroValueCoefficients, eval_removeZero]

theorem mentions_removeZero {c : Constraint K} {k : K}
    (h : c.removeZeroValueCoefficients.Mentions k) : c.Mentions k :=
  h.imp mem_of_mem_removeZero (Or.imp mem_of_mem_removeZero mem_of_mem_removeZero)

theorem coeffsInField_removeZero {c : Constraint K} {field : ℤ} (h : c.CoeffsInField field) :
    c.removeZeroValueCoefficients.CoeffsInField field :=
  ⟨Algebra.coeffsInField_removeZero h.1, Algebra.coeffsInField_removeZero h.2.1,
    Algebra.coeffsInField_removeZero h.2.2⟩

theorem eval_of_isConstantExpression {m : HashMap K ℤ} (h : isConstantExpression m)
    (h1 : ρ constantCoefficient = 1) :
    m.eval ρ = ((m.lookup constantCoefficient).getD 0 : ℤ) := by
  simp only [isConstantExpression, Bool.and_eq_true, decide_eq_true_eq] at h
  obtain ⟨hm, hl⟩ := h
  obtain ⟨v, hv⟩ := AList.mem_iff_exists_lookup.mp hm
  have he : m.erase constantCoefficient = ∅ := by
    rw [← AList.len_eq_zero, AList.len_eq_length_keys, AList.keys_erase]
    rw [List.length_erase_of_mem hm, ← AList.len_eq_length_keys, hl]
  rw [AList.eval_of_lookup ρ hv, he, hv, h1]
  simp

/-- The constant factor is moved into the linear part. -/
theorem eval_constantLinearLinearReduction {a : HashMap K ℤ} (ha : isConstantExpression a)
    (h1 : ρ constantCoefficient = 1) (b c : HashMap K ℤ) :
    (constantLinearLinearReduction a b c p).eval ρ = c.eval ρ - a.eval ρ * b.eval ρ := by
  simp only [constantLinearLinearReduction]
  rw [eval_removeZero, eval_addCoefficients, eval_multiplyCoefficients, eval_multiplyCoefficients,
    eval_initialized, eval_initialized, eval_of_isConstantExpression ha h1]
  push_cast
  ring

/-- The branches of `fix_raw_constraint`, taken by the constraint without its zero coefficients. -/
theorem fixConstraint_cases (c : Constraint K) (field : ℤ) :
    ((c.removeZeroValueCoefficients.a = ∅ ∨ c.removeZeroValueCoefficients.b = ∅) ∧
      c.fixConstraint field = ⟨∅, ∅, c.removeZeroValueCoefficients.c⟩) ∨
    (isConstantExpression c.removeZeroValueCoefficients.a ∧ c.fixConstraint field =
      ⟨∅, ∅, constantLinearLinearReduction c.removeZeroValueCoefficients.a
        c.removeZeroValueCoefficients.b c.removeZeroValueCoefficients.c field⟩) ∨
    (isConstantExpression c.removeZeroValueCoefficients.b ∧ c.fixConstraint field =
      ⟨∅, ∅, constantLinearLinearReduction c.removeZeroValueCoefficients.b
        c.removeZeroValueCoefficients.a c.removeZeroValueCoefficients.c field⟩) ∨
    (c.removeZeroValueCoefficients.a ≠ ∅ ∧ c.removeZeroValueCoefficients.b ≠ ∅ ∧
      ¬ isConstantExpression c.removeZeroValueCoefficients.a ∧
      ¬ isConstantExpression c.removeZeroValueCoefficients.b ∧
      c.fixConstraint field = c.removeZeroValueCoefficients) := by
  unfold fixConstraint
  obtain ⟨a, b, c'⟩ := c.removeZeroValueCoefficients
  simp only [Bool.or_eq_true, decide_eq_true_eq, AList.len_eq_zero]
  by_cases hempty : a = ∅ ∨ b = ∅
  · exact Or.inl ⟨hempty, if_pos hempty⟩
  rw [if_neg hempty]
  by_cases ha : isConstantExpression a
  · exact Or.inr (Or.inl ⟨ha, if_pos ha⟩)
  rw [if_neg ha]
  by_cases hb : isConstantExpression b
  · exact Or.inr (Or.inr (Or.inl ⟨hb, if_pos hb⟩))
  rw [if_neg hb]
  rw [not_or] at hempty
  exact Or.inr (Or.inr (Or.inr ⟨hempty.1, hempty.2, ha, hb, rfl⟩))

theorem sat_fixConstraint (c : Constraint K) (h1 : ρ constantCoefficient = 1) :
    (c.fixConstraint p).Sat ρ ↔ c.Sat ρ := by
  rw [← sat_removeZero c]
  rcases fixConstraint_cases c p with ⟨hempty, hfix⟩ | ⟨ha, hfix⟩ | ⟨hb, hfix⟩ | ⟨-, -, -, -, hfix⟩
  · rw [hfix]
    rcases hempty with h | h <;> simp [Sat, h]
  · simp only [hfix, Sat, eval_constantLinearLinearReduction ha h1, AList.eval_empty]
    constructor <;> intro h <;> linear_combination h
  · simp only [hfix, Sat, eval_constantLinearLinearReduction hb h1, AList.eval_empty]
    constructor <;> intro h <;> linear_combination h
  · rw [hfix]

theorem mem_constantLinearLinearReduction {a b c : HashMap K ℤ} {field : ℤ} {k : K}
    (h : k ∈ constantLinearLinearReduction a b c field) :
    k = constantCoefficient ∨ k ∈ b ∨ k ∈ c := by
  simp only [constantLinearLinearReduction] at h
  rcases mem_addCoefficients.mp (mem_of_mem_removeZero h) with h | h
  · have := mem_initialized.mp (mem_multiplyCoefficients.mp (mem_multiplyCoefficients.mp h))
    tauto
  · have := mem_initialized.mp h
    tauto

theorem mentions_linear {m : HashMap K ℤ} {k : K} :
    (⟨∅, ∅, m⟩ : Constraint K).Mentions k ↔ k ∈ m := by
  simp [Mentions]

theorem mentions_fixConstraint {c : Constraint K} {field : ℤ} {k : K}
    (h : (c.fixConstraint field).Mentions k) : k = constantCoefficient ∨ c.Mentions k := by
  have hz : c.removeZeroValueCoefficients.Mentions k → c.Mentions k := mentions_removeZero
  rcases fixConstraint_cases c field with ⟨-, hfix⟩ | ⟨-, hfix⟩ | ⟨-, hfix⟩ | ⟨-, -, -, -, hfix⟩
  all_goals rw [hfix] at h
  · exact Or.inr (hz (Or.inr (Or.inr (mentions_linear.mp h))))
  · rcases mem_constantLinearLinearReduction (mentions_linear.mp h) with h | h | h
    · exact Or.inl h
    · exact Or.inr (hz (Or.inr (Or.inl h)))
    · exact Or.inr (hz (Or.inr (Or.inr h)))
  · rcases mem_constantLinearLinearReduction (mentions_linear.mp h) with h | h | h
    · exact Or.inl h
    · exact Or.inr (hz (Or.inl h))
    · exact Or.inr (hz (Or.inr (Or.inr h)))
  · exact Or.inr (hz h)

theorem coeffsInField_empty (field : ℤ) : Algebra.CoeffsInField field (∅ : HashMap K ℤ) :=
  fun k v h => by simp at h

theorem noZeroCoeff_empty : Algebra.NoZeroCoeff (∅ : HashMap K ℤ) := fun k h => by simp at h

theorem coeffsInField_fixConstraint {c : Constraint K} (h : c.CoeffsInField p) :
    (c.fixConstraint p).CoeffsInField p := by
  have hz := coeffsInField_removeZero h
  have hred : ∀ x y : HashMap K ℤ, Algebra.CoeffsInField p
      (constantLinearLinearReduction x y c.removeZeroValueCoefficients.c p) := fun x y =>
    Algebra.coeffsInField_removeZero (coeffsInField_addCoefficients (coeffsInField_initialized hz.2.2) _)
  rcases fixConstraint_cases c p with ⟨-, hfix⟩ | ⟨-, hfix⟩ | ⟨-, hfix⟩ | ⟨-, -, -, -, hfix⟩
  all_goals rw [hfix]
  · exact ⟨coeffsInField_empty _, coeffsInField_empty _, hz.2.2⟩
  · exact ⟨coeffsInField_empty _, coeffsInField_empty _, hred _ _⟩
  · exact ⟨coeffsInField_empty _, coeffsInField_empty _, hred _ _⟩
  · exact hz

theorem noZeroCoeff_fixConstraint (c : Constraint K) (field : ℤ) :
    (c.fixConstraint field).NoZeroCoeff := by
  have hz : c.removeZeroValueCoefficients.NoZeroCoeff :=
    ⟨noZeroCoeff_removeZero c.a, noZeroCoeff_removeZero c.b, noZeroCoeff_removeZero c.c⟩
  rcases fixConstraint_cases c field with ⟨-, hfix⟩ | ⟨-, hfix⟩ | ⟨-, hfix⟩ | ⟨-, -, -, -, hfix⟩
  all_goals rw [hfix]
  · exact ⟨noZeroCoeff_empty, noZeroCoeff_empty, hz.2.2⟩
  · exact ⟨noZeroCoeff_empty, noZeroCoeff_empty, noZeroCoeff_removeZero _⟩
  · exact ⟨noZeroCoeff_empty, noZeroCoeff_empty, noZeroCoeff_removeZero _⟩
  · exact hz

end Constraint

/-!
## The normal form of constraints

What `fix_constraint` establishes: no zero coefficient, and a product only of two factors that both
contain a signal. The test `is_linear` recognises the linear constraints among these.
-/

variable {K : Type} [DecidableEq K] [Inhabited K]

/-- A map without zero coefficients is not changed by their removal. -/
theorem lookup_removeZero_of_noZeroCoeff {m : HashMap K ℤ} (h : NoZeroCoeff m) (k : K) :
    (removeZeroValueCoefficients m).lookup k = m.lookup k := by
  ext v
  rw [lookup_removeZero]
  constructor
  · exact fun hv => hv.1
  · intro hv
    refine ⟨hv, ?_⟩
    rintro rfl
    exact h k hv

/-- A map that is neither empty nor constant has a signal. -/
theorem exists_signal {m : HashMap K ℤ} (h0 : m ≠ ∅) (hc : ¬ isConstantExpression m) :
    ∃ k ∈ m, k ≠ constantCoefficient := by
  by_contra hall
  push Not at hall
  have hkeys : ∀ k ∈ m.keys, k = constantCoefficient := fun k hk => hall k (AList.mem_keys.mpr hk)
  have hnd := AList.keys_nodup m
  have hne : m.keys ≠ [] := by
    intro hnil
    apply h0
    rw [← AList.len_eq_zero, AList.len_eq_length_keys, hnil]
    rfl
  obtain ⟨k, l, hl⟩ := List.exists_cons_of_ne_nil hne
  rw [hl] at hkeys hnd
  have hk : k = constantCoefficient := hkeys k List.mem_cons_self
  have hlnil : l = [] := by
    rw [List.eq_nil_iff_forall_not_mem]
    intro x hx
    have hx' : x = k := (hkeys x (List.mem_cons_of_mem k hx)).trans hk.symm
    exact (List.nodup_cons.mp hnd).1 (hx' ▸ hx)
  apply hc
  have hmem : constantCoefficient ∈ m := by
    rw [AList.mem_keys, hl, hk]
    exact List.mem_cons_self
  have hlen : m.len = 1 := by
    rw [AList.len_eq_length_keys, hl, hlnil]
    rfl
  simp [isConstantExpression, hmem, hlen]

theorem not_isConstantExpression {m : HashMap K ℤ} (h : ∃ k ∈ m, k ≠ constantCoefficient) :
    ¬ isConstantExpression m := by
  obtain ⟨k, hk, hne⟩ := h
  intro hc
  simp only [isConstantExpression, Bool.and_eq_true, decide_eq_true_eq] at hc
  rw [AList.len_eq_length_keys] at hc
  obtain ⟨x, hx⟩ := List.length_eq_one_iff.mp hc.2
  have h1 : constantCoefficient = x := by simpa [AList.mem_keys, hx] using hc.1
  have h2 : k = x := by simpa [AList.mem_keys, hx] using hk
  exact hne (h2.trans h1.symm)

namespace Constraint

/-- The normal form: `is_linear` holds of it exactly when the constraint has no product. -/
structure Fixed (field : ℤ) (c : Constraint K) : Prop where
  noZero : c.NoZeroCoeff
  factors : (c.a = ∅ ∧ c.b = ∅) ∨
    ((∃ k ∈ c.a, k ≠ constantCoefficient) ∧ ∃ k ∈ c.b, k ≠ constantCoefficient)
  coeffs : c.CoeffsInField field

theorem factors_fixConstraint (c : Constraint K) (field : ℤ) :
    ((c.fixConstraint field).a = ∅ ∧ (c.fixConstraint field).b = ∅) ∨
      ((∃ k ∈ (c.fixConstraint field).a, k ≠ constantCoefficient) ∧
        ∃ k ∈ (c.fixConstraint field).b, k ≠ constantCoefficient) := by
  rcases fixConstraint_cases c field with ⟨-, hfix⟩ | ⟨-, hfix⟩ | ⟨-, hfix⟩ | ⟨ha, hb, hca, hcb, hfix⟩
  all_goals rw [hfix]
  · exact Or.inl ⟨rfl, rfl⟩
  · exact Or.inl ⟨rfl, rfl⟩
  · exact Or.inl ⟨rfl, rfl⟩
  · exact Or.inr ⟨exists_signal ha hca, exists_signal hb hcb⟩

/-- A constraint in normal form only has its tables rebuilt. -/
theorem fixConstraint_of_fixed {field : ℤ} {c : Constraint K} (h : c.Fixed field) :
    (c.fixConstraint field).SameMaps c := by
  obtain ⟨ha, hb, hc⟩ := h.noZero
  have hsame : c.removeZeroValueCoefficients.SameMaps c :=
    ⟨lookup_removeZero_of_noZeroCoeff ha, lookup_removeZero_of_noZeroCoeff hb,
      lookup_removeZero_of_noZeroCoeff hc⟩
  have hmem : ∀ {m : HashMap K ℤ}, Algebra.NoZeroCoeff m → (∃ k ∈ m, k ≠ constantCoefficient) →
      ∃ k ∈ Algebra.removeZeroValueCoefficients m, k ≠ constantCoefficient := by
    rintro m hm ⟨k, hk, hne⟩
    refine ⟨k, ?_, hne⟩
    rwa [← AList.lookup_isSome, lookup_removeZero_of_noZeroCoeff hm, AList.lookup_isSome]
  rcases h.factors with ⟨ha0, hb0⟩ | ⟨hsa, hsb⟩
  · have hfix : c.fixConstraint field = ⟨∅, ∅, Algebra.removeZeroValueCoefficients c.c⟩ := by
      have he : Algebra.removeZeroValueCoefficients (∅ : HashMap K ℤ) = ∅ := rfl
      simp only [fixConstraint, removeZeroValueCoefficients, ha0, he]
      rfl
    rw [hfix]
    exact ⟨fun k => by rw [ha0], fun k => by rw [hb0], hsame.2.2⟩
  · have hsa' := hmem ha hsa
    have hsb' := hmem hb hsb
    have hne : ∀ {m : HashMap K ℤ}, (∃ k ∈ m, k ≠ constantCoefficient) → ¬ m.len = 0 := by
      rintro m ⟨k, hk, -⟩ h0
      rw [AList.len_eq_zero.mp h0] at hk
      exact AList.notMem_empty k hk
    have hfix : c.fixConstraint field = c.removeZeroValueCoefficients := by
      unfold fixConstraint removeZeroValueCoefficients
      simp only [Bool.or_eq_true, decide_eq_true_eq]
      rw [if_neg (not_or.mpr ⟨hne hsa', hne hsb'⟩), if_neg (not_isConstantExpression hsa'),
        if_neg (not_isConstantExpression hsb')]
    rw [hfix]
    exact hsame

/-- The normal form of a constraint has the same solutions, and it is not changed by a second run. -/
theorem fixConstraint_normalises {p : ℕ} (hp : p.Prime) (c : Constraint K)
    (h : c.CoeffsInField p) :
    (∀ ρ : K → ZMod p, ρ constantCoefficient = 1 → ((c.fixConstraint p).Sat ρ ↔ c.Sat ρ)) ∧
      (c.fixConstraint p).Fixed p ∧
      ((c.fixConstraint p).fixConstraint p).SameMaps (c.fixConstraint p) := by
  have : NeZero p := ⟨hp.ne_zero⟩
  have hfixed : (c.fixConstraint p).Fixed p :=
    ⟨noZeroCoeff_fixConstraint c p, factors_fixConstraint c p, coeffsInField_fixConstraint h⟩
  exact ⟨fun ρ h1 => sat_fixConstraint c h1, hfixed, fixConstraint_of_fixed hfixed⟩

/-- `(3) * (2 * s) - 1 = 0` becomes linear. -/
theorem fixConstraint_normalises_constant :
    let c : Constraint ℕ := ⟨AList.ofPairs [(0, 3)], AList.ofPairs [(4, 2)], AList.ofPairs [(0, 1)]⟩
    (∀ ρ : ℕ → ZMod 7, ρ constantCoefficient = 1 → ((c.fixConstraint (7 : ℕ)).Sat ρ ↔ c.Sat ρ)) ∧
      (c.fixConstraint (7 : ℕ)).Fixed (7 : ℕ) ∧
      ((c.fixConstraint (7 : ℕ)).fixConstraint (7 : ℕ)).SameMaps (c.fixConstraint (7 : ℕ)) :=
  fixConstraint_normalises (by decide) _ (by decide +kernel)

end Constraint

end Circom.Algebra
