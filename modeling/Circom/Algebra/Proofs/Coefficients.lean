import Circom.Algebra.Constraint
import Circom.Algebra.Proofs.ModularArithmetic
import Circom.Lib.LinearForm

/-!
# Coefficient maps: value, keys and ranges

For every operation on coefficient maps: the value of the resulting linear form in `ZMod p`, its keys,
and that canonical coefficients stay canonical.
-/

set_option linter.unusedSectionVars false

namespace Circom.Algebra

open Circom.Lib (HashMap)
open ModularArithmetic (InField field_pos add_inField mul_inField)

variable {K : Type}
variable {m : HashMap K ℤ} {k s : K} {field : ℤ}

/-- The coefficients of `m` are canonical representatives. -/
def CoeffsInField [DecidableEq K] (field : ℤ) (m : HashMap K ℤ) : Prop :=
  ∀ k v, m.lookup k = some v → InField field v

/-- No coefficient of `m` is zero. -/
def NoZeroCoeff [DecidableEq K] (m : HashMap K ℤ) : Prop := ∀ k, m.lookup k ≠ some 0

variable [DecidableEq K]

theorem coeffsInField_iff_pairs : CoeffsInField field m ↔ ∀ e ∈ m.pairs, InField field e.2 :=
  ⟨fun h e he => h e.1 e.2 (AList.mem_pairs_iff_lookup.mp he),
    fun h k v hv => h (k, v) (AList.mem_pairs_iff_lookup.mpr hv)⟩

theorem noZeroCoeff_iff_pairs : NoZeroCoeff m ↔ ∀ e ∈ m.pairs, e.2 ≠ 0 := by
  constructor
  · rintro h ⟨k, v⟩ he rfl
    exact h k (AList.mem_pairs_iff_lookup.mp he)
  · exact fun h k hk => h (k, 0) (AList.mem_pairs_iff_lookup.mpr hk) rfl

instance (field : ℤ) (m : HashMap K ℤ) : Decidable (CoeffsInField field m) :=
  decidable_of_iff _ coeffsInField_iff_pairs.symm

instance (m : HashMap K ℤ) : Decidable (NoZeroCoeff m) :=
  decidable_of_iff _ noZeroCoeff_iff_pairs.symm

variable {p : ℕ} [NeZero p] {ρ : K → ZMod p}

/-! ## Symbols -/

section Symbols

theorem mem_initializeSymbol : k ∈ initializeSymbolInCoefficients s m ↔ k = s ∨ k ∈ m := by
  unfold initializeSymbolInCoefficients
  split_ifs with h
  · exact ⟨Or.inr, fun hk => hk.elim (fun e => e ▸ h) id⟩
  · rw [AList.mem_insert]

theorem getD_initializeSymbol (m : HashMap K ℤ) (s k : K) :
    ((initializeSymbolInCoefficients s m).lookup k).getD 0 = (m.lookup k).getD 0 := by
  unfold initializeSymbolInCoefficients
  split_ifs with h
  · rfl
  · by_cases hk : k = s
    · subst hk; rw [AList.lookup_insert, AList.lookup_eq_none.mpr h]; rfl
    · rw [AList.lookup_insert_ne hk]

theorem eval_initializeSymbol (m : HashMap K ℤ) (s : K) :
    (initializeSymbolInCoefficients s m).eval ρ = m.eval ρ := by
  unfold initializeSymbolInCoefficients
  split_ifs with h
  · rfl
  · rw [AList.eval_insert_of_notMem ρ h]; simp

theorem mem_addSymbol {c : ℤ} : k ∈ addSymbolToCoefficients s c m field ↔ k = s ∨ k ∈ m := by
  simp only [addSymbolToCoefficients, AList.mem_insert, mem_initializeSymbol]
  tauto

theorem lookup_addSymbol_self (m : HashMap K ℤ) (s : K) (c field : ℤ) :
    (addSymbolToCoefficients s c m field).lookup s =
      some (ModularArithmetic.add ((m.lookup s).getD 0) c field) := by
  simp only [addSymbolToCoefficients, AList.lookup_insert, getD_initializeSymbol]

theorem lookup_addSymbol_ne (c field : ℤ) (h : k ≠ s) :
    (addSymbolToCoefficients s c m field).lookup k = m.lookup k := by
  simp only [addSymbolToCoefficients, AList.lookup_insert_ne h, initializeSymbolInCoefficients]
  split_ifs with hs
  · rfl
  · rw [AList.lookup_insert_ne h]

theorem eval_addSymbol (m : HashMap K ℤ) (s : K) (c : ℤ) :
    (addSymbolToCoefficients s c m p).eval ρ = m.eval ρ + c * ρ s := by
  simp only [addSymbolToCoefficients]
  rw [AList.eval_insert_sub, eval_initializeSymbol, ModularArithmetic.cast_add]
  ring

theorem coeffsInField_addSymbol (hm : CoeffsInField p m) (s : K) (c : ℤ) :
    CoeffsInField p (addSymbolToCoefficients s c m p) := by
  intro k v hv
  by_cases hk : k = s
  · subst hk
    rw [lookup_addSymbol_self] at hv
    cases hv
    exact add_inField _ _
  · rw [lookup_addSymbol_ne c p hk] at hv
    exact hm k v hv

end Symbols

/-! ## Sums and multiples -/

theorem mem_foldl_addSymbol (l : List (K × ℤ)) (m : HashMap K ℤ) :
    k ∈ l.foldl (fun acc e => addSymbolToCoefficients e.1 e.2 acc field) m ↔
      k ∈ l.map Prod.fst ∨ k ∈ m := by
  induction l generalizing m with
  | nil => simp
  | cons e l ih =>
    simp only [List.foldl_cons, ih, mem_addSymbol, List.map_cons, List.mem_cons]
    tauto

theorem lookup_foldl_addSymbol_of_notMem {l : List (K × ℤ)} (hk : k ∉ l.map Prod.fst) (m : HashMap K ℤ) (field : ℤ) :
    (l.foldl (fun acc e => addSymbolToCoefficients e.1 e.2 acc field) m).lookup k = m.lookup k := by
  induction l generalizing m with
  | nil => rfl
  | cons e l ih =>
    simp only [List.map_cons, List.mem_cons, not_or] at hk
    rw [List.foldl_cons, ih hk.2, lookup_addSymbol_ne _ _ hk.1]

theorem lookup_foldl_addSymbol_of_mem {l : List (K × ℤ)} (hl : (l.map Prod.fst).Nodup) {v : ℤ} (h : (k, v) ∈ l)
    (m : HashMap K ℤ) (field : ℤ) :
    (l.foldl (fun acc e => addSymbolToCoefficients e.1 e.2 acc field) m).lookup k =
      some (ModularArithmetic.add ((m.lookup k).getD 0) v field) := by
  induction l generalizing m with
  | nil => cases h
  | cons e l ih =>
    simp only [List.map_cons, List.nodup_cons] at hl
    rw [List.foldl_cons]
    rcases List.mem_cons.mp h with rfl | h
    · rw [lookup_foldl_addSymbol_of_notMem hl.1, lookup_addSymbol_self]
    · have hne : k ≠ e.1 := by
        rintro rfl
        exact hl.1 (List.mem_map.mpr ⟨_, h, rfl⟩)
      rw [ih hl.2 h, lookup_addSymbol_ne _ _ hne]

theorem lookup_addCoefficients (m0 m1 : HashMap K ℤ) (field : ℤ) (k : K) :
    (addCoefficientsToCoefficients m0 m1 field).lookup k =
      match m0.lookup k with
      | none => m1.lookup k
      | some v => some (ModularArithmetic.add ((m1.lookup k).getD 0) v field) := by
  have hnd : (m0.pairs.map Prod.fst).Nodup := by rw [AList.pairs_map_fst]; exact AList.keys_nodup m0
  unfold addCoefficientsToCoefficients
  cases hv : m0.lookup k with
  | none =>
    refine lookup_foldl_addSymbol_of_notMem ?_ m1 field
    rw [AList.pairs_map_fst]
    exact AList.lookup_eq_none.mp hv
  | some v => exact lookup_foldl_addSymbol_of_mem hnd (AList.mem_pairs_iff_lookup.mpr hv) m1 field

theorem mem_addCoefficients {m0 m1 : HashMap K ℤ} :
    k ∈ addCoefficientsToCoefficients m0 m1 field ↔ k ∈ m0 ∨ k ∈ m1 := by
  rw [addCoefficientsToCoefficients, mem_foldl_addSymbol, AList.pairs_map_fst, ← AList.mem_keys]

theorem eval_addCoefficients (m0 m1 : HashMap K ℤ) :
    (addCoefficientsToCoefficients m0 m1 p).eval ρ = m0.eval ρ + m1.eval ρ := by
  rw [addCoefficientsToCoefficients, AList.eval_eq_sum_pairs ρ m0]
  induction m0.pairs generalizing m1 with
  | nil => simp
  | cons e l ih =>
    rw [List.foldl_cons, ih, eval_addSymbol, List.map_cons, List.sum_cons]
    ring

theorem coeffsInField_addCoefficients {m1 : HashMap K ℤ} (h1 : CoeffsInField p m1)
    (m0 : HashMap K ℤ) : CoeffsInField p (addCoefficientsToCoefficients m0 m1 p) := by
  unfold addCoefficientsToCoefficients
  induction m0.pairs generalizing m1 with
  | nil => exact h1
  | cons e l ih => exact ih (coeffsInField_addSymbol h1 e.1 e.2)

@[simp] theorem mem_multiplyCoefficients {c : ℤ} : k ∈ multiplyCoefficientsByConstant c m field ↔ k ∈ m := by
  simp [multiplyCoefficientsByConstant]

theorem eval_multiplyCoefficients (c : ℤ) (m : HashMap K ℤ) :
    (multiplyCoefficientsByConstant c m p).eval ρ = m.eval ρ * c :=
  AList.eval_mapValues ρ _ m c fun v => ModularArithmetic.cast_mul v c

theorem coeffsInField_multiply (c : ℤ) (m : HashMap K ℤ) :
    CoeffsInField p (multiplyCoefficientsByConstant c m p) := by
  intro k v hv
  rw [multiplyCoefficientsByConstant, AList.lookup_mapValues] at hv
  obtain ⟨w, -, rfl⟩ := Option.map_eq_some_iff.mp hv
  exact mul_inField _ _

/-! ## Dropping zero coefficients -/

theorem lookup_removeZero (m : HashMap K ℤ) (k : K) (v : ℤ) :
    (removeZeroValueCoefficients m).lookup k = some v ↔ m.lookup k = some v ∧ v ≠ 0 := by
  have hn : ((m.pairs.filter fun e => e.2 ≠ 0).map Prod.fst).Nodup := by
    refine List.Nodup.sublist (List.filter_sublist.map _) ?_
    rw [AList.pairs_map_fst]
    exact AList.keys_nodup m
  rw [removeZeroValueCoefficients, AList.lookup_ofPairs hn, List.mem_filter,
    AList.mem_pairs_iff_lookup]
  simp

theorem mem_of_mem_removeZero (h : k ∈ removeZeroValueCoefficients m) : k ∈ m := by
  obtain ⟨v, hv⟩ := AList.mem_iff_exists_lookup.mp h
  exact AList.mem_iff_exists_lookup.mpr ⟨v, ((lookup_removeZero m k v).mp hv).1⟩

theorem noZeroCoeff_removeZero (m : HashMap K ℤ) : NoZeroCoeff (removeZeroValueCoefficients m) :=
  fun k h => ((lookup_removeZero m k 0).mp h).2 rfl

theorem coeffsInField_removeZero (h : CoeffsInField field m) : CoeffsInField field (removeZeroValueCoefficients m) :=
  fun k v hv => h k v ((lookup_removeZero m k v).mp hv).1

theorem eval_removeZero (m : HashMap K ℤ) : (removeZeroValueCoefficients m).eval ρ = m.eval ρ :=
  AList.eval_ofPairs_filter ρ m

theorem coeffsInField_erase (h : CoeffsInField field m) (k : K) : CoeffsInField field (m.erase k) := by
  intro k' v hv
  by_cases hk : k' = k
  · subst hk; rw [AList.lookup_erase] at hv; cases hv
  · exact h k' v (by rwa [AList.lookup_erase_ne hk] at hv)

/-! ## The constant coefficient -/

variable [Inhabited K]

theorem mem_initialized : k ∈ initializeHashmapForExpression m ↔ k = constantCoefficient ∨ k ∈ m :=
  mem_initializeSymbol

theorem initialize_of_mem (h : constantCoefficient ∈ m) :
    initializeHashmapForExpression m = m := if_pos h

theorem getD_initialized (m : HashMap K ℤ) (k : K) :
    ((initializeHashmapForExpression m).lookup k).getD 0 = (m.lookup k).getD 0 :=
  getD_initializeSymbol m constantCoefficient k

theorem eval_initialized (m : HashMap K ℤ) :
    (initializeHashmapForExpression m).eval ρ = m.eval ρ :=
  eval_initializeSymbol m constantCoefficient

theorem coeffsInField_initialized (h : CoeffsInField p m) : CoeffsInField p (initializeHashmapForExpression m) := by
  intro k v hv
  unfold initializeHashmapForExpression at hv
  split_ifs at hv with hc
  · exact h k v hv
  · by_cases hk : k = constantCoefficient
    · subst hk
      rw [AList.lookup_insert] at hv
      cases hv
      exact ⟨le_refl _, field_pos⟩
    · rw [AList.lookup_insert_ne hk] at hv
      exact h k v hv

theorem addConstant_eq_some (h : constantCoefficient ∈ m) (v field : ℤ) :
    addConstantToCoefficients v m field =
      some (addSymbolToCoefficients constantCoefficient v m field) := by
  obtain ⟨c, hc⟩ := AList.mem_iff_exists_lookup.mp h
  simp [addConstantToCoefficients, addSymbolToCoefficients, initializeSymbolInCoefficients, h, hc]

/-! ## Substitution in a raw expression -/

/-- The value of a raw expression changes by the coefficient of the replaced signal times the
difference between the replacement and the signal. -/
theorem eval_rawSubstitution (m : HashMap K ℤ) (s : Substitution K) :
    (rawSubstitution m s p).eval ρ =
      m.eval ρ + ((m.lookup s.fromSignal).getD 0 : ℤ) * (s.toExpr.eval ρ - ρ s.fromSignal) := by
  rw [← getD_initialized m]
  simp only [rawSubstitution]
  cases h : (initializeHashmapForExpression m).lookup s.fromSignal with
  | none => rw [eval_initialized]; simp
  | some v =>
    rw [eval_addCoefficients, eval_multiplyCoefficients, eval_initialized, AList.eval_erase, h,
      eval_initialized]
    simp only [Option.getD_some]
    ring

/-- An assignment that satisfies the substitution does not see it. -/
theorem eval_rawSubstitution_of_eq (m : HashMap K ℤ) {s : Substitution K}
    (h : ρ s.fromSignal = s.toExpr.eval ρ) : (rawSubstitution m s p).eval ρ = m.eval ρ := by
  rw [eval_rawSubstitution, h, sub_self, mul_zero, add_zero]

theorem mem_rawSubstitution {s : Substitution K} (h : k ∈ rawSubstitution m s field) :
    k = constantCoefficient ∨ (k ∈ m ∧ k ≠ s.fromSignal) ∨
      (k ∈ s.toExpr ∧ (s.fromSignal = constantCoefficient ∨ s.fromSignal ∈ m)) := by
  simp only [rawSubstitution] at h
  cases hl : (initializeHashmapForExpression m).lookup s.fromSignal with
  | none =>
    rw [hl] at h
    simp only at h
    have hne : k ≠ s.fromSignal := fun e => AList.lookup_eq_none.mp hl (e ▸ h)
    rcases mem_initialized.mp h with h | h
    · exact Or.inl h
    · exact Or.inr (Or.inl ⟨h, hne⟩)
  | some v =>
    rw [hl] at h
    have hfrom : s.fromSignal ∈ initializeHashmapForExpression m :=
      AList.mem_iff_exists_lookup.mpr ⟨v, hl⟩
    rcases mem_addCoefficients.mp h with h | h
    · rcases mem_initialized.mp (mem_multiplyCoefficients.mp h) with h | h
      · exact Or.inl h
      · exact Or.inr (Or.inr ⟨h, mem_initialized.mp hfrom⟩)
    · obtain ⟨hne, hm⟩ := AList.mem_erase.mp h
      rcases mem_initialized.mp hm with h | h
      · exact Or.inl h
      · exact Or.inr (Or.inl ⟨h, hne⟩)

/-- What is left after a list of substitutions: the constant key, what no substitution replaced, and
what a substitution brought in. -/
theorem mem_foldl_rawSubstitution {l : List (Substitution K)} {y : K}
    (h : y ∈ l.foldl (fun m t => rawSubstitution m t field) m) :
    y = constantCoefficient ∨ (y ∈ m ∧ ∀ t ∈ l, y ≠ t.fromSignal) ∨ ∃ t ∈ l, y ∈ t.toExpr := by
  induction l generalizing m with
  | nil => exact Or.inr (Or.inl ⟨h, fun t ht => by cases ht⟩)
  | cons t l ih =>
    rcases ih h with h | ⟨h1, h2⟩ | ⟨u, hu, hyu⟩
    · exact Or.inl h
    · rcases mem_rawSubstitution h1 with h1 | ⟨h1, h3⟩ | ⟨h1, -⟩
      · exact Or.inl h1
      · exact Or.inr (Or.inl ⟨h1, List.forall_mem_cons.mpr ⟨h3, h2⟩⟩)
      · exact Or.inr (Or.inr ⟨t, List.mem_cons_self, h1⟩)
    · exact Or.inr (Or.inr ⟨u, List.mem_cons_of_mem t hu, hyu⟩)

theorem coeffsInField_rawSubstitution (hm : CoeffsInField p m)
    (s : Substitution K) : CoeffsInField p (rawSubstitution m s p) := by
  simp only [rawSubstitution]
  split
  · exact coeffsInField_initialized hm
  · exact coeffsInField_addCoefficients (coeffsInField_erase (coeffsInField_initialized hm) _) _

end Circom.Algebra
