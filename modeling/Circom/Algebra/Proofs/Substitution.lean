import Circom.Algebra.Proofs.Pivot
import Circom.Lib.PartialFold

/-!
# Substitution is evaluation

Replacing a signal by a linear form and evaluating is evaluating under the assignment that gives the
signal the value of the form. A map of substitutions whose right-hand sides are free of its keys acts
like all of them at once, in whatever order its keys are visited.
-/

set_option linter.unusedSectionVars false

namespace Circom.Algebra

open Circom.Lib (HashMap HashOrder)

variable {K : Type} [DecidableEq K] [Inhabited K]
variable {x : K} {f : K → Option ℤ} {l : List (Substitution K)} {field : ℤ}

/-! ## Coefficients after a substitution -/

/-- The coefficients after `x` has been replaced by a form with the coefficients `e`. -/
def replaceIn (field : ℤ) (f : K → Option ℤ) (x : K) (e : K → Option ℤ) : K → Option ℤ :=
  match f x with
  | none => f
  | some v => fun y =>
    let rest := if y = x then none else f y
    match e y with
    | none => rest
    | some c => some (ModularArithmetic.add (rest.getD 0) (ModularArithmetic.mul c v field) field)

theorem replaceIn_of_none (h : f x = none) (e : K → Option ℤ) : replaceIn field f x e = f := by
  unfold replaceIn
  rw [h]

theorem replaceIn_of_some {v : ℤ} (h : f x = some v) (e : K → Option ℤ) (y : K) :
    replaceIn field f x e y =
      match e y with
      | none => if y = x then none else f y
      | some c => some (ModularArithmetic.add ((if y = x then none else f y).getD 0)
        (ModularArithmetic.mul c v field) field) := by
  unfold replaceIn
  rw [h]

/-- The coefficients of a form with its constant key. -/
def coefficientsOf (m : HashMap K ℤ) (y : K) : Option ℤ :=
  (initializeHashmapForExpression m).lookup y

theorem lookup_rawSubstitution (m : HashMap K ℤ) (s : Substitution K) (field : ℤ) (y : K) :
    (rawSubstitution m s field).lookup y =
      replaceIn field (coefficientsOf m) s.fromSignal (coefficientsOf s.toExpr) y := by
  simp only [rawSubstitution]
  cases h : (initializeHashmapForExpression m).lookup s.fromSignal with
  | none =>
    rw [replaceIn_of_none (f := coefficientsOf m) h]
    rfl
  | some v =>
    change (addCoefficientsToCoefficients _ _ field).lookup y = _
    have hrest : ((initializeHashmapForExpression m).erase s.fromSignal).lookup y =
        if y = s.fromSignal then none else (initializeHashmapForExpression m).lookup y := by
      split_ifs with hy
      · subst hy
        exact AList.lookup_erase _ _
      · exact AList.lookup_erase_ne hy
    rw [replaceIn_of_some (f := coefficientsOf m) h, lookup_addCoefficients, hrest,
      multiplyCoefficientsByConstant, AList.lookup_mapValues, coefficientsOf]
    cases (initializeHashmapForExpression s.toExpr).lookup y <;> rfl

/-- A substitution leaves the constant key behind. -/
theorem constant_mem_rawSubstitution (m : HashMap K ℤ) (s : Substitution K) (field : ℤ) :
    constantCoefficient ∈ rawSubstitution m s field := by
  have h0 : ∀ m : HashMap K ℤ, constantCoefficient ∈ initializeHashmapForExpression m :=
    fun m => mem_initialized.mpr (Or.inl rfl)
  simp only [rawSubstitution]
  split
  · exact h0 m
  · exact mem_addCoefficients.mpr (Or.inl (mem_multiplyCoefficients.mpr (h0 _)))

section Single

variable {p : ℕ} [NeZero p]

theorem eval_rawSubstitution_update (ρ : K → ZMod p) (m : HashMap K ℤ) (s : Substitution K) :
    (rawSubstitution m s p).eval ρ =
      m.eval (Function.update ρ s.fromSignal (s.toExpr.eval ρ)) := by
  rw [eval_rawSubstitution, AList.eval_update]

/-- The replaced signal is gone; of the constant key at most a zero coefficient is left. -/
theorem lookup_rawSubstitution_from {m : HashMap K ℤ} {s : Substitution K}
    (h : s.fromSignal ∉ s.toExpr) {v : ℤ}
    (hv : (rawSubstitution m s p).lookup s.fromSignal = some v) :
    s.fromSignal = constantCoefficient ∧ v = 0 := by
  rw [lookup_rawSubstitution] at hv
  cases hm : coefficientsOf m s.fromSignal with
  | none =>
    rw [replaceIn_of_none hm, hm] at hv
    cases hv
  | some w =>
    rw [replaceIn_of_some hm, if_pos rfl] at hv
    cases he : coefficientsOf s.toExpr s.fromSignal with
    | none =>
      rw [he] at hv
      cases hv
    | some c =>
      have hmem := AList.mem_iff_exists_lookup.mpr ⟨c, he⟩
      have hc : c = 0 := by
        have hgetD := getD_initialized s.toExpr s.fromSignal
        rw [← coefficientsOf, he, AList.lookup_eq_none.mpr h] at hgetD
        exact hgetD
      rw [he, hc] at hv
      have hzero : ModularArithmetic.modulus 0 p = 0 :=
        ModularArithmetic.modulus_of_inField ⟨le_refl _, ModularArithmetic.field_pos⟩
      refine ⟨(mem_initialized.mp hmem).resolve_right h, ?_⟩
      simp [ModularArithmetic.add, ModularArithmetic.mul, hzero] at hv
      exact hv.symm

end Single

/-! ## Substitutions of different signals commute -/

section Commute

variable {p : ℕ} [NeZero p]

theorem add_right_comm (a b c : ℤ) :
    ModularArithmetic.add (ModularArithmetic.add a b p) c p =
      ModularArithmetic.add (ModularArithmetic.add a c p) b p := by
  refine ModularArithmetic.eq_of_cast_eq (ModularArithmetic.add_inField _ _)
    (ModularArithmetic.add_inField _ _) ?_
  simp only [ModularArithmetic.cast_add]
  ring

theorem replaceIn_ne {e : K → Option ℤ} {y : K} (hne : y ≠ x) (he : e y = none) : replaceIn field f x e y = f y := by
  cases h : f x with
  | none => rw [replaceIn_of_none h]
  | some v => rw [replaceIn_of_some h, he, if_neg hne]

theorem replaceIn_comm (f : K → Option ℤ) {x₁ x₂ : K} (hne : x₁ ≠ x₂) {e₁ e₂ : K → Option ℤ}
    (h₁₁ : e₁ x₁ = none) (h₁₂ : e₁ x₂ = none) (h₂₁ : e₂ x₁ = none) (h₂₂ : e₂ x₂ = none) :
    replaceIn p (replaceIn p f x₁ e₁) x₂ e₂ = replaceIn p (replaceIn p f x₂ e₂) x₁ e₁ := by
  have hx₂ : replaceIn p f x₁ e₁ x₂ = f x₂ := replaceIn_ne hne.symm h₁₂
  have hx₁ : replaceIn p f x₂ e₂ x₁ = f x₁ := replaceIn_ne hne h₂₁
  cases hf₁ : f x₁ with
  | none => rw [replaceIn_of_none hf₁, replaceIn_of_none (hx₁.trans hf₁)]
  | some v₁ =>
    cases hf₂ : f x₂ with
    | none => rw [replaceIn_of_none hf₂, replaceIn_of_none (hx₂.trans hf₂)]
    | some v₂ =>
      funext y
      rw [replaceIn_of_some (hx₂.trans hf₂), replaceIn_of_some (hx₁.trans hf₁),
        replaceIn_of_some hf₁, replaceIn_of_some hf₂]
      by_cases hy₁ : y = x₁
      · subst hy₁
        simp [h₁₁, h₂₁, hne]
      · by_cases hy₂ : y = x₂
        · subst hy₂
          simp [h₁₂, h₂₂, hy₁]
        · simp only [if_neg hy₁, if_neg hy₂]
          cases e₁ y with
          | none => rfl
          | some c₁ =>
            cases e₂ y with
            | none => rfl
            | some c₂ =>
              simp only [Option.getD_some]
              rw [add_right_comm]

end Commute

/-! ## A list of substitutions -/

/-- Distinct signals other than the constant key, none of which occurs on a right-hand side. -/
structure Separated (l : List (Substitution K)) : Prop where
  nodup : (l.map fun t => t.fromSignal).Nodup
  ne_constant : ∀ t ∈ l, t.fromSignal ≠ constantCoefficient
  free : ∀ t ∈ l, ∀ u ∈ l, t.fromSignal ∉ u.toExpr

theorem Separated.tail {t : Substitution K} (h : Separated (t :: l)) : Separated l :=
  ⟨(List.nodup_cons.mp h.nodup).2, fun u hu => h.ne_constant u (List.mem_cons_of_mem t hu),
    fun u hu w hw => h.free u (List.mem_cons_of_mem t hu) w (List.mem_cons_of_mem t hw)⟩

theorem Separated.coefficientsOf_eq_none (h : Separated l)
    {t u : Substitution K} (ht : t ∈ l) (hu : u ∈ l) : coefficientsOf u.toExpr t.fromSignal = none := by
  rw [coefficientsOf, AList.lookup_eq_none, mem_initialized]
  exact not_or.mpr ⟨h.ne_constant t ht, h.free t ht u hu⟩

/-- The assignment after all substitutions of the list at once. -/
def overwrite {p : ℕ} (l : List (Substitution K)) (ρ : K → ZMod p) (k : K) : ZMod p :=
  match l.find? fun t => t.fromSignal = k with
  | none => ρ k
  | some t => t.toExpr.eval ρ

section Lists

variable {p : ℕ}

theorem overwrite_of_notMem {k : K} (h : ∀ t ∈ l, t.fromSignal ≠ k) (ρ : K → ZMod p) : overwrite l ρ k = ρ k := by
  have hnone : (l.find? fun t => t.fromSignal = k) = none := by
    rw [List.find?_eq_none]
    simpa using h
  simp only [overwrite, hnone]

theorem overwrite_cons (t : Substitution K) (l : List (Substitution K)) (ρ : K → ZMod p) :
    overwrite (t :: l) ρ =
      Function.update (overwrite l ρ) t.fromSignal (t.toExpr.eval ρ) := by
  funext k
  by_cases hk : t.fromSignal = k
  · subst hk
    simp [overwrite]
  · rw [Function.update_of_ne (Ne.symm hk)]
    simp [overwrite, hk]

variable [NeZero p]

/-- One substitution after the other evaluates like all of them at once. -/
theorem eval_foldl_rawSubstitution (h : Separated l) (ρ : K → ZMod p) (m : HashMap K ℤ) :
    (l.foldl (fun m t => rawSubstitution m t p) m).eval ρ = m.eval (overwrite l ρ) := by
  induction l generalizing m with
  | nil => rfl
  | cons t l ih =>
    have hto : t.toExpr.eval (overwrite l ρ) = t.toExpr.eval ρ := by
      refine AList.eval_congr fun k hk => overwrite_of_notMem (fun u hu hku => ?_) ρ
      subst hku
      exact h.free u (List.mem_cons_of_mem t hu) t List.mem_cons_self hk
    rw [List.foldl_cons, ih h.tail, eval_rawSubstitution_update, hto, overwrite_cons]

omit [NeZero p] in
theorem coefficientsOf_rawSubstitution (m : HashMap K ℤ) (s : Substitution K) (field : ℤ) :
    coefficientsOf (rawSubstitution m s field) =
      replaceIn field (coefficientsOf m) s.fromSignal (coefficientsOf s.toExpr) := by
  funext y
  rw [coefficientsOf, initialize_of_mem (constant_mem_rawSubstitution m s field)]
  exact lookup_rawSubstitution m s field y

omit [NeZero p] in
theorem coefficientsOf_foldl (l : List (Substitution K)) (m : HashMap K ℤ) (field : ℤ) :
    coefficientsOf (l.foldl (fun m t => rawSubstitution m t field) m) =
      l.foldl (fun f t => replaceIn field f t.fromSignal (coefficientsOf t.toExpr))
        (coefficientsOf m) := by
  induction l generalizing m with
  | nil => rfl
  | cons t l ih => rw [List.foldl_cons, List.foldl_cons, ih, coefficientsOf_rawSubstitution]

omit [NeZero p] in
/-- After at least one substitution the constant key is written. -/
theorem lookup_foldl_of_ne_nil (h : l ≠ []) (m : HashMap K ℤ) (field : ℤ) (y : K) :
    (l.foldl (fun m t => rawSubstitution m t field) m).lookup y =
      coefficientsOf (l.foldl (fun m t => rawSubstitution m t field) m) y := by
  obtain ⟨l', t, rfl⟩ := List.eq_nil_or_concat l |>.resolve_left h
  rw [List.concat_eq_append, List.foldl_append, List.foldl_cons, List.foldl_nil, coefficientsOf,
    initialize_of_mem (constant_mem_rawSubstitution _ t field)]

/-- The order of the substitutions does not matter. -/
theorem lookup_foldl_of_perm {l' : List (Substitution K)} (h : Separated l) (hp : l.Perm l') (m : HashMap K ℤ) (y : K) :
    (l.foldl (fun m t => rawSubstitution m t p) m).lookup y =
      (l'.foldl (fun m t => rawSubstitution m t p) m).lookup y := by
  by_cases hl : l = []
  · subst hl
    rw [List.nil_perm.mp hp]
  · have hl' : l' ≠ [] := fun h' => hl (List.perm_nil.mp (h' ▸ hp))
    rw [lookup_foldl_of_ne_nil hl, lookup_foldl_of_ne_nil hl', coefficientsOf_foldl,
      coefficientsOf_foldl]
    refine congrFun (hp.foldl_eq' (fun t ht u hu f => ?_) _) y
    by_cases htu : t.fromSignal = u.fromSignal
    · rw [List.inj_on_of_nodup_map h.nodup ht hu htu]
    · exact replaceIn_comm f htu (h.coefficientsOf_eq_none ht ht) (h.coefficientsOf_eq_none hu ht)
        (h.coefficientsOf_eq_none ht hu) (h.coefficientsOf_eq_none hu hu)

end Lists

end Circom.Algebra
