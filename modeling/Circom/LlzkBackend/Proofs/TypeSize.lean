import Circom.Lib.Outcomes
import Circom.LlzkBackend.TypeSize
import Mathlib.Order.Defs.LinearOrder

/-!
# Simplified sizes keep their values

A simplified expression is in a normal form in which nothing can be folded, and it has the value of the original
one under every valuation of its symbols.
-/

namespace Circom.LlzkBackend

open Circom.Lib (bind_eq_ok)

variable {σ : Type}
variable {op : SizeOperator} {fuel : ℕ}

namespace TypeSizeExpr

/-- The value of an expression. -/
def eval (ρ : σ → ℕ) : TypeSizeExpr σ → ℕ
  | const n => n
  | sym symbol => ρ symbol
  | add lhs rhs => lhs.eval ρ + rhs.eval ρ
  | mul lhs rhs => lhs.eval ρ * rhs.eval ρ

/-- The constants fit `usize`, and so does every part whose value does not depend on the symbols. -/
def FoldsInUsize : TypeSizeExpr σ → Prop
  | const n => n < 2 ^ 64
  | sym _ => True
  | add lhs rhs => lhs.FoldsInUsize ∧ rhs.FoldsInUsize ∧
      ∀ n : ℕ, (∀ ρ : σ → ℕ, lhs.eval ρ + rhs.eval ρ = n) → n < 2 ^ 64
  | mul lhs rhs => lhs.FoldsInUsize ∧ rhs.FoldsInUsize ∧
      ∀ n : ℕ, (∀ ρ : σ → ℕ, lhs.eval ρ * rhs.eval ρ = n) → n < 2 ^ 64

def depth : TypeSizeExpr σ → ℕ
  | const _ => 1
  | sym _ => 1
  | add lhs rhs => max lhs.depth rhs.depth + 1
  | mul lhs rhs => max lhs.depth rhs.depth + 1

theorem one_le_depth (e : TypeSizeExpr σ) : 1 ≤ e.depth := by
  cases e <;> exact Nat.succ_le_succ (Nat.zero_le _)

theorem one_le_two_mul_depth (e : TypeSizeExpr σ) : 1 ≤ 2 * e.depth := by
  have h := e.one_le_depth
  omega

/-- Nothing can be folded anywhere in the expression. -/
inductive Normal : TypeSizeExpr σ → Prop
  | const (n : ℕ) : Normal (const n)
  | sym (symbol : σ) : Normal (sym symbol)
  | apply {op : SizeOperator} {lhs rhs : TypeSizeExpr σ} (hlhs : Normal lhs) (hrhs : Normal rhs)
    (h : op.fold lhs rhs = .ok none) : Normal (op.apply lhs rhs)

end TypeSizeExpr

namespace SizeOperator

def eval : SizeOperator → ℕ → ℕ → ℕ
  | add, a, b => a + b
  | mul, a, b => a * b

@[simp] theorem eval_apply (op : SizeOperator) (ρ : σ → ℕ) (lhs rhs : TypeSizeExpr σ) :
    (op.apply lhs rhs).eval ρ = op.eval (lhs.eval ρ) (rhs.eval ρ) := by
  cases op <;> rfl

@[simp] theorem depth_apply (op : SizeOperator) (lhs rhs : TypeSizeExpr σ) :
    (op.apply lhs rhs).depth = max lhs.depth rhs.depth + 1 := by
  cases op <;> rfl

theorem eq_of_checked {n m : ℕ} (h : checked n = .ok m) : m = n := by
  unfold checked at h
  split_ifs at h
  exact (Except.ok.inj h).symm

/-- What replaces two operands has their value, is one of them or a constant, and is not nested deeper. -/
theorem fold_spec {lhs rhs folded : TypeSizeExpr σ} (h : op.fold lhs rhs = .ok (some folded)) :
    (∀ ρ, folded.eval ρ = op.eval (lhs.eval ρ) (rhs.eval ρ)) ∧
      (folded = lhs ∨ folded = rhs ∨ ∃ n, folded = .const n) ∧
      folded.depth ≤ max lhs.depth rhs.depth := by
  have hconst : ∀ n, (TypeSizeExpr.const n : TypeSizeExpr σ).depth ≤ max lhs.depth rhs.depth := by
    intro n
    exact Nat.le_trans lhs.one_le_depth (Nat.le_max_left _ _)
  unfold fold at h
  split at h
  · cases h
    exact ⟨fun ρ => (Nat.zero_add _).symm, Or.inr (Or.inl rfl), Nat.le_max_right _ _⟩
  · cases h
    exact ⟨fun ρ => rfl, Or.inl rfl, Nat.le_max_left _ _⟩
  · obtain ⟨n, hn, h⟩ := bind_eq_ok h
    cases eq_of_checked hn
    cases h
    exact ⟨fun ρ => rfl, Or.inr (Or.inr ⟨_, rfl⟩), hconst _⟩
  · cases h
    exact ⟨fun ρ => (Nat.zero_mul _).symm, Or.inl rfl, Nat.le_max_left _ _⟩
  · cases h
    exact ⟨fun ρ => rfl, Or.inr (Or.inl rfl), Nat.le_max_right _ _⟩
  · cases h
    exact ⟨fun ρ => (Nat.one_mul _).symm, Or.inr (Or.inl rfl), Nat.le_max_right _ _⟩
  · cases h
    exact ⟨fun ρ => (Nat.mul_one _).symm, Or.inl rfl, Nat.le_max_left _ _⟩
  · obtain ⟨n, hn, h⟩ := bind_eq_ok h
    cases eq_of_checked hn
    cases h
    exact ⟨fun ρ => rfl, Or.inr (Or.inr ⟨_, rfl⟩), hconst _⟩
  · cases h

/-- Folding returns if a constant result fits. -/
theorem exists_fold {lhs rhs : TypeSizeExpr σ}
    (h : ∀ n : ℕ, (∀ ρ : σ → ℕ, op.eval (lhs.eval ρ) (rhs.eval ρ) = n) → n < 2 ^ 64) :
    ∃ folded, op.fold lhs rhs = .ok folded := by
  have hchecked : ∀ n : ℕ, (∀ ρ : σ → ℕ, op.eval (lhs.eval ρ) (rhs.eval ρ) = n) → checked n = .ok n :=
    fun n hn => if_pos (h n hn)
  unfold fold
  split
  · exact ⟨_, rfl⟩
  · exact ⟨_, rfl⟩
  · rw [hchecked _ fun ρ => rfl]
    exact ⟨_, rfl⟩
  · exact ⟨_, rfl⟩
  · exact ⟨_, rfl⟩
  · exact ⟨_, rfl⟩
  · exact ⟨_, rfl⟩
  · rw [hchecked _ fun ρ => rfl]
    exact ⟨_, rfl⟩
  · exact ⟨_, rfl⟩

end SizeOperator

namespace TypeSizeExpr

/-- What simplification returns is in normal form, has the same value and is not nested deeper. -/
def Simplifies (e r : TypeSizeExpr σ) : Prop :=
  Normal r ∧ (∀ ρ, r.eval ρ = e.eval ρ) ∧ r.depth ≤ e.depth

theorem simplifies_apply {lhs rhs newLhs newRhs r : TypeSizeExpr σ} (hl : Simplifies lhs newLhs)
    (hr : Simplifies rhs newRhs) (h : Simplifies (op.apply newLhs newRhs) r) : Simplifies (op.apply lhs rhs) r := by
  obtain ⟨hnormal, heval, hdepth⟩ := h
  refine ⟨hnormal, fun ρ => ?_, ?_⟩
  · rw [heval, SizeOperator.eval_apply, SizeOperator.eval_apply, hl.2.1, hr.2.1]
  · rw [SizeOperator.depth_apply] at hdepth ⊢
    have hmax : max newLhs.depth newRhs.depth ≤ max lhs.depth rhs.depth := by
      have hdl := hl.2.2
      have hdr := hr.2.2
      omega
    omega

theorem simplifies_of_fold {lhs rhs folded : TypeSizeExpr σ} (hl : Normal lhs) (hr : Normal rhs)
    (h : op.fold lhs rhs = .ok (some folded)) : Simplifies (op.apply lhs rhs) folded := by
  obtain ⟨heval, hcases, hdepth⟩ := SizeOperator.fold_spec h
  refine ⟨?_, fun ρ => ?_, ?_⟩
  · rcases hcases with rfl | rfl | ⟨n, rfl⟩
    · exact hl
    · exact hr
    · exact .const n
  · rw [SizeOperator.eval_apply, heval]
  · rw [SizeOperator.depth_apply]
    exact Nat.le_succ_of_le hdepth

variable [DecidableEq σ]

theorem simplified_apply (fuel : ℕ) (op : SizeOperator) (lhs rhs : TypeSizeExpr σ) :
    simplified (fuel + 1) (op.apply lhs rhs) = simplifyOperation fuel op lhs rhs := by
  cases op <;> rfl

/-- An expression in normal form is not changed. -/
theorem Normal.simplified_eq {e : TypeSizeExpr σ} (h : Normal e) (hfuel : 2 * e.depth ≤ fuel) :
    simplified fuel e = .ok e := by
  induction h generalizing fuel with
  | const n =>
    obtain ⟨fuel, rfl⟩ := Nat.exists_eq_add_of_le' (Nat.le_trans (one_le_two_mul_depth _) hfuel)
    rfl
  | sym symbol =>
    obtain ⟨fuel, rfl⟩ := Nat.exists_eq_add_of_le' (Nat.le_trans (one_le_two_mul_depth _) hfuel)
    rfl
  | @apply op lhs rhs hlhs hrhs hfold ihl ihr =>
    rw [SizeOperator.depth_apply] at hfuel
    obtain ⟨fuel, rfl⟩ := Nat.exists_eq_add_of_le' (show 2 ≤ fuel by omega)
    have hl := Nat.le_max_left lhs.depth rhs.depth
    have hr := Nat.le_max_right lhs.depth rhs.depth
    rw [simplified_apply, simplifyOperation, ihl (by omega), ihr (by omega)]
    change (op.fold lhs rhs >>= _) = _
    rw [hfold]
    exact if_pos ⟨rfl, rfl⟩

theorem simplified_simplifies (fuel : ℕ) :
    (∀ e r : TypeSizeExpr σ, simplified fuel e = .ok r → Simplifies e r) ∧
      ∀ (op : SizeOperator) (lhs rhs r : TypeSizeExpr σ),
        simplifyOperation fuel op lhs rhs = .ok r → Simplifies (op.apply lhs rhs) r := by
  induction fuel with
  | zero => exact ⟨fun _ _ h => (by cases h), fun _ _ _ _ h => (by cases h)⟩
  | succ fuel ih =>
    obtain ⟨ihe, iho⟩ := ih
    refine ⟨fun e r h => ?_, fun op lhs rhs r h => ?_⟩
    · cases e with
      | const n =>
        cases h
        exact ⟨.const n, fun _ => rfl, Nat.le_refl _⟩
      | sym symbol =>
        cases h
        exact ⟨.sym symbol, fun _ => rfl, Nat.le_refl _⟩
      | add lhs rhs => exact iho .add lhs rhs r h
      | mul lhs rhs => exact iho .mul lhs rhs r h
    · rw [simplifyOperation] at h
      obtain ⟨newLhs, hlhs, h⟩ := bind_eq_ok h
      obtain ⟨newRhs, hrhs, h⟩ := bind_eq_ok h
      obtain ⟨folded, hfold, h⟩ := bind_eq_ok h
      have hl := ihe lhs newLhs hlhs
      have hr := ihe rhs newRhs hrhs
      refine simplifies_apply hl hr ?_
      cases folded with
      | some folded =>
        cases h
        exact simplifies_of_fold hl.1 hr.1 hfold
      | none =>
        dsimp only at h
        split_ifs at h
        · cases h
          exact ⟨.apply hl.1 hr.1 hfold, fun _ => rfl, Nat.le_refl _⟩
        · exact iho op newLhs newRhs r h

/-- On simplified operands that cannot be folded, simplification ends at once. -/
theorem simplifyOperation_of_normal {lhs rhs : TypeSizeExpr σ} (hl : Normal lhs) (hr : Normal rhs)
    (hfold : op.fold lhs rhs = .ok none) (hfuel : 2 * max lhs.depth rhs.depth + 1 ≤ fuel) :
    simplifyOperation fuel op lhs rhs = .ok (op.apply lhs rhs) := by
  have h : 2 * (op.apply lhs rhs).depth ≤ fuel + 1 := by
    rw [SizeOperator.depth_apply]
    omega
  rw [← simplified_apply]
  exact (Normal.apply hl hr hfold).simplified_eq h

/-- An operation returns if its operands do and can be folded. -/
theorem simplifyOperation_eq {lhs rhs newLhs newRhs : TypeSizeExpr σ} {folded : Option (TypeSizeExpr σ)}
    (hl : simplified fuel lhs = .ok newLhs) (hr : simplified fuel rhs = .ok newRhs)
    (hfold : op.fold newLhs newRhs = .ok folded) (hfuel : 2 * max lhs.depth rhs.depth + 1 ≤ fuel) :
    simplifyOperation (fuel + 1) op lhs rhs = .ok (folded.getD (op.apply newLhs newRhs)) := by
  obtain ⟨hnl, -, hdl⟩ := (simplified_simplifies fuel).1 lhs newLhs hl
  obtain ⟨hnr, -, hdr⟩ := (simplified_simplifies fuel).1 rhs newRhs hr
  rw [simplifyOperation, hl, hr]
  change (op.fold newLhs newRhs >>= _) = _
  rw [hfold]
  cases folded with
  | some folded => rfl
  | none =>
    change (if newLhs = lhs ∧ newRhs = rhs then _ else _) = _
    have hmax : max newLhs.depth newRhs.depth ≤ max lhs.depth rhs.depth := by omega
    rw [simplifyOperation_of_normal hnl hnr hfold (by omega), ite_self]
    rfl

/-- Three calls for each level of an expression are enough. -/
theorem simplified_returns (e : TypeSizeExpr σ) (he : e.FoldsInUsize) :
    ∃ r, ∀ fuel, 3 * e.depth ≤ fuel → simplified fuel e = .ok r := by
  have hoperation : ∀ (op : SizeOperator) (lhs rhs : TypeSizeExpr σ),
      (∃ r, ∀ fuel, 3 * lhs.depth ≤ fuel → simplified fuel lhs = .ok r) →
      (∃ r, ∀ fuel, 3 * rhs.depth ≤ fuel → simplified fuel rhs = .ok r) →
      (∀ n : ℕ, (∀ ρ : σ → ℕ, op.eval (lhs.eval ρ) (rhs.eval ρ) = n) → n < 2 ^ 64) →
      ∃ r, ∀ fuel, 3 * (op.apply lhs rhs).depth ≤ fuel → simplified fuel (op.apply lhs rhs) = .ok r := by
    rintro op lhs rhs ⟨newLhs, hl⟩ ⟨newRhs, hr⟩ hfits
    have hevalLhs := ((simplified_simplifies _).1 lhs newLhs (hl _ (Nat.le_refl _))).2.1
    have hevalRhs := ((simplified_simplifies _).1 rhs newRhs (hr _ (Nat.le_refl _))).2.1
    obtain ⟨folded, hfold⟩ : ∃ folded, op.fold newLhs newRhs = .ok folded :=
      SizeOperator.exists_fold fun n hn => hfits n fun ρ => by rw [← hevalLhs, ← hevalRhs, hn]
    refine ⟨folded.getD (op.apply newLhs newRhs), fun fuel hfuel => ?_⟩
    rw [SizeOperator.depth_apply] at hfuel
    have hone := lhs.one_le_depth
    obtain ⟨fuel, rfl⟩ := Nat.exists_eq_add_of_le' (show 2 ≤ fuel by omega)
    rw [simplified_apply]
    exact simplifyOperation_eq (hl fuel (by omega)) (hr fuel (by omega)) hfold (by omega)
  induction e with
  | const n =>
    refine ⟨.const n, fun fuel hfuel => ?_⟩
    obtain ⟨fuel, rfl⟩ := Nat.exists_eq_add_of_le' (Nat.le_trans (by decide : 1 ≤ 3) hfuel)
    rfl
  | sym symbol =>
    refine ⟨.sym symbol, fun fuel hfuel => ?_⟩
    obtain ⟨fuel, rfl⟩ := Nat.exists_eq_add_of_le' (Nat.le_trans (by decide : 1 ≤ 3) hfuel)
    rfl
  | add lhs rhs ihl ihr => exact hoperation .add lhs rhs (ihl he.1) (ihr he.2.1) he.2.2
  | mul lhs rhs ihl ihr => exact hoperation .mul lhs rhs (ihl he.1) (ihr he.2.1) he.2.2

/-- An expression whose constants can be folded in `usize` is simplified to one of the same value, which is not changed
by another simplification. Sizes that are equal once simplified have equal values. -/
theorem simplified_preserves_value (e : TypeSizeExpr σ) :
    (e.FoldsInUsize → ∃ r, (∀ ρ : σ → ℕ, r.eval ρ = e.eval ρ) ∧
      ∀ fuel, 3 * e.depth ≤ fuel → simplified fuel e = .ok r ∧ simplified fuel r = .ok r) ∧
      ∀ (e' r : TypeSizeExpr σ) (fuel fuel' : ℕ), simplified fuel e = .ok r → simplified fuel' e' = .ok r →
        ∀ ρ : σ → ℕ, e.eval ρ = e'.eval ρ := by
  refine ⟨fun he => ?_, fun e' r fuel fuel' h h' ρ => ?_⟩
  · obtain ⟨r, hr⟩ := e.simplified_returns he
    obtain ⟨hnormal, heval, hdepth⟩ := (simplified_simplifies _).1 e r (hr _ (Nat.le_refl _))
    exact ⟨r, heval, fun fuel hfuel => ⟨hr fuel hfuel, hnormal.simplified_eq (by omega)⟩⟩
  · rw [← ((simplified_simplifies fuel).1 e r h).2.1 ρ, ((simplified_simplifies fuel').1 e' r h').2.1 ρ]

/-- `0 + 2 * 3 * N` has the value of what it is simplified to, `6 * N`, and of `(N + 0) * 6`. -/
theorem simplified_preserves_value_mul :
    (∃ r : TypeSizeExpr ℕ, (∀ ρ : ℕ → ℕ, r.eval ρ = 6 * ρ 0) ∧
      ∀ fuel, 12 ≤ fuel → simplified fuel (.add (.const 0) (.mul (.mul (.const 2) (.const 3)) (.sym 0))) = .ok r) ∧
      ∀ ρ : ℕ → ℕ, (add (.const 0) (.mul (.mul (.const 2) (.const 3)) (.sym 0))).eval ρ =
        (mul (.const 6) (.add (.sym 0) (.const 0))).eval ρ := by
  have hspec := simplified_preserves_value (.add (.const 0) (.mul (.mul (.const 2) (.const 3)) (.sym (0 : ℕ))))
  have hconst : ∀ {n : ℕ}, n < 2 ^ 64 → (const n : TypeSizeExpr ℕ).FoldsInUsize := fun h => h
  have hzero : ∀ n : ℕ, (∀ ρ : ℕ → ℕ, 2 * 3 * ρ 0 = n) → n < 2 ^ 64 := by
    intro n hn
    have h0 := hn fun _ => 0
    omega
  have hsix : ∀ n : ℕ, (∀ ρ : ℕ → ℕ, 2 * 3 = n) → n < 2 ^ 64 := by
    intro n hn
    have h6 := hn fun _ => 0
    omega
  obtain ⟨r, heval, hr⟩ := hspec.1 ⟨hconst (by decide), ⟨⟨hconst (by decide), hconst (by decide), hsix⟩, trivial, hzero⟩,
    fun n hn => hzero n fun ρ => (Nat.zero_add _).symm.trans (hn ρ)⟩
  exact ⟨⟨r, fun ρ => (heval ρ).trans (Nat.zero_add _), fun fuel hfuel => (hr fuel hfuel).1⟩,
    hspec.2 (.mul (.const 6) (.add (.sym 0) (.const 0))) (.mul (.const 6) (.sym 0)) 12 9 rfl rfl⟩

end TypeSizeExpr

end Circom.LlzkBackend
