import Mathlib.Data.List.Basic
import Mathlib.Data.Set.Disjoint
import Mathlib.Logic.Function.DependsOn
import Mathlib.Algebra.Group.Nat.Defs
import Mathlib.Data.Set.Lattice
import Mathlib.Order.CompletePartialOrder

/-!
# A measure for elimination

Variables are eliminated one after the other; `l` lists them with the last eliminated one first. The
weight of a set of variables reads it as a binary number with the digits of `l`. Replacing one
variable of the set by variables eliminated later makes this number smaller.
-/

namespace Circom.Lib

variable {α : Type*}

/-- The binary number whose digits are the members of `l` in `P`, least significant first. -/
def weight (P : α → Prop) [DecidablePred P] : List α → ℕ
  | [] => 0
  | x :: l => (if P x then 1 else 0) + 2 * weight P l

variable {P Q : α → Prop} [DecidablePred P] [DecidablePred Q]

theorem weight_lt_two_pow (P : α → Prop) [DecidablePred P] (l : List α) :
    weight P l < 2 ^ l.length := by
  induction l with
  | nil => simp [weight]
  | cons x l ih =>
    rw [weight, List.length_cons, Nat.pow_succ]
    split_ifs <;> omega

theorem weight_le_weight {l : List α} (h : ∀ y ∈ l, Q y → P y) : weight Q l ≤ weight P l := by
  induction l with
  | nil => exact Nat.le_refl _
  | cons x l ih =>
    have hl := ih fun y hy => h y (List.mem_cons_of_mem x hy)
    have hx := h x List.mem_cons_self
    rw [weight, weight]
    split_ifs with hq hp
    · omega
    · exact absurd (hx hq) hp
    · omega
    · omega

/-- Taking out `x` decreases the weight, whatever comes in among the variables before `x`. -/
theorem weight_lt_weight {l₁ l₂ : List α} {x : α} (hx : P x) (hx' : ¬ Q x)
    (h : ∀ y ∈ l₂, Q y → P y) : weight Q (l₁ ++ x :: l₂) < weight P (l₁ ++ x :: l₂) := by
  induction l₁ with
  | nil =>
    have hl := weight_le_weight h
    rw [List.nil_append, weight, weight, if_pos hx, if_neg hx']
    omega
  | cons y l₁ ih =>
    rw [List.cons_append, weight, weight]
    split_ifs <;> omega

/-!
## Leaving defined variables out

When some variables of a system are given by the others, the system without them has the same solutions on
the variables that are fixed.
-/

variable {ι V : Type*} {fixed defined : Set ι} {P : (ι → V) → Prop}

theorem exists_iff_of_defined (value : ι → (ι → V) → V) (σ : ι → V)
    (hfixed : Disjoint fixed defined)
    (hvalue : ∀ i ∈ defined, DependsOn (value i) definedᶜ) (hP : DependsOn P definedᶜ) :
    (∃ ρ, (∀ i ∈ fixed, ρ i = σ i) ∧ (∀ i ∈ defined, ρ i = value i ρ) ∧ P ρ) ↔
      ∃ ρ, (∀ i ∈ fixed, ρ i = σ i) ∧ P ρ := by
  classical
  constructor
  · rintro ⟨ρ, hσ, -, hρ⟩
    exact ⟨ρ, hσ, hρ⟩
  · rintro ⟨ρ, hσ, hρ⟩
    let ρ' : ι → V := fun i => if i ∈ defined then value i ρ else ρ i
    have hagree : ∀ i ∈ definedᶜ, ρ' i = ρ i := fun i hi => if_neg hi
    refine ⟨ρ', ?_, ?_, ?_⟩
    · intro i hi
      rw [hagree i (Set.disjoint_left.mp hfixed hi)]
      exact hσ i hi
    · intro i hi
      rw [hvalue i hi hagree]
      exact if_pos hi
    · rw [hP hagree]
      exact hρ

end Circom.Lib
