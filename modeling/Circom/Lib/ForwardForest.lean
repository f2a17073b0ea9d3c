import Mathlib.Data.List.Basic
import Mathlib.Data.Nat.Notation
import Mathlib.Data.Nat.Init

/-!
# Forests whose paths lead forward

A union-find table without ranks: every item points to a later item or to itself, so each path ends in a
root. Shortening a path keeps the roots, and pointing a root to a later root joins two trees.
-/

namespace Circom.Lib

/-- The table `next` is a forest, and the path from `i` ends in `root i`. -/
structure ForwardForest (next : List ℕ) (root : ℕ → ℕ) : Prop where
  le_next : ∀ i j : ℕ, next[i]? = some j → i ≤ j
  next_lt : ∀ i j : ℕ, next[i]? = some j → j < next.length
  root_next : ∀ i j : ℕ, next[i]? = some j → root j = root i
  root_self : ∀ i : ℕ, next[i]? = some i → root i = i
  outside : ∀ i : ℕ, next.length ≤ i → root i = i

namespace ForwardForest

variable {next : List ℕ} {root : ℕ → ℕ}

/-- Induction along the paths, from the roots upwards. -/
theorem induction (h : ForwardForest next root) {P : ℕ → Prop}
    (hroot : ∀ i : ℕ, next[i]? = some i → P i)
    (hnext : ∀ i j : ℕ, next[i]? = some j → i < j → P j → P i) {i : ℕ} (hi : i < next.length) : P i := by
  obtain ⟨n, hn⟩ : ∃ n, next.length - i = n := ⟨_, rfl⟩
  induction n using Nat.strong_induction_on generalizing i with
  | _ n ih =>
    have hget : next[i]? = some next[i] := List.getElem?_eq_getElem hi
    have hle := h.le_next i _ hget
    rcases Nat.lt_or_ge i next[i] with hlt | hge
    · have hj := h.next_lt i _ hget
      exact hnext i _ hget hlt (ih (next.length - next[i]) (by omega) hj rfl)
    · have heq : next[i] = i := by omega
      rw [heq] at hget
      exact hroot i hget

theorem next_root (h : ForwardForest next root) {i : ℕ} (hi : i < next.length) :
    next[root i]? = some (root i) := by
  refine h.induction (P := fun i => next[root i]? = some (root i)) ?_ ?_ hi
  · intro i hget
    rw [h.root_self i hget]
    exact hget
  · intro i j hget _ hj
    rw [← h.root_next i j hget]
    exact hj

theorem root_lt (h : ForwardForest next root) {i : ℕ} (hi : i < next.length) :
    root i < next.length := h.next_lt _ _ (h.next_root hi)

theorem le_root (h : ForwardForest next root) (i : ℕ) : i ≤ root i := by
  rcases Nat.lt_or_ge i next.length with hi | hi
  · refine h.induction (P := fun i => i ≤ root i) ?_ ?_ hi
    · intro i hget
      exact Nat.le_of_eq (h.root_self i hget).symm
    · intro i j hget hlt hj
      rw [← h.root_next i j hget]
      omega
  · exact Nat.le_of_eq (h.outside i hi).symm

theorem root_root (h : ForwardForest next root) (i : ℕ) : root (root i) = root i := by
  rcases Nat.lt_or_ge i next.length with hi | hi
  · exact h.root_self _ (h.next_root hi)
  · rw [h.outside i hi, h.outside i hi]

theorem empty : ForwardForest [] id := by
  refine ⟨?_, ?_, ?_, ?_, fun i _ => rfl⟩ <;> intros <;> simp_all

/-- A new root at the end. -/
theorem push (h : ForwardForest next root) : ForwardForest (next ++ [next.length]) root := by
  have hcases : ∀ i j : ℕ, (next ++ [next.length])[i]? = some j →
      next[i]? = some j ∨ i = next.length ∧ j = next.length := by
    intro i j hget
    rcases Nat.lt_trichotomy i next.length with hi | hi | hi
    · left
      rwa [List.getElem?_append_left hi] at hget
    · right
      subst hi
      rw [List.getElem?_concat_length] at hget
      exact ⟨rfl, (Option.some.inj hget).symm⟩
    · rw [List.getElem?_eq_none (by simp; omega)] at hget
      cases hget
  have hlast : root next.length = next.length := h.outside _ (Nat.le_refl _)
  refine ⟨?_, ?_, ?_, ?_, ?_⟩
  · intro i j hget
    rcases hcases i j hget with hget | ⟨rfl, rfl⟩
    · exact h.le_next i j hget
    · exact Nat.le_refl _
  · intro i j hget
    rw [List.length_append, List.length_singleton]
    rcases hcases i j hget with hget | ⟨rfl, rfl⟩
    · have := h.next_lt i j hget
      omega
    · omega
  · intro i j hget
    rcases hcases i j hget with hget | ⟨rfl, rfl⟩
    · exact h.root_next i j hget
    · rfl
  · intro i hget
    rcases hcases i i hget with hget | ⟨rfl, -⟩
    · exact h.root_self i hget
    · exact hlast
  · intro i hi
    rw [List.length_append, List.length_singleton] at hi
    exact h.outside i (by omega)

/-- Pointing an item to its root. -/
theorem shrink (h : ForwardForest next root) {k : ℕ} (hk : k < next.length) :
    ForwardForest (next.set k (root k)) root := by
  have hcases : ∀ i j : ℕ, (next.set k (root k))[i]? = some j →
      next[i]? = some j ∨ i = k ∧ j = root k := by
    intro i j hget
    by_cases hi : k = i
    · subst hi
      rw [List.getElem?_set_self hk] at hget
      exact Or.inr ⟨rfl, (Option.some.inj hget).symm⟩
    · rw [List.getElem?_set_ne hi] at hget
      exact Or.inl hget
  refine ⟨?_, ?_, ?_, ?_, ?_⟩
  · intro i j hget
    rcases hcases i j hget with hget | ⟨rfl, rfl⟩
    · exact h.le_next i j hget
    · exact h.le_root i
  · intro i j hget
    rw [List.length_set]
    rcases hcases i j hget with hget | ⟨rfl, rfl⟩
    · exact h.next_lt i j hget
    · exact h.root_lt hk
  · intro i j hget
    rcases hcases i j hget with hget | ⟨rfl, rfl⟩
    · exact h.root_next i j hget
    · exact h.root_root i
  · intro i hget
    rcases hcases i i hget with hget | ⟨rfl, heq⟩
    · exact h.root_self i hget
    · exact heq.symm
  · intro i hi
    rw [List.length_set] at hi
    exact h.outside i hi

/-- Pointing a root to a later one. -/
theorem link (h : ForwardForest next root) {a b : ℕ} (ha : root a = a) (hb : root b = b) (hab : a ≤ b)
    (hlt : b < next.length) :
    ForwardForest (next.set a b) fun i => if root i = a then b else root i := by
  have hcases : ∀ i j : ℕ, (next.set a b)[i]? = some j → (i ≠ a ∧ next[i]? = some j) ∨ i = a ∧ j = b := by
    intro i j hget
    by_cases hi : a = i
    · subst hi
      rw [List.getElem?_set_self (by omega)] at hget
      exact Or.inr ⟨rfl, (Option.some.inj hget).symm⟩
    · rw [List.getElem?_set_ne hi] at hget
      exact Or.inl ⟨Ne.symm hi, hget⟩
  refine ⟨?_, ?_, ?_, ?_, ?_⟩
  · intro i j hget
    rcases hcases i j hget with ⟨-, hget⟩ | ⟨rfl, rfl⟩
    · exact h.le_next i j hget
    · exact hab
  · intro i j hget
    rw [List.length_set]
    rcases hcases i j hget with ⟨-, hget⟩ | ⟨rfl, rfl⟩
    · exact h.next_lt i j hget
    · exact hlt
  · intro i j hget
    rcases hcases i j hget with ⟨-, hget⟩ | ⟨rfl, rfl⟩
    · simp only [h.root_next i j hget]
    · simp only [ha, hb, if_true]
      split_ifs <;> rfl
  · intro i hget
    rcases hcases i i hget with ⟨hne, hget⟩ | ⟨rfl, rfl⟩
    · have hself := h.root_self i hget
      simp only [hself, hne, if_false]
    · simp only [ha, if_true]
  · intro i hi
    rw [List.length_set] at hi
    have hi' : root i = i := h.outside i hi
    have hne : i ≠ a := by omega
    simp only [hi', hne, if_false]

end ForwardForest

end Circom.Lib
