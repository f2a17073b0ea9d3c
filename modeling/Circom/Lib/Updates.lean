import Mathlib.Data.List.Basic

/-!
# Replacing elements of a list one after the other

A loop over positions of a list that replaces the element at each of them. `Updates` relates the list before the
loop to the one after it. The lemmas count the elements with a property that every replacement removes: their
number goes down by the number of positions if all of them had it, and stays zero if none had it.
-/

namespace Circom.Lib

variable {α : Type} {R S : α → α → Prop} {P : α → Prop} {xs ys : List α} {cells : List ℕ}

/-- The elements at the positions are replaced by related ones, from the first position to the last one. -/
inductive Updates (R : α → α → Prop) : List α → List ℕ → List α → Prop where
  | nil (xs : List α) : Updates R xs [] xs
  | cons {xs ys : List α} {cell : ℕ} {cells : List ℕ} {a b : α} (hcell : xs[cell]? = some a) (hab : R a b)
    (hrest : Updates R (xs.set cell b) cells ys) : Updates R xs (cell :: cells) ys

namespace Updates

theorem length_eq (h : Updates R xs cells ys) : ys.length = xs.length := by
  induction h with
  | nil => rfl
  | cons _ _ _ ih => rw [ih, List.length_set]

/-- The other elements are as before. -/
theorem frame (h : Updates R xs cells ys) {i : ℕ} (hi : i ∉ cells) : ys[i]? = xs[i]? := by
  induction h with
  | nil => rfl
  | cons _ _ _ ih =>
    obtain ⟨hne, hi⟩ := not_or.mp (mt List.mem_cons.mpr hi)
    rw [ih hi, List.getElem?_set_ne (Ne.symm hne)]

/-- A property of all elements that the replacements keep is one of all elements afterwards. -/
theorem preserves (h : Updates R xs cells ys) (hR : ∀ a b, P a → R a b → P b ∧ S a b) (hxs : ∀ x ∈ xs, P x) :
    (∀ y ∈ ys, P y) ∧ Updates S xs cells ys := by
  induction h with
  | nil => exact ⟨hxs, .nil _⟩
  | @cons xs ys cell cells a b hcell hab _ ih =>
    obtain ⟨hb, hS⟩ := hR a b (hxs a (List.mem_of_getElem? hcell)) hab
    have hset : ∀ x ∈ xs.set cell b, P x := fun x hx =>
      (List.mem_or_eq_of_mem_set hx).elim (hxs x) fun heq => heq ▸ hb
    obtain ⟨hys, hrest⟩ := ih hset
    exact ⟨hys, .cons hcell hS hrest⟩

variable {p : α → Bool}

theorem countP_add_length (h : Updates R xs cells ys) (hR : ∀ a b, R a b → p b = false) (hnodup : cells.Nodup)
    (hcells : ∀ cell ∈ cells, ∀ a, xs[cell]? = some a → p a = true) :
    ys.countP p + cells.length = xs.countP p := by
  induction h with
  | nil => rfl
  | @cons xs ys cell cells a b hcell hab _ ih =>
    obtain ⟨hnotMem, hnodup⟩ := List.nodup_cons.mp hnodup
    have hrest : ∀ i ∈ cells, ∀ a, (xs.set cell b)[i]? = some a → p a = true := by
      intro i hi a ha
      have hne : cell ≠ i := fun heq => hnotMem (heq ▸ hi)
      rw [List.getElem?_set_ne hne] at ha
      exact hcells i (List.mem_cons_of_mem _ hi) a ha
    have hlt := (List.getElem?_eq_some_iff.mp hcell).1
    have hget : xs[cell] = a := (List.getElem?_eq_some_iff.mp hcell).2
    have hp : p a = true := hcells cell List.mem_cons_self a hcell
    have hpos : 0 < xs.countP p := List.countP_pos_iff.mpr ⟨a, List.mem_of_getElem? hcell, hp⟩
    have hcount := ih hnodup hrest
    rw [List.countP_set hlt, hget, hp, hR a b hab] at hcount
    rw [List.length_cons]
    simp only [if_true, Bool.false_eq_true, if_false] at hcount
    omega

theorem countP_eq_zero (h : Updates R xs cells ys) (hR : ∀ a b, R a b → p b = false) (hxs : xs.countP p = 0) :
    ys.countP p = 0 := by
  have hnone : ∀ x ∈ xs, p x = false := fun x hx => Bool.eq_false_iff.mpr (List.countP_eq_zero.mp hxs x hx)
  have hys := (h.preserves (fun a b _ hab => ⟨hR a b hab, hab⟩) hnone).1
  exact List.countP_eq_zero.mpr fun y hy => Bool.eq_false_iff.mp (hys y hy)

/-- What is at a position of the loop afterwards has come there by a replacement. -/
theorem of_mem (h : Updates R xs cells ys) (hR : ∀ a b, R a b → p b = false) {i : ℕ} (hi : i ∈ cells) {y : α}
    (hy : ys[i]? = some y) : p y = false := by
  induction h with
  | nil => cases hi
  | @cons xs ys cell cells a b hcell hab hrest ih =>
    by_cases hmem : i ∈ cells
    · exact ih hmem hy
    · obtain rfl := (List.mem_cons.mp hi).resolve_right hmem
      have hlt := (List.getElem?_eq_some_iff.mp hcell).1
      rw [hrest.frame hmem, List.getElem?_set_self hlt] at hy
      obtain rfl := Option.some.inj hy
      exact hR a _ hab

theorem countP_eq_zero_of_all (h : Updates R xs cells ys) (hR : ∀ a b, R a b → p b = false)
    (hall : ∀ i < xs.length, i ∈ cells) : ys.countP p = 0 := by
  refine List.countP_eq_zero.mpr fun y hy => Bool.eq_false_iff.mp ?_
  obtain ⟨i, hi⟩ := List.mem_iff_getElem?.mp hy
  have hlt := (List.getElem?_eq_some_iff.mp hi).1
  rw [h.length_eq] at hlt
  exact h.of_mem hR (hall i hlt) hi

end Updates

end Circom.Lib
