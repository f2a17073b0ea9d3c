import Mathlib.Algebra.BigOperators.Group.List.Basic
import Mathlib.Data.List.Forall2
import Mathlib.Data.List.Nodup
import Mathlib.Tactic.Ring

/-!
# Row-major order

The cells of an array are its index vectors. In row-major order the last index runs first, and the
position of a cell is the number of cells before it.
-/

namespace Circom.Lib

variable {dims index : List ℕ} {n : ℕ}

/-- The index vectors of an array with the given dimensions, in row-major order. -/
def indexVectors : List ℕ → List (List ℕ)
  | [] => [[]]
  | d :: dims => (List.range d).flatMap fun i => (indexVectors dims).map (i :: ·)

theorem length_flatMap_of_const {α β : Type*} {l : List α} {f : α → List β}
    (h : ∀ a ∈ l, (f a).length = n) : (l.flatMap f).length = l.length * n := by
  induction l with
  | nil => simp
  | cons a l ih =>
    rw [List.flatMap_cons, List.length_append, h a List.mem_cons_self,
      ih fun b hb => h b (List.mem_cons_of_mem a hb), List.length_cons]
    ring

theorem length_indexVectors (dims : List ℕ) : (indexVectors dims).length = dims.prod := by
  induction dims with
  | nil => rfl
  | cons d dims ih =>
    rw [indexVectors, length_flatMap_of_const fun i _ => by rw [List.length_map, ih],
      List.length_range, List.prod_cons]

/-- The number of cells of an array whose elements have `size` cells, as a program multiplies it up. -/
theorem foldl_mul_dims (dims : List ℕ) (size : ℕ) :
    dims.foldl (fun p c => p * c) size = dims.prod * size := by
  induction dims generalizing size with
  | nil => simp
  | cons d dims ih =>
    rw [List.foldl_cons, ih, List.prod_cons]
    ring

/-! ## Positions -/

/-- One index below each dimension. -/
def Within (index dims : List ℕ) : Prop := List.Forall₂ (· < ·) index dims

instance (index dims : List ℕ) : Decidable (Within index dims) := by
  unfold Within
  infer_instance

/-- The number of cells before the cell of an index vector. -/
def cellPosition : List ℕ → List ℕ → ℕ
  | _ :: dims, i :: index => i * dims.prod + cellPosition dims index
  | _, _ => 0

/-- The index vector of the cell at a position. -/
def indexAt : List ℕ → ℕ → List ℕ
  | [], _ => []
  | _ :: dims, n => n / dims.prod :: indexAt dims (n % dims.prod)

theorem Within.length_eq (h : Within index dims) : index.length = dims.length :=
  List.Forall₂.length_eq h

theorem Within.append {index₁ index₂ dims₁ dims₂ : List ℕ} (h₁ : Within index₁ dims₁)
    (h₂ : Within index₂ dims₂) : Within (index₁ ++ index₂) (dims₁ ++ dims₂) :=
  List.rel_append h₁ h₂

/-- An index vector of the whole array is one of the leading dimensions with one of the rest. -/
theorem Within.split (h : Within index dims) (n : ℕ) :
    Within (index.take n) (dims.take n) ∧ Within (index.drop n) (dims.drop n) :=
  ⟨List.forall₂_take n h, List.forall₂_drop n h⟩

theorem cellPosition_lt (h : Within index dims) : cellPosition dims index < dims.prod := by
  induction h with
  | nil => simp [cellPosition]
  | @cons i d index dims hi _ ih =>
    rw [cellPosition, List.prod_cons]
    have h1 : (i + 1) * dims.prod ≤ d * dims.prod := Nat.mul_le_mul_right _ hi
    rw [Nat.add_mul, one_mul] at h1
    omega

theorem cellPosition_append {index₁ dims₁ : List ℕ} (h : Within index₁ dims₁) (index₂ dims₂ : List ℕ) :
    cellPosition (dims₁ ++ dims₂) (index₁ ++ index₂) =
      cellPosition dims₁ index₁ * dims₂.prod + cellPosition dims₂ index₂ := by
  induction h with
  | nil => simp [cellPosition]
  | cons _ _ ih =>
    simp only [List.cons_append, cellPosition]
    rw [ih, List.prod_append]
    ring

theorem cellPosition_indexAt (h : n < dims.prod) : cellPosition dims (indexAt dims n) = n := by
  induction dims generalizing n with
  | nil =>
    rw [List.prod_nil] at h
    simp only [indexAt, cellPosition]
    omega
  | cons d dims ih =>
    rw [List.prod_cons] at h
    have hpos : 0 < dims.prod := Nat.pos_of_ne_zero fun h0 => by simp [h0] at h
    rw [indexAt, cellPosition, ih (Nat.mod_lt n hpos)]
    exact Nat.div_add_mod' n dims.prod

theorem within_indexAt (h : n < dims.prod) : Within (indexAt dims n) dims := by
  induction dims generalizing n with
  | nil => exact List.Forall₂.nil
  | cons d dims ih =>
    rw [List.prod_cons] at h
    have hpos : 0 < dims.prod := Nat.pos_of_ne_zero fun h0 => by simp [h0] at h
    exact List.Forall₂.cons ((Nat.div_lt_iff_lt_mul hpos).mpr h) (ih (Nat.mod_lt n hpos))

theorem indexAt_cellPosition (h : Within index dims) : indexAt dims (cellPosition dims index) = index := by
  induction h with
  | nil => rfl
  | @cons i d index dims _ hrest ih =>
    have hlt := cellPosition_lt hrest
    have hdiv : (i * dims.prod + cellPosition dims index) / dims.prod = i := by
      rw [Nat.add_comm, Nat.add_mul_div_right _ _ (by omega), Nat.div_eq_of_lt hlt, Nat.zero_add]
    have hmod : (i * dims.prod + cellPosition dims index) % dims.prod = cellPosition dims index := by
      rw [Nat.add_comm, Nat.add_mul_mod_self_right, Nat.mod_eq_of_lt hlt]
    rw [cellPosition, indexAt, hdiv, hmod, ih]

theorem cellPosition_inj {index' : List ℕ} (h : Within index dims) (h' : Within index' dims)
    (heq : cellPosition dims index = cellPosition dims index') : index = index' := by
  rw [← indexAt_cellPosition h, ← indexAt_cellPosition h', heq]

theorem range_mul (d n : ℕ) :
    List.range (d * n) = (List.range d).flatMap fun i => (List.range n).map (i * n + ·) := by
  induction d with
  | zero => simp
  | succ d ih =>
    rw [Nat.add_mul, one_mul, List.range_add, ih, List.range_succ, List.flatMap_append,
      List.flatMap_singleton]

/-- The index vectors are listed by their positions. -/
theorem indexVectors_eq_map_indexAt (dims : List ℕ) :
    indexVectors dims = (List.range dims.prod).map (indexAt dims) := by
  induction dims with
  | nil => rfl
  | cons d dims ih =>
    rw [indexVectors, List.prod_cons, range_mul, List.map_flatMap]
    refine List.flatMap_congr fun i _ => ?_
    rw [ih, List.map_map, List.map_map]
    refine List.map_congr_left fun n hn => ?_
    have hlt := List.mem_range.mp hn
    have hdiv : (i * dims.prod + n) / dims.prod = i := by
      rw [Nat.add_comm, Nat.add_mul_div_right _ _ (by omega), Nat.div_eq_of_lt hlt, Nat.zero_add]
    have hmod : (i * dims.prod + n) % dims.prod = n := by
      rw [Nat.add_comm, Nat.add_mul_mod_self_right, Nat.mod_eq_of_lt hlt]
    simp only [Function.comp_apply, indexAt, hdiv, hmod]

theorem mem_indexVectors : index ∈ indexVectors dims ↔ Within index dims := by
  rw [indexVectors_eq_map_indexAt, List.mem_map]
  constructor
  · rintro ⟨n, hn, rfl⟩
    exact within_indexAt (List.mem_range.mp hn)
  · exact fun h => ⟨cellPosition dims index, List.mem_range.mpr (cellPosition_lt h), indexAt_cellPosition h⟩

theorem nodup_indexVectors (dims : List ℕ) : (indexVectors dims).Nodup := by
  rw [indexVectors_eq_map_indexAt]
  refine List.Nodup.map_on (fun n hn m hm heq => ?_) List.nodup_range
  rw [← cellPosition_indexAt (List.mem_range.mp hn), heq, cellPosition_indexAt (List.mem_range.mp hm)]

/-- Row-major order is the lexicographic order of the index vectors. -/
theorem pairwise_indexVectors (dims : List ℕ) : (indexVectors dims).Pairwise (· < ·) := by
  induction dims with
  | nil => exact List.pairwise_singleton _ _
  | cons d dims ih =>
    rw [indexVectors, List.pairwise_flatMap]
    refine ⟨fun i _ => ?_, List.pairwise_lt_range.imp fun hlt x hx y hy => ?_⟩
    · rw [List.pairwise_map]
      exact ih.imp fun h => List.cons_lt_cons_iff.mpr (Or.inr ⟨rfl, h⟩)
    · obtain ⟨index, -, rfl⟩ := List.mem_map.mp hx
      obtain ⟨index', -, rfl⟩ := List.mem_map.mp hy
      exact List.cons_lt_cons_iff.mpr (Or.inl hlt)

/-- Lengthening the vectors of a list by one index after the other lists them in the same order. -/
theorem foldl_lengthen_eq (dims : List ℕ) (vectors : List (List ℕ)) :
    dims.foldl (fun vectors d => vectors.flatMap fun index => (List.range d).map fun i => index ++ [i])
        vectors =
      vectors.flatMap fun index => (indexVectors dims).map (index ++ ·) := by
  induction dims generalizing vectors with
  | nil => simp [indexVectors]
  | cons d dims ih =>
    rw [List.foldl_cons, ih, List.flatMap_assoc]
    refine List.flatMap_congr fun index _ => ?_
    rw [indexVectors, List.map_flatMap, List.flatMap_map]
    refine List.flatMap_congr fun i _ => ?_
    rw [List.map_map]
    exact List.map_congr_left fun rest _ => by simp

end Circom.Lib
