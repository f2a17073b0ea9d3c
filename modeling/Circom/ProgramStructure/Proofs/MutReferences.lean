import Circom.ProgramStructure.Proofs.MemorySliceInsert

/-!
# References to the cells below an access

The references that `access_values_by_mut_reference` returns are those to the cells whose index vector
extends the access, each one once.
-/

namespace Circom.ProgramStructure

open Circom.Lib (Within cellPosition cellPosition_lt cellPosition_append cellPosition_inj indexAt
  within_indexAt cellPosition_indexAt)

namespace MemorySlice

variable {C : Type}

theorem wellFormed_newWithRoute (route : List ℕ) (initialValue : C) :
    (newWithRoute route initialValue).WellFormed := by
  rw [WellFormed, newWithRoute, List.length_replicate, Lib.foldl_mul_dims, Nat.mul_one]

theorem within_of_initialCellLoop {route access : List ℕ} {cellJump cell result : ℕ}
    (h : initialCellLoop route access cellJump cell = .ok result) :
    access.length ≤ route.length ∧ Within access (route.take access.length) := by
  induction access generalizing route cellJump cell with
  | nil => exact ⟨Nat.zero_le _, List.Forall₂.nil⟩
  | cons index access ih =>
    cases route with
    | nil => cases h
    | cons dim route =>
      rw [initialCellLoop] at h
      split_ifs at h with hdim
      obtain ⟨hlen, hwithin⟩ := ih h
      refine ⟨Nat.succ_le_succ hlen, ?_⟩
      rw [List.length_cons, List.take_succ_cons]
      exact List.Forall₂.cons (Nat.lt_of_not_le hdim) hwithin

theorem accesses_of_getInitialCell {slice : MemorySlice C} {access : List ℕ} {cell : ℕ}
    (h : slice.getInitialCell access = .ok cell) : slice.Accesses access := by
  unfold getInitialCell at h
  split_ifs at h
  exact within_of_initialCellLoop h

/-- The position of the first cell below an access. -/
def firstBelow (route access : List ℕ) : ℕ :=
  cellPosition (route.take access.length) access * (route.drop access.length).prod

theorem accessValuesByMutReference_eq {slice : MemorySlice C} (hwf : slice.WellFormed)
    {access cells : List ℕ} (h : slice.accessValuesByMutReference access = .ok cells) :
    slice.Accesses access ∧ cells = (List.range slice.values.length).filter fun index =>
      firstBelow slice.route access ≤ index ∧
        index < firstBelow slice.route access + (slice.route.drop access.length).prod := by
  unfold accessValuesByMutReference generateMutReferencesFromAccess at h
  split_ifs at h with hempty
  · obtain rfl := List.isEmpty_iff.mp hempty
    cases h
    refine ⟨⟨Nat.zero_le _, List.Forall₂.nil⟩, ?_⟩
    rw [hwf]
    symm
    rw [List.filter_eq_self]
    intro index hindex
    simpa [firstBelow, cellPosition] using List.mem_range.mp hindex
  · cases hcell : slice.getInitialCell access with
    | error e =>
      rw [hcell] at h
      unfold generateNewRouteFromAccess at h
      split_ifs at h
      all_goals cases h
    | ok cell =>
      have haccess := accesses_of_getInitialCell hcell
      rw [hcell, generateNewRouteFromAccess, if_neg (by have := haccess.1; omega)] at h
      rw [getInitialCell_of_accesses hwf haccess] at hcell
      cases hcell
      cases h
      refine ⟨haccess, ?_⟩
      rw [Lib.foldl_mul_dims, Nat.mul_one]
      rfl

variable {slice : MemorySlice C} {access cells : List ℕ}

theorem nodup_references (hwf : slice.WellFormed)
    (h : slice.accessValuesByMutReference access = .ok cells) : cells.Nodup := by
  rw [(accessValuesByMutReference_eq hwf h).2]
  exact List.nodup_range.filter _

/-- There is a reference to a cell exactly if its index vector extends the access. -/
theorem mem_references_iff (hwf : slice.WellFormed)
    (h : slice.accessValuesByMutReference access = .ok cells) {index : List ℕ}
    (hindex : Within index slice.route) :
    cellPosition slice.route index ∈ cells ↔ access <+: index := by
  obtain ⟨haccess, rfl⟩ := accessValuesByMutReference_eq hwf h
  obtain ⟨hlen, hwithin⟩ := haccess
  obtain ⟨houter, hinner⟩ := hindex.split access.length
  have hindexLen : access.length ≤ index.length := by rwa [hindex.length_eq]
  have hposition : cellPosition slice.route index =
      cellPosition (slice.route.take access.length) (index.take access.length) *
        (slice.route.drop access.length).prod +
      cellPosition (slice.route.drop access.length) (index.drop access.length) := by
    rw [← cellPosition_append houter, List.take_append_drop, List.take_append_drop]
  have hlt := cellPosition_lt hinner
  have hrange : cellPosition slice.route index < slice.values.length := by
    rw [hwf]
    exact cellPosition_lt hindex
  rw [List.mem_filter, List.mem_range, firstBelow]
  simp only [hrange, true_and, decide_eq_true_eq]
  constructor
  · rintro ⟨hle, hlt'⟩
    rw [hposition] at hle hlt'
    have heq : cellPosition (slice.route.take access.length) (index.take access.length) =
        cellPosition (slice.route.take access.length) access := by
      have h1 := Nat.lt_of_mul_lt_mul_right (a := (slice.route.drop access.length).prod)
        (show cellPosition (slice.route.take access.length) access *
          (slice.route.drop access.length).prod <
          (cellPosition (slice.route.take access.length) (index.take access.length) + 1) *
            (slice.route.drop access.length).prod by rw [Nat.add_mul]; omega)
      have h2 := Nat.lt_of_mul_lt_mul_right (a := (slice.route.drop access.length).prod)
        (show cellPosition (slice.route.take access.length) (index.take access.length) *
          (slice.route.drop access.length).prod <
          (cellPosition (slice.route.take access.length) access + 1) *
            (slice.route.drop access.length).prod by rw [Nat.add_mul]; omega)
      omega
    rw [← cellPosition_inj houter hwithin heq]
    exact List.take_prefix _ _
  · intro hprefix
    rw [hposition, ← List.prefix_iff_eq_take.mp hprefix]
    omega

end MemorySlice

end Circom.ProgramStructure
