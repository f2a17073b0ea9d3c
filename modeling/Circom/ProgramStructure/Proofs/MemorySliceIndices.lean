import Circom.Lib.RowMajor
import Circom.ProgramStructure.MemorySlice

/-!
# Flat indices and multi-indices

The cells of a well-formed slice lie in row-major order: `get_initial_cell` computes the position of an
index vector and `get_access_index` the index vector of a position. The bound test of the operations by
index lets the number of cells itself through.
-/

namespace Circom.ProgramStructure

open Circom.Lib (Within cellPosition indexAt cellPosition_lt cellPosition_indexAt within_indexAt
  indexAt_cellPosition)

variable {dims : List ℕ} {e : MemoryError} {dim index : ℕ}

namespace MemorySlice

variable {C : Type}

/-- The comment on the type: the number of values is the product of the dimensions. -/
def WellFormed (slice : MemorySlice C) : Prop := slice.values.length = slice.route.prod

instance (slice : MemorySlice C) : Decidable slice.WellFormed := by
  unfold WellFormed
  infer_instance

/-- The access is within the leading dimensions of the slice. -/
def Accesses (slice : MemorySlice C) (access : List ℕ) : Prop :=
  access.length ≤ slice.route.length ∧ Within access (slice.route.take access.length)

instance (slice : MemorySlice C) (access : List ℕ) : Decidable (slice.Accesses access) := by
  unfold Accesses
  infer_instance

/-! ## The first cell below an access -/

theorem initialCellLoop_of_within {route access : List ℕ} (hlen : access.length ≤ route.length)
    (h : Within access (route.take access.length)) (cell : ℕ) :
    initialCellLoop route access route.prod cell =
      .ok (cell + cellPosition (route.take access.length) access *
        (route.drop access.length).prod) := by
  induction access generalizing route cell with
  | nil => simp [initialCellLoop, cellPosition]
  | cons index access ih =>
    cases route with
    | nil => simp at hlen
    | cons dim route =>
      rw [List.length_cons, List.take_succ_cons] at h
      obtain ⟨hi, hrest⟩ := List.forall₂_cons.mp h
      have hlen' : access.length ≤ route.length := by simpa using hlen
      have hjump : (dim :: route).prod / dim = route.prod := by
        rw [List.prod_cons]
        exact Nat.mul_div_cancel_left _ (by omega)
      have hprod : route.prod = (route.take access.length).prod * (route.drop access.length).prod := by
        rw [← List.prod_append, List.take_append_drop]
      rw [initialCellLoop, if_neg (by omega), hjump, ih hlen' hrest]
      simp only [List.length_cons, List.take_succ_cons, List.drop_succ_cons, cellPosition]
      rw [Nat.add_mul, hprod]
      congr 1
      ring

theorem getInitialCell_of_accesses {slice : MemorySlice C} (hwf : slice.WellFormed)
    {access : List ℕ} (h : slice.Accesses access) :
    slice.getInitialCell access =
      .ok (cellPosition (slice.route.take access.length) access *
        (slice.route.drop access.length).prod) := by
  unfold getInitialCell
  rw [if_neg (by have := h.1; omega), hwf, initialCellLoop_of_within h.1 h.2, Nat.zero_add]

theorem accesses_of_within {slice : MemorySlice C} {access : List ℕ}
    (h : Within access slice.route) : slice.Accesses access := by
  refine ⟨h.length_eq.le, ?_⟩
  rw [h.length_eq, List.take_length]
  exact h

/-- An access of full length names the cell at its position. -/
theorem getInitialCell_of_within {slice : MemorySlice C} (hwf : slice.WellFormed)
    {access : List ℕ} (h : Within access slice.route) :
    slice.getInitialCell access = .ok (cellPosition slice.route access) := by
  rw [getInitialCell_of_accesses hwf (accesses_of_within h), h.length_eq, List.take_length,
    List.drop_length, List.prod_nil, Nat.mul_one]

/-! ## The access of a cell -/

theorem accessIndexLoop_eq {route : List ℕ} (h : index < route.prod) :
    accessIndexLoop route route.prod index = some (indexAt route index) := by
  induction route generalizing index with
  | nil => rfl
  | cons dim route ih =>
    rw [List.prod_cons] at h
    have hdim : dim ≠ 0 := fun h0 => by simp [h0] at h
    have hpos : route.prod ≠ 0 := fun h0 => by simp [h0] at h
    have hjump : (dim :: route).prod / dim = route.prod := by
      rw [List.prod_cons]
      exact Nat.mul_div_cancel_left _ (Nat.pos_of_ne_zero hdim)
    rw [accessIndexLoop, if_neg hdim, hjump, if_neg hpos,
      ih (Nat.mod_lt index (Nat.pos_of_ne_zero hpos))]
    rfl

theorem getAccessIndex_eq {slice : MemorySlice C} (hwf : slice.WellFormed) (h : index < slice.getNumberOfCells) :
    slice.getAccessIndex index = some (.ok (indexAt slice.route index)) := by
  have hprod : slice.getNumberOfCells = slice.route.prod := hwf
  rw [hprod] at h
  unfold getAccessIndex
  rw [hprod, if_neg (by omega), accessIndexLoop_eq h]
  rfl

/-! ## When the operations by index keep to the cells -/

/-- What the operations by index should do at one index of a slice: the two conversions are inverse to
each other, and an index that is out of range is an error. -/
structure IndexInverse (slice : MemorySlice C) (index : ℕ) : Prop where
  /-- An access of full length is the access of its cell. -/
  accessOfCell : ∀ access, Within access slice.route → slice.getInitialCell access = .ok index →
    slice.getAccessIndex index = some (.ok access)
  /-- Every access has a cell. -/
  cellOfAccess : ∀ access, Within access slice.route →
    ∃ cell < slice.getNumberOfCells, slice.getInitialCell access = .ok cell
  /-- Every index in range is that of an access. -/
  accessOfIndex : index < slice.getNumberOfCells → ∃ access, slice.getAccessIndex index = some (.ok access) ∧
    Within access slice.route ∧ slice.getInitialCell access = .ok index
  /-- All operations by index reject an index out of range. -/
  outOfBounds : slice.getNumberOfCells ≤ index →
    slice.getAccessIndex index = some (.error .outOfBoundsError) ∧
    (∀ value, slice.insertValueByIndex index value = some (slice, .error .outOfBoundsError)) ∧
    slice.accessValueByIndex index = some (.error .outOfBoundsError) ∧
    slice.accessValuesByIndexMutReference index = some (.error .outOfBoundsError) ∧
    slice.getReferenceToSingleValueByIndex index = some (.error .outOfBoundsError) ∧
    slice.getMutReferenceToSingleValueByIndex index = some (.error .outOfBoundsError)

theorem outOfBounds_of_lt {slice : MemorySlice C} (h : slice.getNumberOfCells < index) :
    slice.getAccessIndex index = some (.error .outOfBoundsError) ∧
    (∀ value, slice.insertValueByIndex index value = some (slice, .error .outOfBoundsError)) ∧
    slice.cellByIndex index = some (.error .outOfBoundsError) ∧
    slice.positionByIndex index = some (.error .outOfBoundsError) :=
  ⟨if_pos h, fun _ => if_pos h, if_pos h, if_pos h⟩

/-- The index that equals the number of cells passes the test and panics. -/
theorem cellByIndex_numberOfCells (slice : MemorySlice C) :
    slice.cellByIndex slice.getNumberOfCells = none := by
  unfold cellByIndex
  rw [if_neg (Nat.lt_irrefl _), getNumberOfCells, List.getElem?_eq_none (Nat.le_refl _)]
  rfl

/-- The operations by index are right at every index but the number of cells, which they take for a cell. -/
theorem indexInverse_iff {slice : MemorySlice C} (hwf : slice.WellFormed) (index : ℕ) :
    slice.IndexInverse index ↔ index ≠ slice.getNumberOfCells := by
  have hprod : slice.getNumberOfCells = slice.route.prod := hwf
  constructor
  · rintro h rfl
    have hread := (h.outOfBounds (Nat.le_refl _)).2.2.1
    rw [accessValueByIndex, cellByIndex_numberOfCells] at hread
    cases hread
  · intro hne
    constructor
    case accessOfCell =>
      intro access hwithin hcell
      rw [getInitialCell_of_within hwf hwithin, Except.ok.injEq] at hcell
      subst hcell
      rw [getAccessIndex_eq hwf (by rw [hprod]; exact cellPosition_lt hwithin),
        indexAt_cellPosition hwithin]
    case cellOfAccess =>
      intro access hwithin
      refine ⟨_, ?_, getInitialCell_of_within hwf hwithin⟩
      rw [hprod]
      exact cellPosition_lt hwithin
    case accessOfIndex =>
      intro hlt
      have hlt' : index < slice.route.prod := by rwa [← hprod]
      refine ⟨_, getAccessIndex_eq hwf hlt, within_indexAt hlt', ?_⟩
      rw [getInitialCell_of_within hwf (within_indexAt hlt'), cellPosition_indexAt hlt']
    case outOfBounds =>
      intro hle
      obtain ⟨haccess, hinsert, hread, hposition⟩ := outOfBounds_of_lt (lt_of_le_of_ne hle hne.symm)
      exact ⟨haccess, hinsert, hread, hposition, hread, hposition⟩

theorem indexInverse_iff_matrix :
    (⟨[2, 3], [0, 1, 2, 3, 4, 5]⟩ : MemorySlice ℕ).IndexInverse 4 ↔ 4 ≠ 6 :=
  indexInverse_iff (by decide) 4

/-- Index `3` of an array with three elements panics. -/
theorem not_indexInverse :
    ¬ ∀ slice : MemorySlice ℕ, slice.WellFormed → ∀ index, slice.IndexInverse index := by
  intro h
  have h3 := (h ⟨[3], [7, 8, 9]⟩ (by decide) 3).outOfBounds (by decide)
  have hread : (⟨[3], [7, 8, 9]⟩ : MemorySlice ℕ).accessValueByIndex 3 = none := by decide
  rw [hread] at h3
  cases h3.2.2.1

end MemorySlice

end Circom.ProgramStructure
