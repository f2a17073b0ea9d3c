import Circom.Lib.HashMap

/-!
# Interning

`ConstantTracker` of `constant_tracking`. A constant is kept once; its position is its identifier.
-/

namespace Circom

open Lib (HashMap)

variable {C : Type*} [DecidableEq C]

structure ConstantTracker (C : Type*) [DecidableEq C] where
  lookup : HashMap C ℕ
  constants : List C

namespace ConstantTracker

def new : ConstantTracker C := ⟨∅, []⟩

def getId (tracker : ConstantTracker C) (constant : C) : Option ℕ := tracker.lookup.lookup constant

def insert (tracker : ConstantTracker C) (constant : C) : ConstantTracker C × ℕ :=
  match tracker.getId constant with
  | some id => (tracker, id)
  | none =>
    let id := tracker.constants.length
    (⟨tracker.lookup.insert constant id, tracker.constants ++ [constant]⟩, id)

def getConstant (tracker : ConstantTracker C) (id : ℕ) : Option C := tracker.constants[id]?

def nextId (tracker : ConstantTracker C) : ℕ := tracker.constants.length

/-! ## The table and the vector -/

/-- The table is the inverse of the vector. -/
def WellFormed (tracker : ConstantTracker C) : Prop :=
  ∀ constant id, tracker.getId constant = some id ↔ tracker.getConstant id = some constant

/-- Every identifier keeps its constant. -/
def Grows (tracker tracker' : ConstantTracker C) : Prop :=
  ∀ id constant, tracker.getConstant id = some constant → tracker'.getConstant id = some constant

@[refl] theorem Grows.refl (tracker : ConstantTracker C) : tracker.Grows tracker :=
  fun _ _ h => h

theorem Grows.trans {t₁ t₂ t₃ : ConstantTracker C} (h : t₁.Grows t₂) (h' : t₂.Grows t₃) :
    t₁.Grows t₃ := fun id constant hc => h' id constant (h id constant hc)

theorem wellFormed_new : (new : ConstantTracker C).WellFormed := by
  intro constant id
  simp [new, getId, getConstant]

variable {tracker : ConstantTracker C}

/-- A constant that is already there gets its old identifier. -/
theorem insert_of_getId {constant : C} {id : ℕ}
    (h : tracker.getId constant = some id) : tracker.insert constant = (tracker, id) := by
  rw [insert, h]

theorem insert_of_notMem {constant : C} (h : tracker.getId constant = none) :
    tracker.insert constant =
      (⟨tracker.lookup.insert constant tracker.constants.length, tracker.constants ++ [constant]⟩,
        tracker.constants.length) := by
  rw [insert, h]

theorem grows_insert (tracker : ConstantTracker C) (constant : C) :
    tracker.Grows (tracker.insert constant).1 := by
  intro id c hc
  cases h : tracker.getId constant with
  | some id' => rwa [insert_of_getId h]
  | none =>
    rw [insert_of_notMem h]
    obtain ⟨hlt, -⟩ := List.getElem?_eq_some_iff.mp hc
    rw [getConstant, List.getElem?_append_left hlt]
    exact hc

theorem WellFormed.insert (h : tracker.WellFormed) (constant : C) : (tracker.insert constant).1.WellFormed := by
  cases hc : tracker.getId constant with
  | some id => rwa [insert_of_getId hc]
  | none =>
    rw [insert_of_notMem hc]
    intro c id
    have hold := h c id
    simp only [getId, getConstant] at hold ⊢
    rcases lt_trichotomy id tracker.constants.length with hlt | rfl | hgt
    · rw [List.getElem?_append_left hlt, ← hold]
      by_cases hcc : c = constant
      · subst hcc
        rw [AList.lookup_insert]
        simp only [getId] at hc
        simp [hc, hlt.ne']
      · rw [AList.lookup_insert_ne hcc]
    · rw [List.getElem?_concat_length, Option.some.injEq]
      by_cases hcc : c = constant
      · subst hcc
        simp
      · rw [AList.lookup_insert_ne hcc, hold]
        simp [Ne.symm hcc]
    · have hnone : (tracker.constants ++ [constant])[id]? = none := by simp; omega
      rw [hnone]
      by_cases hcc : c = constant
      · subst hcc
        rw [AList.lookup_insert]
        simp [hgt.ne]
      · rw [AList.lookup_insert_ne hcc, hold]
        simp [hgt.le]

/-- The identifier leads back to the constant. -/
theorem WellFormed.getConstant_insert (h : tracker.WellFormed) (constant : C) :
    (tracker.insert constant).1.getConstant (tracker.insert constant).2 = some constant := by
  cases hc : tracker.getId constant with
  | some id =>
    rw [insert_of_getId hc]
    exact (h constant id).mp hc
  | none =>
    rw [insert_of_notMem hc]
    exact List.getElem?_concat_length

end ConstantTracker

end Circom
