import Circom.Lib.HashMap
import Mathlib.Order.Defs.Unbundled

/-!
# Scopes

A list of tables, the innermost scope first: a key means its entry in the innermost scope that has it. The
file says how a computation can change such a list when it only assigns to some keys and declares others.
-/

namespace Circom.Lib

variable {K V W : Type*} [DecidableEq K]
variable {scope : HashMap K V} {k : K} {i : ℕ}

abbrev Scopes (K V : Type*) := List (HashMap K V)

namespace Scopes

/-- The entry of a key in the `i`-th scope. -/
def entry (s : Scopes K V) (i : ℕ) (k : K) : Option V := s[i]?.bind fun scope => scope.lookup k

/-- The `i`-th scope is the one in which the key is found. -/
def Innermost (s : Scopes K V) (i : ℕ) (k : K) : Prop :=
  (s.entry i k).isSome ∧ ∀ j < i, s.entry j k = none

/-- The scopes have the same keys. -/
def SameKeys (s : Scopes K V) (t : Scopes K W) : Prop :=
  s.length = t.length ∧ ∀ i k, (s.entry i k).isSome = (t.entry i k).isSome

@[simp] theorem entry_nil (i : ℕ) (k : K) : entry ([] : Scopes K V) i k = none := rfl

@[simp] theorem entry_cons_zero (scope : HashMap K V) (s : Scopes K V) (k : K) :
    entry (scope :: s) 0 k = scope.lookup k := rfl

@[simp] theorem entry_cons_succ (scope : HashMap K V) (s : Scopes K V) (i : ℕ) (k : K) :
    entry (scope :: s) (i + 1) k = entry s i k := rfl

theorem entry_tail (s : Scopes K V) (i : ℕ) (k : K) : entry s.tail i k = s.entry (i + 1) k := by
  cases s with
  | nil => rfl
  | cons scope s => rfl

/-! ## The scope of a key -/

variable {s : Scopes K V}

theorem innermost_zero_cons : Innermost (scope :: s) 0 k ↔ k ∈ scope := by
  simp [Innermost, AList.lookup_isSome]

theorem innermost_succ_cons : Innermost (scope :: s) (i + 1) k ↔ k ∉ scope ∧ Innermost s i k := by
  constructor
  · rintro ⟨hi, hlt⟩
    refine ⟨AList.lookup_eq_none.mp (hlt 0 (Nat.succ_pos i)), hi, fun j hj => ?_⟩
    exact hlt (j + 1) (Nat.succ_lt_succ hj)
  · rintro ⟨hk, hi, hlt⟩
    refine ⟨hi, fun j hj => ?_⟩
    cases j with
    | zero => exact AList.lookup_eq_none.mpr hk
    | succ j => exact hlt j (Nat.lt_of_succ_lt_succ hj)

theorem Innermost.unique {j : ℕ} (hi : s.Innermost i k) (hj : s.Innermost j k) : i = j := by
  rcases Nat.lt_trichotomy i j with h | h | h
  · have := hi.1
    rw [hj.2 i h] at this
    simp at this
  · exact h
  · have := hj.1
    rw [hi.2 j h] at this
    simp at this

theorem SameKeys.refl (s : Scopes K V) : SameKeys s s := ⟨rfl, fun _ _ => rfl⟩

variable {t : Scopes K W}

theorem SameKeys.symm (h : SameKeys s t) : SameKeys t s :=
  ⟨h.1.symm, fun i k => (h.2 i k).symm⟩

theorem SameKeys.trans {U : Type*} {u : Scopes K U} (h : SameKeys s t) (h' : SameKeys t u) : SameKeys s u :=
  ⟨h.1.trans h'.1, fun i k => (h.2 i k).trans (h'.2 i k)⟩

theorem SameKeys.innermost (h : SameKeys s t) : s.Innermost i k ↔ t.Innermost i k := by
  have hnone : ∀ j, s.entry j k = none ↔ t.entry j k = none := by
    intro j
    rw [← Option.not_isSome_iff_eq_none, ← Option.not_isSome_iff_eq_none, h.2 j k]
  simp only [Innermost, h.2 i k, hnone]

/-! ## Changes -/

/-- From `s` to `s'` the keys `declared` were put into the top scope, and entries of the keys `assigned` were
changed where these were found. The relation `r` says which changes of an entry do not count. -/
structure Grows (r : Option V → Option V → Prop) (assigned declared : K → Prop) (s s' : Scopes K V) :
    Prop where
  length : s'.length = s.length
  keys : ∀ i k, (s'.entry i k).isSome ↔ (s.entry i k).isSome ∨ i = 0 ∧ declared k
  entries : ∀ i k, r (s.entry i k) (s'.entry i k) ∨ assigned k ∧ s.Innermost i k ∨ i = 0 ∧ declared k

variable {r : Option V → Option V → Prop} {assigned assigned' declared declared' : K → Prop}
  {s s' s'' : Scopes K V}

theorem Grows.refl [Std.Refl r] (s : Scopes K V) : Grows r assigned (fun _ => False) s s where
  length := rfl
  keys i k := by simp
  entries i k := Or.inl (Std.Refl.refl _)

theorem Grows.mono (h : Grows r assigned declared s s') (hassigned : ∀ k, assigned k → assigned' k) :
    Grows r assigned' declared s s' where
  length := h.length
  keys := h.keys
  entries i k := by
    rcases h.entries i k with h | ⟨hk, hi⟩ | h
    · exact Or.inl h
    · exact Or.inr (Or.inl ⟨hassigned k hk, hi⟩)
    · exact Or.inr (Or.inr h)

theorem Grows.congr (h : Grows r assigned declared s s') (hdeclared : ∀ k, declared k ↔ declared' k) :
    Grows r assigned declared' s s' where
  length := h.length
  keys i k := by rw [h.keys, hdeclared]
  entries i k := by rw [← hdeclared]; exact h.entries i k

theorem Grows.sameKeys (h : Grows r assigned (fun _ => False) s s') : SameKeys s s' := by
  refine ⟨h.length.symm, fun i k => ?_⟩
  rw [Bool.eq_iff_iff, h.keys]
  simp

/-- Where a key that was not declared is found. -/
theorem Grows.innermost (h : Grows r assigned declared s s') (hk : ¬ declared k) :
    s'.Innermost i k ↔ s.Innermost i k := by
  have hkeys : ∀ j, (s'.entry j k).isSome ↔ (s.entry j k).isSome := by
    intro j
    rw [h.keys]
    simp [hk]
  have hnone : ∀ j, s'.entry j k = none ↔ s.entry j k = none := by
    intro j
    rw [← Option.not_isSome_iff_eq_none, ← Option.not_isSome_iff_eq_none, hkeys]
  simp only [Innermost, hkeys, hnone]

/-- The keys that the first computation declares hide those that the second one assigns to. -/
theorem Grows.trans [IsTrans _ r] (h : Grows r assigned declared s s')
    (h' : Grows r assigned' declared' s' s'') :
    Grows r (fun k => assigned k ∨ assigned' k ∧ ¬ declared k) (fun k => declared k ∨ declared' k) s s'' where
  length := h'.length.trans h.length
  keys i k := by rw [h'.keys, h.keys]; tauto
  entries i k := by
    by_cases hk : declared k
    · by_cases hi : i = 0
      · exact Or.inr (Or.inr ⟨hi, Or.inl hk⟩)
      · -- the key is found in the top scope, so that its other entries stay
        have hstay : ¬ s'.Innermost i k := by
          intro hinner
          rcases hinner with ⟨-, hlt⟩
          have := (h.keys 0 k).mpr (Or.inr ⟨rfl, hk⟩)
          rw [hlt 0 (Nat.pos_of_ne_zero hi)] at this
          simp at this
        have hsecond : r (s'.entry i k) (s''.entry i k) := by
          rcases h'.entries i k with hr | ⟨-, hinner⟩ | ⟨hzero, -⟩
          · exact hr
          · exact absurd hinner hstay
          · exact absurd hzero hi
        rcases h.entries i k with hr | ⟨hassigned, hinner⟩ | ⟨hzero, -⟩
        · exact Or.inl (IsTrans.trans _ _ _ hr hsecond)
        · exact Or.inr (Or.inl ⟨Or.inl hassigned, hinner⟩)
        · exact absurd hzero hi
    · rcases h.entries i k with hr | ⟨hassigned, hinner⟩ | ⟨-, hdeclared⟩
      · rcases h'.entries i k with hr' | ⟨hassigned, hinner⟩ | ⟨hi, hdeclared⟩
        · exact Or.inl (IsTrans.trans _ _ _ hr hr')
        · exact Or.inr (Or.inl ⟨Or.inr ⟨hassigned, hk⟩, (h.innermost hk).mp hinner⟩)
        · exact Or.inr (Or.inr ⟨hi, Or.inr hdeclared⟩)
      · exact Or.inr (Or.inl ⟨Or.inl hassigned, hinner⟩)
      · exact absurd hdeclared hk

/-- A computation in a scope of its own declares nothing in the scopes around it. -/
theorem Grows.leave (h : Grows r assigned declared (scope :: s) s') :
    Grows r assigned (fun _ => False) s s'.tail where
  length := by rw [List.length_tail, h.length]; rfl
  keys i k := by
    rw [entry_tail, h.keys, entry_cons_succ]
    simp
  entries i k := by
    have hentries := h.entries (i + 1) k
    rw [entry_cons_succ] at hentries
    rw [entry_tail]
    rcases hentries with hr | ⟨hassigned, hinner⟩ | ⟨hzero, -⟩
    · exact Or.inl hr
    · exact Or.inr (Or.inl ⟨hassigned, (innermost_succ_cons.mp hinner).2⟩)
    · exact absurd hzero (Nat.succ_ne_zero i)

end Scopes

end Circom.Lib
