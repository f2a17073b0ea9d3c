import Circom.Algebra.Proofs.Pivot
import Circom.Lib.EliminationOrder

/-!
# The elimination loops

Both heuristics work on a table of pivots and a list of constraints that nothing can be eliminated
from. One round of a loop either stores a new pivot or merges the work with the stored one; the
solutions stay the same and the work loses its heaviest eliminated signal, so the loop ends.
-/

namespace Circom.Algebra.SimplificationUtils

open Circom.Lib (HashMap HashOrder weight weight_lt_weight weight_lt_two_pow)

variable {p : ℕ} {forbidden : Finset ℕ} {known : Set ℕ}
variable {work : C} {lconst : List C} {holder : SHNotNormalized} {out : ℕ}

/-! ## What both loops keep -/

/-- A constraint of the system: reduced, and over the known signals. -/
def Admissible (p : ℕ) (known : Set ℕ) (c : C) : Prop := c.Reduced p ∧ ∀ k ∈ c.c, k ∈ known

/-- The pivots are solved for takeable signals; in the rest no signal can be taken. -/
structure Eliminated (p : ℕ) (forbidden : Finset ℕ) (known : Set ℕ) (holder : SHNotNormalized)
    (lconst : List C) : Prop where
  pivot : ∀ k e, holder.lookup k = some e → e.2.fromSignal = k ∧ k ∉ forbidden ∧ PivotOk p e
  pivotKnown : ∀ k e, holder.lookup k = some e → k ∈ known ∧ ∀ y ∈ e.2.toExpr, y ∈ known
  rest : ∀ c ∈ lconst, Admissible p known c ∧ ∀ k ∈ c.c, k ∈ forbidden

/-- An assignment satisfies the pivots and the rest. -/
def Solution (ρ : ℕ → ZMod p) (holder : SHNotNormalized) (lconst : List C) : Prop :=
  (∀ k e, holder.lookup k = some e → PivotHolds ρ e) ∧ ∀ c ∈ lconst, c.Sat ρ

theorem Eliminated.empty : Eliminated p forbidden known ∅ [] :=
  ⟨fun k e h => by simp at h, fun k e h => by simp at h, fun c h => by simp at h⟩

theorem solution_empty (ρ : ℕ → ZMod p) : Solution ρ ∅ [] :=
  ⟨fun k e h => by simp at h, fun c h => by simp at h⟩

theorem Eliminated.push (h : Eliminated p forbidden known holder lconst) (hw : Admissible p known work)
    (hf : ∀ k ∈ work.c, k ∈ forbidden) : Eliminated p forbidden known holder (lconst ++ [work]) := by
  refine ⟨h.pivot, h.pivotKnown, fun c hc => ?_⟩
  rcases List.mem_append.mp hc with hc | hc
  · exact h.rest c hc
  · obtain rfl := List.mem_singleton.mp hc
    exact ⟨hw, hf⟩

theorem solution_push (ρ : ℕ → ZMod p) (holder : SHNotNormalized) (lconst : List C) (work : C) :
    Solution ρ holder (lconst ++ [work]) ↔ Solution ρ holder lconst ∧ work.Sat ρ := by
  simp only [Solution, List.mem_append, List.mem_singleton, or_imp, forall_and, forall_eq, and_assoc]

theorem Eliminated.insert (h : Eliminated p forbidden known holder lconst) {e : ℤ × S} (hfrom : e.2.fromSignal = out)
    (hout : out ∉ forbidden) (hk : out ∈ known) (he : PivotOk p e) (hek : ∀ y ∈ e.2.toExpr, y ∈ known) :
    Eliminated p forbidden known (holder.insert out e) lconst := by
  refine ⟨fun k e' hl => ?_, fun k e' hl => ?_, h.rest⟩
  all_goals
    by_cases hke : k = out
    · subst hke
      rw [AList.lookup_insert, Option.some.injEq] at hl
      subst hl
      first
        | exact ⟨hfrom, hout, he⟩
        | exact ⟨hk, hek⟩
    · rw [AList.lookup_insert_ne hke] at hl
      first
        | exact h.pivot k e' hl
        | exact h.pivotKnown k e' hl

theorem solution_insert (ρ : ℕ → ZMod p) (hout : holder.lookup out = none) (lconst : List C) (e : ℤ × S) :
    Solution ρ (holder.insert out e) lconst ↔ Solution ρ holder lconst ∧ PivotHolds ρ e := by
  constructor
  · rintro ⟨h1, h2⟩
    refine ⟨⟨fun k e' hl => h1 k e' ?_, h2⟩, h1 out e (AList.lookup_insert holder)⟩
    rwa [AList.lookup_insert_ne]
    rintro rfl
    rw [hout] at hl
    cases hl
  · rintro ⟨⟨h1, h2⟩, h3⟩
    refine ⟨fun k e' hl => ?_, h2⟩
    by_cases hke : k = out
    · subst hke
      rw [AList.lookup_insert, Option.some.injEq] at hl
      exact hl ▸ h3
    · rw [AList.lookup_insert_ne hke] at hl
      exact h1 k e' hl

variable [hp : Fact p.Prime]

/-! ## One round -/

/-- Taking a signal out of the work: a signal that is not stored gives a new pivot. -/
theorem insert_round (h : Eliminated p forbidden known holder lconst) (hz : 0 ∈ known) (hw : Admissible p known work)
    (hout : out ∈ work.c) (hforb : out ∉ forbidden) (h0 : 0 ∈ forbidden) (hnone : holder.lookup out = none) :
    ∃ coefficient rest,
      work.clearSignalFromLinearNotNormalized out p = some (coefficient, ⟨out, rest⟩) ∧
      Eliminated p forbidden known (holder.insert out (coefficient, ⟨out, rest⟩)) lconst ∧
      (∀ ρ : ℕ → ZMod p, Solution ρ (holder.insert out (coefficient, ⟨out, rest⟩)) lconst ↔
        Solution ρ holder lconst ∧ work.Sat ρ) ∧
      ∀ k ∈ rest, k = 0 ∨ (k ∈ work.c ∧ k ≠ out) := by
  obtain ⟨coefficient, rest, hclear, hok, hsat, hkeys⟩ :=
    clearSignal_spec hw.1 hout fun h => hforb (h ▸ h0)
  refine ⟨coefficient, rest, hclear, h.insert rfl hforb (hw.2 out hout) hok fun y hy => ?_,
    fun ρ => ?_, hkeys⟩
  · exact (hkeys y hy).elim (fun h => h ▸ hz) fun h => hw.2 y h.1
  · rw [solution_insert ρ hnone, hsat ρ]

/-- A signal that is stored already: the two pivots are merged. -/
theorem merge_round (h : Eliminated p forbidden known holder lconst) (hz : 0 ∈ known) (hw : Admissible p known work)
    (hout : out ∈ work.c) (hforb : out ∉ forbidden) (h0 : 0 ∈ forbidden) {stored : ℤ × S}
    (hstored : holder.lookup out = some stored) :
    ∃ coefficient rest work',
      work.clearSignalFromLinearNotNormalized out p = some (coefficient, ⟨out, rest⟩) ∧
      mergeConflict stored coefficient ⟨out, rest⟩ p = some work' ∧ Admissible p known work' ∧
      (∀ ρ : ℕ → ZMod p, ρ 0 = 1 →
        (Solution ρ holder lconst ∧ work'.Sat ρ ↔ Solution ρ holder lconst ∧ work.Sat ρ)) ∧
      ∀ k ∈ work'.c, k ≠ out ∧ (k = 0 ∨ k ∈ stored.2.toExpr ∨ k ∈ work.c) := by
  obtain ⟨coefficient, rest, hclear, hok, hsat, hkeys⟩ :=
    clearSignal_spec hw.1 hout fun h => hforb (h ▸ h0)
  obtain ⟨hfrom, -, hsok⟩ := h.pivot out stored hstored
  obtain ⟨work', hmerge, hred, hsat', hkeys'⟩ := mergeConflict_spec hsok hfrom hok
  refine ⟨coefficient, rest, work', hclear, hmerge, ⟨hred, fun k hk => ?_⟩, fun ρ h1 => ?_,
    fun k hk => ⟨?_, ?_⟩⟩
  · rcases hkeys' k hk with hk | hk
    · exact (h.pivotKnown out stored hstored).2 k hk
    · exact (hkeys k hk).elim (fun h => h ▸ hz) fun h => hw.2 k h.1
  · refine and_congr_right fun hsol => ?_
    rw [hsat' ρ h1 (hsol.1 out stored hstored), hsat ρ]
  · rintro rfl
    rcases hkeys' k hk with hk | hk
    · exact hsok.fromNotMem (hfrom.symm ▸ hk)
    · exact hok.fromNotMem hk
  · rcases hkeys' k hk with hk | hk
    · exact Or.inr (Or.inl hk)
    · exact (hkeys k hk).imp_right fun h => Or.inr h.1

/-- The merged work is lighter than the one it replaces. -/
theorem merge_weight {order : List ℕ} {work' : C} (hmem : out ∈ order) (hout : out ∈ work.c) (hout' : out ∉ work'.c)
    (hafter : ∀ l₁ l₂, order = l₁ ++ out :: l₂ → ∀ y ∈ l₂, y ∈ work'.c → y ∈ work.c) :
    weight (· ∈ work'.c) order < weight (· ∈ work.c) order := by
  obtain ⟨l₁, l₂, rfl⟩ := List.append_of_mem hmem
  exact weight_lt_weight hout hout' (hafter l₁ l₂ rfl)

end Circom.Algebra.SimplificationUtils
