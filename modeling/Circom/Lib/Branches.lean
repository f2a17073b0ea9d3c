import Mathlib.Data.List.Infix
import Mathlib.Data.List.Triplewise
import Mathlib.Tactic.Common

/-!
# Paths through conditionals

A path lists the conditionals that enclose a statement, outermost first, with the branch that is taken. A
history is the list of the paths of statements that were executed one after the other, and a path that is
stored for a history stands for all of it.
-/

namespace Circom.Lib

variable {ι : Type}

abbrev Path (ι : Type) := List (ι × Bool)

/-- The valuation of the conditions takes the path. -/
def Takes (v : ι → Bool) (p : Path ι) : Prop := ∀ c ∈ p, v c.1 = c.2

instance (v : ι → Bool) (p : Path ι) : Decidable (Takes v p) := by
  unfold Takes
  infer_instance

/-- The paths contain a conditional with opposite branches. -/
def Opposite (p q : Path ι) : Prop := ∃ id branch, (id, branch) ∈ p ∧ (id, !branch) ∈ q

/-- The paths part at a conditional behind a common beginning. -/
def Parts (p q : Path ι) : Prop :=
  ∃ pre id branch, pre ++ [(id, branch)] <+: p ∧ pre ++ [(id, !branch)] <+: q

/-- The last path comes back to a branch of the first one that the second one has left. -/
def Reenters (p q r : Path ι) : Prop :=
  ∃ pre id branch, pre ++ [(id, branch)] <+: p ∧ pre ++ [(id, !branch)] <+: q ∧
    pre ++ [(id, branch)] <+: r

section Paths

variable {v : ι → Bool} {p q r pre : Path ι} {id : ι} {branch : Bool}

theorem takes_append : Takes v (p ++ q) ↔ Takes v p ∧ Takes v q := by
  simp only [Takes, List.mem_append]
  exact ⟨fun h => ⟨fun c hc => h c (Or.inl hc), fun c hc => h c (Or.inr hc)⟩,
    fun h c hc => hc.elim (h.1 c) (h.2 c)⟩

theorem takes_concat : Takes v (pre ++ [(id, branch)]) ↔ Takes v pre ∧ v id = branch := by
  rw [takes_append]
  simp [Takes]

theorem mem_of_concat_prefix (h : pre ++ [(id, branch)] <+: p) : (id, branch) ∈ p :=
  h.subset (by simp)

theorem Parts.opposite (h : Parts p q) : Opposite p q := by
  obtain ⟨pre, id, branch, hp, hq⟩ := h
  exact ⟨id, branch, mem_of_concat_prefix hp, mem_of_concat_prefix hq⟩

theorem Opposite.not_takes (h : Opposite p q) (hq : Takes v q) : ¬ Takes v p := by
  obtain ⟨id, branch, hp, hq'⟩ := h
  intro htakes
  have h1 := htakes _ hp
  have h2 := hq _ hq'
  simp only at h1 h2
  rw [h1] at h2
  cases branch <;> cases h2

/-- Two paths that part from a third one do so at the same place, or one of them first. -/
theorem prefix_trichotomy {pre' : Path ι} {c c' : ι × Bool} (h : pre ++ [c] <+: p)
    (h' : pre' ++ [c'] <+: p) : pre' ++ [c'] <+: pre ∨ (pre' = pre ∧ c' = c) ∨ pre ++ [c] <+: pre' := by
  rcases Nat.lt_trichotomy pre'.length pre.length with hlt | heq | hgt
  · exact Or.inl (List.prefix_of_prefix_length_le h' ((List.prefix_append pre [c]).trans h)
      (by simp only [List.length_append, List.length_singleton]; omega))
  · have hpre : pre' ++ [c'] = pre ++ [c] :=
      (List.prefix_of_prefix_length_le h' h (by simp [heq])).eq_of_length (by simp [heq])
    obtain ⟨rfl, hc⟩ := List.append_inj' hpre rfl
    exact Or.inr (Or.inl ⟨rfl, List.singleton_inj.mp hc⟩)
  · exact Or.inr (Or.inr (List.prefix_of_prefix_length_le h ((List.prefix_append pre' [c']).trans h')
      (by simp only [List.length_append, List.length_singleton]; omega)))

end Paths

/-! ## Stored paths -/

/-- No branch is entered again after its opposite was. -/
def NoReentry (history : List (Path ι)) : Prop := history.Triplewise fun p q r => ¬ Reenters p q r

/-- The stored path stands for the history: the paths of the history that do not extend it part from it,
and if it is taken, one of them is. -/
structure Remembers (stored : Path ι) (history : List (Path ι)) : Prop where
  last : ∃ earlier final, history = earlier ++ [final] ∧ stored <+: final
  related : ∀ p ∈ history, stored <+: p ∨ Parts p stored
  opposite : history.Pairwise Opposite
  once : ∀ v, Takes v stored → history.countP (fun p => Takes v p) = 1

namespace Remembers

variable {stored new pre rest rest' : Path ι} {history : List (Path ι)} {id : ι} {branch : Bool}

theorem first (p : Path ι) : Remembers p [p] where
  last := ⟨[], p, rfl, List.prefix_refl p⟩
  related q hq := Or.inl (by rw [List.mem_singleton.mp hq])
  opposite := List.pairwise_singleton _ _
  once v h := by simp [h]

/-- Where a new path leaves the stored one, the earlier paths either extend the stored path that far, or
they parted before that. -/
theorem related_new (h : Remembers (pre ++ (id, branch) :: rest) history)
    (hnew : pre ++ [(id, !branch)] <+: new) (hreentry : NoReentry (history ++ [new])) {p : Path ι}
    (hp : p ∈ history) : pre ++ [(id, branch)] <+: p ∨ Parts p pre := by
  have hstored : pre ++ [(id, branch)] <+: pre ++ (id, branch) :: rest := by simp
  rcases h.related p hp with hext | ⟨pre', id', branch', hp', hs'⟩
  · exact Or.inl (hstored.trans hext)
  · rcases prefix_trichotomy hstored hs' with hlt | ⟨rfl, hc⟩ | hgt
    · exact Or.inr ⟨pre', id', branch', hp', hlt⟩
    · -- an earlier path was in the branch of the new one, and the last path was not
      obtain ⟨rfl, hbranch⟩ := Prod.mk.inj hc
      obtain ⟨earlier, final, rfl, hfinal⟩ := h.last
      have hne : p ≠ final := by
        rintro rfl
        have h1 := List.prefix_of_prefix_length_le hp' (hstored.trans hfinal) (by simp)
        have h2 := h1.eq_of_length (by simp)
        simp only [List.append_cancel_left_eq, List.cons.injEq, Prod.mk.injEq, true_and, and_true] at h2
        rw [h2] at hbranch
        cases branch <;> cases hbranch
      have hearlier : p ∈ earlier := by
        rcases List.mem_append.mp hp with hp | hp
        · exact hp
        · exact absurd (List.mem_singleton.mp hp) hne
      have htriple := (List.triplewise_append.mp hreentry).2.2.2 new (by simp)
      have hpair := (List.pairwise_append.mp htriple).2.2 p hearlier final (by simp)
      refine absurd ⟨pre', id', branch', hp', ?_, ?_⟩ hpair
      · rw [hbranch]
        exact hstored.trans hfinal
      · rw [← hbranch, Bool.not_not] at hnew
        exact hnew
    · exact Or.inl ((hgt.trans (List.prefix_append pre' _)).trans hp')

theorem opposite_new (h : Remembers (pre ++ (id, branch) :: rest) history)
    (hnew : pre ++ [(id, !branch)] <+: new) (hreentry : NoReentry (history ++ [new])) {p : Path ι}
    (hp : p ∈ history) : Parts p new := by
  rcases h.related_new hnew hreentry hp with hext | ⟨pre', id', branch', hp', hpre⟩
  · exact ⟨pre, id, branch, hext, hnew⟩
  · exact ⟨pre', id', branch', hp', (hpre.trans (List.prefix_append pre _)).trans hnew⟩

theorem pairwise_new (h : Remembers (pre ++ (id, branch) :: rest) history)
    (hnew : pre ++ [(id, !branch)] <+: new) (hreentry : NoReentry (history ++ [new])) :
    (history ++ [new]).Pairwise Opposite := by
  refine List.pairwise_append.mpr ⟨h.opposite, List.pairwise_singleton _ _, fun p hp q hq => ?_⟩
  rw [List.mem_singleton.mp hq]
  exact (h.opposite_new hnew hreentry hp).opposite

/-- The new path is stored when it leaves the stored one somewhere. -/
theorem overwrite (h : Remembers (pre ++ (id, branch) :: rest) history)
    (hnew : pre ++ [(id, !branch)] <+: new) (hreentry : NoReentry (history ++ [new])) :
    Remembers new (history ++ [new]) where
  last := ⟨history, new, rfl, List.prefix_refl new⟩
  related p hp := by
    rcases List.mem_append.mp hp with hp | hp
    · exact Or.inr (h.opposite_new hnew hreentry hp)
    · rw [List.mem_singleton.mp hp]
      exact Or.inl (List.prefix_refl new)
  opposite := h.pairwise_new hnew hreentry
  once v hv := by
    have hnone : history.countP (fun p => Takes v p) = 0 := by
      rw [List.countP_eq_zero]
      intro p hp
      simp only [decide_eq_true_eq]
      exact (h.opposite_new hnew hreentry hp).opposite.not_takes hv
    simp [List.countP_append, hnone, hv]

/-- When the new path ends in the other branch of the last conditional, both branches are there. -/
theorem merge (h : Remembers (pre ++ [(id, branch)]) history)
    (hreentry : NoReentry (history ++ [pre ++ [(id, !branch)]])) :
    Remembers pre (history ++ [pre ++ [(id, !branch)]]) where
  last := ⟨history, _, rfl, List.prefix_append pre _⟩
  related p hp := by
    rcases List.mem_append.mp hp with hp | hp
    · rcases h.related_new (List.prefix_refl _) hreentry hp with hext | hparts
      · exact Or.inl ((List.prefix_append pre _).trans hext)
      · exact Or.inr hparts
    · rw [List.mem_singleton.mp hp]
      exact Or.inl (List.prefix_append pre _)
  opposite := h.pairwise_new (List.prefix_refl _) hreentry
  once v hv := by
    rw [List.countP_append]
    by_cases hid : v id = branch
    · have hstored : Takes v (pre ++ [(id, branch)]) := takes_concat.mpr ⟨hv, hid⟩
      have hnew : ¬ Takes v (pre ++ [(id, !branch)]) := by
        rw [takes_concat, hid]
        cases branch <;> simp
      simp [h.once v hstored, hnew]
    · have hnew : Takes v (pre ++ [(id, !branch)]) := by
        refine takes_concat.mpr ⟨hv, ?_⟩
        cases hval : v id <;> cases branch <;> simp_all
      have hnone : history.countP (fun p => Takes v p) = 0 := by
        rw [List.countP_eq_zero]
        intro p hp
        simp only [decide_eq_true_eq]
        exact (h.opposite_new (List.prefix_refl _) hreentry hp).opposite.not_takes hnew
      simp [hnone, hnew]

end Remembers

end Circom.Lib
