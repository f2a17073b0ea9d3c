import Circom.ConstraintList.Proofs.Eliminations

/-!
# What the constraints say about the forbidden signals

An elimination keeps what the constraints say about the forbidden signals, after the replaced signals are
gone from all constraints.
-/

namespace Circom.ConstraintList

open Circom.Algebra (Constraint)
open Circom.Algebra.SimplificationUtils (Rewrites find_fromSignal replaced mem_replaced)
open Circom.Lib (exists_of_forall₂_left exists_of_forall₂_right exists_iff_of_defined)

variable {p : ℕ} {forbidden : Finset ℕ}
variable {deleted : Finset ℕ} {l l' : List C} {maxSignal : ℕ}

/-- The values of the forbidden signals extend to an assignment that satisfies the constraints. -/
def Extends (forbidden : Finset ℕ) (σ : ℕ → ZMod p) (constraints : List C) : Prop :=
  ∃ ρ : ℕ → ZMod p, (∀ k ∈ forbidden, ρ k = σ k) ∧ ∀ c ∈ constraints, c.Sat ρ

/-- The signals of the constraints are below `maxSignal` and not deleted. -/
def Within (maxSignal : ℕ) (deleted : Finset ℕ) (constraints : List C) : Prop :=
  ∀ k, k ≠ 0 → Occurs constraints k → k < maxSignal ∧ k ∉ deleted

theorem within_iff {constraints : List C} :
    Within maxSignal deleted constraints ↔
      ∀ c ∈ constraints, ∀ k ∈ c.takeClonedSignals, k < maxSignal ∧ k ∉ deleted := by
  constructor
  · intro h c hc k hk
    obtain ⟨hk0, hm⟩ := Constraint.mem_takeClonedSignals.mp hk
    exact h k hk0 ⟨c, hc, hm⟩
  · rintro h k hk0 ⟨c, hc, hm⟩
    exact h c hc k (Constraint.mem_takeClonedSignals.mpr ⟨hk0, hm⟩)

theorem Extends.congr (σ : ℕ → ZMod p) (h0 : 0 ∈ forbidden) (hσ : σ 0 = 1)
    (h : ∀ ρ : ℕ → ZMod p, ρ 0 = 1 → ((∀ c ∈ l, c.Sat ρ) ↔ ∀ c ∈ l', c.Sat ρ)) :
    Extends forbidden σ l ↔ Extends forbidden σ l' := by
  refine exists_congr fun ρ => and_congr_right fun hfixed => h ρ ?_
  rw [hfixed 0 h0, hσ]

theorem Within.mono (h : Within maxSignal deleted l) (hsub : ∀ k, Occurs l' k → k = 0 ∨ Occurs l k) :
    Within maxSignal deleted l' := by
  intro k hk hocc
  exact h k hk ((hsub k hocc).resolve_left hk)

theorem occurs_of_perm (h : l.Perm l') {k : ℕ} : Occurs l k ↔ Occurs l' k :=
  exists_congr fun _ => and_congr_left fun _ => h.mem_iff

theorem sat_of_perm (h : l.Perm l') (ρ : ℕ → ZMod p) : (∀ c ∈ l, c.Sat ρ) ↔ ∀ c ∈ l', c.Sat ρ :=
  forall_congr' fun _ => imp_congr_left h.mem_iff

/-! ## Rewriting lists -/

theorem sat_iff_of_rewrites {subs : List S} (h : List.Forall₂ (Rewrites p subs) l l') {ρ : ℕ → ZMod p} (h1 : ρ 0 = 1)
    (hsubs : ∀ s ∈ subs, s.Holds ρ) : (∀ c ∈ l', c.Sat ρ) ↔ ∀ c ∈ l, c.Sat ρ := by
  constructor
  · intro hall c hc
    obtain ⟨c', hc', hrew⟩ := exists_of_forall₂_left h hc
    exact (hrew.sat_iff ρ h1 hsubs).mp (hall c' hc')
  · intro hall c' hc'
    obtain ⟨c, hc, hrew⟩ := exists_of_forall₂_right h hc'
    exact (hrew.sat_iff ρ h1 hsubs).mpr (hall c hc)

/-- Applying the substitutions of signals that are in use is as good as applying all. -/
theorem rewrites_of_filter {subs : List S} {P : S → Bool} {c c' : C}
    (hP : ∀ s ∈ subs, c.Mentions s.fromSignal → P s) (h : Rewrites p (subs.filter P) c c') :
    Rewrites p subs c c' := by
  refine ⟨?_, ?_, h.coeffs⟩
  · intro ρ h1 hsubs
    exact h.sat_iff ρ h1 fun s hs => hsubs s (List.mem_filter.mp hs).1
  · intro k hk
    rcases h.mentions k hk with h0 | ⟨hck, hnot⟩ | ⟨s, hs, hcs, hks⟩
    · exact Or.inl h0
    · refine Or.inr (Or.inl ⟨hck, ?_⟩)
      intro hmem
      obtain ⟨s, hs, rfl⟩ := mem_replaced.mp hmem
      exact hnot (mem_replaced.mpr ⟨s, List.mem_filter.mpr ⟨hs, hP s hs hck⟩, rfl⟩)
    · exact Or.inr (Or.inr ⟨s, (List.mem_filter.mp hs).1, hcs, hks⟩)

/-! ## One phase -/

namespace Eliminates

variable {before : List C} {subs : List S} {cons others source middle after : List C}

theorem notMem_replaced (h : Eliminates p forbidden before subs cons) (h0 : 0 ∈ forbidden)
    (hall : List.Forall₂ (Rewrites p subs) middle after) {k : ℕ} (hk : Occurs after k) :
    k ∉ replaced subs := by
  obtain ⟨c', hc', hk⟩ := hk
  obtain ⟨c, -, hrew⟩ := exists_of_forall₂_right hall hc'
  exact hrew.notMem_replaced (h.independent h0) hk

/-- The constraints `source` are the ones of the phase and others; `middle` is what is rewritten. -/
theorem within (h : Eliminates p forbidden before subs cons) (h0 : 0 ∈ forbidden)
    (hsource : source.Perm (before ++ others)) (hmiddle : middle.Perm (cons ++ others))
    (hall : List.Forall₂ (Rewrites p subs) middle after)
    (hw : Within maxSignal deleted source) : Within maxSignal (deleted ∪ replaced subs) after := by
  intro k hk hocc
  have hnot := h.notMem_replaced h0 hall hocc
  obtain ⟨c', hc', hkc⟩ := hocc
  obtain ⟨c, hc, hrew⟩ := exists_of_forall₂_right hall hc'
  have hbefore : Occurs before k → Occurs source k := fun hocc =>
    (occurs_of_perm hsource).mpr (Occurs.append.mpr (Or.inl hocc))
  have hsourceOccurs : Occurs source k := by
    rcases hrew.mentions k hkc with rfl | ⟨hck, -⟩ | ⟨s, hs, -, hks⟩
    · exact absurd rfl hk
    · rcases Occurs.append.mp ((occurs_of_perm hmiddle).mp ⟨c, hc, hck⟩) with hocc | hocc
      · exact hbefore ((h.restKnown k hocc).resolve_left hk)
      · exact (occurs_of_perm hsource).mpr (Occurs.append.mpr (Or.inr hocc))
    · exact hbefore ((h.toKnown s hs k hks).resolve_left hk)
  obtain ⟨hlt, hdeleted⟩ := hw k hk hsourceOccurs
  refine ⟨hlt, ?_⟩
  rw [Finset.mem_union]
  rintro (hmem | hmem)
  · exact hdeleted hmem
  · exact hnot hmem

/-- The replaced signals are not forbidden. -/
theorem disjoint_replaced (h : Eliminates p forbidden before subs cons) :
    Disjoint forbidden (replaced subs) := by
  rw [Finset.disjoint_left]
  intro k hk hmem
  obtain ⟨s, hs, rfl⟩ := mem_replaced.mp hmem
  exact h.takeable s hs hk

/-- A phase keeps what the constraints say about the forbidden signals. -/
theorem extends_iff (h : Eliminates p forbidden before subs cons) (h0 : 0 ∈ forbidden)
    (hsource : source.Perm (before ++ others)) (hmiddle : middle.Perm (cons ++ others))
    (hall : List.Forall₂ (Rewrites p subs) middle after) (σ : ℕ → ZMod p) (hσ : σ 0 = 1) :
    Extends forbidden σ source ↔ Extends forbidden σ after := by
  let value : ℕ → (ℕ → ZMod p) → ZMod p := fun k ρ =>
    ((subs.find? fun s => s.fromSignal = k).map fun s => s.toExpr.eval ρ).getD 0
  have hvalue : ∀ s ∈ subs, ∀ ρ, value s.fromSignal ρ = s.toExpr.eval ρ := by
    intro s hs ρ
    simp only [value, find_fromSignal h.nodup hs, Option.map_some, Option.getD_some]
  have hholds : ∀ ρ : ℕ → ZMod p,
      (∀ s ∈ subs, s.Holds ρ) ↔ ∀ k ∈ (replaced subs : Set ℕ), ρ k = value k ρ := by
    intro ρ
    constructor
    · intro hsubs k hk
      obtain ⟨s, hs, rfl⟩ := mem_replaced.mp (Finset.mem_coe.mp hk)
      rw [hvalue s hs]
      exact hsubs s hs
    · intro hall s hs
      have := hall s.fromSignal (Finset.mem_coe.mpr (mem_replaced.mpr ⟨s, hs, rfl⟩))
      rwa [hvalue s hs] at this
  have hproject := exists_iff_of_defined value σ (Finset.disjoint_coe.mpr h.disjoint_replaced)
    (P := fun ρ : ℕ → ZMod p => ∀ c ∈ after, c.Sat ρ) ?_ ?_
  · rw [Extends, Extends]
    simp only [Finset.mem_coe] at hproject
    rw [← hproject]
    refine exists_congr fun ρ => and_congr_right fun hfixed => ?_
    have h1 : ρ 0 = 1 := by rw [hfixed 0 h0, hσ]
    have hholds' := hholds ρ
    simp only [Finset.mem_coe] at hholds'
    rw [← hholds', sat_of_perm hsource, List.forall_mem_append, ← h.sat_iff ρ h1]
    constructor
    · rintro ⟨⟨hsubs, hcons⟩, hothers⟩
      refine ⟨hsubs, (sat_iff_of_rewrites hall h1 hsubs).mpr ((sat_of_perm hmiddle ρ).mpr ?_)⟩
      exact List.forall_mem_append.mpr ⟨hcons, hothers⟩
    · rintro ⟨hsubs, hafter⟩
      obtain ⟨hcons, hothers⟩ := List.forall_mem_append.mp
        ((sat_of_perm hmiddle ρ).mp ((sat_iff_of_rewrites hall h1 hsubs).mp hafter))
      exact ⟨⟨hsubs, hcons⟩, hothers⟩
  · intro k hk ρ ρ' hagree
    obtain ⟨s, hs, rfl⟩ := mem_replaced.mp (Finset.mem_coe.mp hk)
    rw [hvalue s hs, hvalue s hs]
    refine AList.eval_congr ?_
    intro t ht
    refine hagree t ?_
    rw [Set.mem_compl_iff, Finset.mem_coe]
    intro hmem
    obtain ⟨u, hu, rfl⟩ := mem_replaced.mp hmem
    exact h.free u hu s hs ht
  · intro ρ ρ' hagree
    refine propext (forall₂_congr fun c hc => Constraint.sat_congr ?_)
    intro k hk
    exact hagree k fun hmem => h.notMem_replaced h0 hall ⟨c, hc, hk⟩ (Finset.mem_coe.mp hmem)

end Eliminates

end Circom.ConstraintList
