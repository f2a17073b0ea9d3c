import Circom.Algebra.Proofs.EncodedSubstitutions
import Circom.Algebra.Proofs.FullSimplification
import Circom.ConstraintList.Proofs.Clusters

/-!
# Eliminations

A phase of the simplification turns a list of constraints into substitutions and constraints that are left.
It loses nothing when an assignment satisfies the old constraints exactly if it satisfies both. The clusters
of a phase can be treated one by one, since they share no signal.
-/

namespace Circom.ConstraintList

open Circom.Algebra (Constraint)
open Circom.Algebra.SimplificationUtils (Encodes Independent Rewrites Solved fastEncodedConstraintSubstitution
  fastEncodedConstraintSubstitution_spec fullSimplification fullSimplificationWith_solved replaced
  mem_replaced BlankFactors)
open Circom.Lib (HashMap HashOrder exists_mapM exists_of_forall₂_left exists_of_forall₂_right)

variable {p : ℕ} {forbidden : Finset ℕ}

/-- The key is in some constraint of the list. -/
def Occurs (constraints : List C) (k : ℕ) : Prop := ∃ c ∈ constraints, c.Mentions k

theorem Occurs.append {l l' : List C} {k : ℕ} : Occurs (l ++ l') k ↔ Occurs l k ∨ Occurs l' k := by
  simp only [Occurs, List.mem_append, or_and_right, exists_or]

/-- The constraints `before` are solved for the signals of `subs`, and `cons` is left. -/
structure Eliminates (p : ℕ) (forbidden : Finset ℕ) (before : List C) (subs : List S)
    (cons : List C) : Prop where
  nodup : (subs.map fun s => s.fromSignal).Nodup
  takeable : ∀ s ∈ subs, s.fromSignal ∉ forbidden
  free : ∀ s ∈ subs, ∀ t ∈ subs, s.fromSignal ∉ t.toExpr
  rest : ∀ c ∈ cons, ∀ k, c.Mentions k → k ∈ forbidden
  fromKnown : ∀ s ∈ subs, Occurs before s.fromSignal
  toKnown : ∀ s ∈ subs, ∀ k ∈ s.toExpr, k = 0 ∨ Occurs before k
  restKnown : ∀ k, Occurs cons k → k = 0 ∨ Occurs before k
  sat_iff : ∀ ρ : ℕ → ZMod p, ρ 0 = 1 →
    ((∀ s ∈ subs, s.Holds ρ) ∧ (∀ c ∈ cons, c.Sat ρ) ↔ ∀ c ∈ before, c.Sat ρ)

namespace Eliminates

theorem independent {before : List C} {subs : List S} {cons : List C}
    (h : Eliminates p forbidden before subs cons) (h0 : 0 ∈ forbidden) : Independent subs := by
  refine ⟨h.free, ?_⟩
  intro s hs heq
  exact h.takeable s hs (heq ▸ h0)

theorem nil : Eliminates p forbidden [] [] [] := by
  refine ⟨List.nodup_nil, ?_, ?_, ?_, ?_, ?_, ?_, ?_⟩ <;> simp [Occurs]

/-- The order of the results, and what does not change the solutions of the input, do not matter. -/
theorem congr {before before' : List C} {subs subs' : List S} {cons cons' : List C}
    (h : Eliminates p forbidden before subs cons) (hsubs : subs'.Perm subs) (hcons : cons'.Perm cons)
    (hoccurs : ∀ k, Occurs before k → Occurs before' k)
    (hsat : ∀ ρ : ℕ → ZMod p, (∀ c ∈ before, c.Sat ρ) ↔ ∀ c ∈ before', c.Sat ρ) :
    Eliminates p forbidden before' subs' cons' where
  nodup := ((hsubs.map _).nodup_iff).mpr h.nodup
  takeable := fun s hs => h.takeable s (hsubs.mem_iff.mp hs)
  free := fun s hs t ht => h.free s (hsubs.mem_iff.mp hs) t (hsubs.mem_iff.mp ht)
  rest := fun c hc => h.rest c (hcons.mem_iff.mp hc)
  fromKnown := fun s hs => hoccurs _ (h.fromKnown s (hsubs.mem_iff.mp hs))
  toKnown := fun s hs k hk => (h.toKnown s (hsubs.mem_iff.mp hs) k hk).imp_right (hoccurs k)
  restKnown := by
    rintro k ⟨c, hc, hk⟩
    exact (h.restKnown k ⟨c, hcons.mem_iff.mp hc, hk⟩).imp_right (hoccurs k)
  sat_iff := by
    intro ρ h1
    rw [← hsat ρ, ← h.sat_iff ρ h1]
    simp only [hsubs.mem_iff, hcons.mem_iff]

/-- Two eliminations without a common signal. -/
theorem append {b1 b2 : List C} {s1 s2 : List S} {c1 c2 : List C}
    (h1 : Eliminates p forbidden b1 s1 c1) (h2 : Eliminates p forbidden b2 s2 c2)
    (h0 : 0 ∈ forbidden) (hdisj : ∀ k, k ≠ 0 → Occurs b1 k → ¬ Occurs b2 k) :
    Eliminates p forbidden (b1 ++ b2) (s1 ++ s2) (c1 ++ c2) where
  nodup := by
    rw [List.map_append, List.nodup_append']
    refine ⟨h1.nodup, h2.nodup, ?_⟩
    intro k hk1 hk2
    obtain ⟨s, hs, rfl⟩ := List.mem_map.mp hk1
    obtain ⟨t, ht, heq⟩ := List.mem_map.mp hk2
    refine hdisj _ ((h1.independent h0).from_ne s hs) (h1.fromKnown s hs) ?_
    rw [← heq]
    exact h2.fromKnown t ht
  takeable := by
    intro s hs
    rcases List.mem_append.mp hs with hs | hs
    · exact h1.takeable s hs
    · exact h2.takeable s hs
  free := by
    intro s hs t ht hst
    rcases List.mem_append.mp hs with hs | hs <;> rcases List.mem_append.mp ht with ht | ht
    · exact h1.free s hs t ht hst
    · have hne := (h1.independent h0).from_ne s hs
      exact hdisj _ hne (h1.fromKnown s hs) ((h2.toKnown t ht _ hst).resolve_left hne)
    · have hne := (h2.independent h0).from_ne s hs
      exact hdisj _ hne ((h1.toKnown t ht _ hst).resolve_left hne) (h2.fromKnown s hs)
    · exact h2.free s hs t ht hst
  rest := by
    intro c hc
    rcases List.mem_append.mp hc with hc | hc
    · exact h1.rest c hc
    · exact h2.rest c hc
  fromKnown := by
    intro s hs
    rw [Occurs.append]
    rcases List.mem_append.mp hs with hs | hs
    · exact Or.inl (h1.fromKnown s hs)
    · exact Or.inr (h2.fromKnown s hs)
  toKnown := by
    intro s hs k hk
    rw [Occurs.append]
    rcases List.mem_append.mp hs with hs | hs
    · exact (h1.toKnown s hs k hk).imp_right Or.inl
    · exact (h2.toKnown s hs k hk).imp_right Or.inr
  restKnown := by
    intro k hk
    rw [Occurs.append] at hk ⊢
    rcases hk with hk | hk
    · exact (h1.restKnown k hk).imp_right Or.inl
    · exact (h2.restKnown k hk).imp_right Or.inr
  sat_iff := by
    intro ρ hρ
    simp only [List.forall_mem_append, ← h1.sat_iff ρ hρ, ← h2.sat_iff ρ hρ]
    exact and_and_and_comm

theorem flatMap {parts : List (List C)} {results : List (List S × List C)}
    (h : List.Forall₂ (fun part result => Eliminates p forbidden part result.1 result.2) parts results)
    (h0 : 0 ∈ forbidden)
    (hdisj : parts.Pairwise fun part part' => ∀ k, k ≠ 0 → Occurs part k → ¬ Occurs part' k) :
    Eliminates p forbidden parts.flatten (results.flatMap fun r => r.1)
      (results.flatMap fun r => r.2) := by
  induction h with
  | nil => exact nil
  | @cons part result parts results hpart _ ih =>
    obtain ⟨hhead, htail⟩ := List.pairwise_cons.mp hdisj
    refine hpart.append (ih htail) h0 ?_
    rintro k hk hocc ⟨c, hc, hm⟩
    obtain ⟨part', hpart', hc'⟩ := List.mem_flatten.mp hc
    exact hhead part' hpart' k hk hocc ⟨c, hc', hm⟩

end Eliminates

/-! ## Clusters -/

theorem occurs_iff_mem_signalsOf {constraints : List C} {k : ℕ} (hk : k ≠ 0) :
    Occurs constraints k ↔ k ∈ signalsOf constraints := by
  rw [mem_signalsOf]
  refine exists_congr fun c => and_congr_right fun _ => ?_
  rw [Constraint.mem_takeClonedSignals]
  exact (and_iff_right hk).symm

/-- Eliminations of the clusters make an elimination of all constraints. -/
theorem Clustering.eliminates {linear : List C} {clusters : List Cluster}
    (h : Clustering linear clusters) (h0 : 0 ∈ forbidden) {results : List (List S × List C)}
    (hresults : List.Forall₂
      (fun cl result => Eliminates p forbidden cl.constraints result.1 result.2) clusters results)
    {subs : List S} {cons : List C} (hsubs : subs.Perm (results.flatMap fun r => r.1))
    (hcons : cons.Perm (results.flatMap fun r => r.2)) : Eliminates p forbidden linear subs cons := by
  have hparts : List.Forall₂ (fun part result => Eliminates p forbidden part result.1 result.2)
      (clusters.map fun cluster => cluster.constraints) results :=
    List.forall₂_map_left_iff.mpr hresults
  have hdisj : (clusters.map fun cluster => cluster.constraints).Pairwise
      fun part part' => ∀ k, k ≠ 0 → Occurs part k → ¬ Occurs part' k := by
    rw [List.pairwise_map]
    refine h.disjoint.imp ?_
    intro cl cl' hdisj k hk hocc hocc'
    rw [occurs_iff_mem_signalsOf hk] at hocc hocc'
    exact Finset.disjoint_left.mp hdisj hocc hocc'
  have hmem : ∀ c, c ∈ (clusters.map fun cluster => cluster.constraints).flatten ↔
      c ∈ linear ∧ !c.isEmpty := by
    intro c
    rw [← List.flatMap_def, h.perm.mem_iff, List.mem_filter]
  refine (Eliminates.flatMap hparts h0 hdisj).congr hsubs hcons ?_ ?_
  · rintro k ⟨c, hc, hk⟩
    exact ⟨c, ((hmem c).mp hc).1, hk⟩
  · intro ρ
    constructor
    · intro hall c hc
      by_cases hempty : c.isEmpty
      · exact Constraint.sat_of_isEmpty hempty
      · exact hall c ((hmem c).mpr ⟨hc, by simpa using hempty⟩)
    · intro hall c hc
      exact hall c ((hmem c).mp hc).1

/-! ## Linear constraints -/

theorem eliminates_of_solved {constraints : List C} {out : Algebra.SimplificationUtils.Simplified}
    (h : Solved p forbidden constraints out) :
    Eliminates p forbidden constraints out.substitutions out.constraints := by
  have hlin : ∀ c ∈ out.constraints, ∀ k, c.Mentions k → k ∈ c.c := fun c hc k hk =>
    (Constraint.mentions_iff_of_isLinear (h.reduced c hc).linear).mp hk
  refine ⟨h.nodup, h.takeable, h.free, ?_, ?_, ?_, ?_, ?_⟩
  · intro c hc k hk
    exact h.rest c hc k (hlin c hc k hk)
  · intro s hs
    obtain ⟨c, hc, hm⟩ := (h.substitutionKeys s hs).1
    exact ⟨c, hc, Or.inr (Or.inr hm)⟩
  · intro s hs k hk
    refine ((h.substitutionKeys s hs).2 k hk).imp_right ?_
    rintro ⟨c, hc, hm⟩
    exact ⟨c, hc, Or.inr (Or.inr hm)⟩
  · rintro k ⟨d, hd, hk⟩
    refine (h.restKeys d hd k (hlin d hd k hk)).imp_right ?_
    rintro ⟨c, hc, hm⟩
    exact ⟨c, hc, Or.inr (Or.inr hm)⟩
  · intro ρ h1
    rw [← h.sat_iff ρ h1]
    exact and_comm

variable [hp : Fact p.Prime]

theorem linearSimplification_spec (o : HashOrder) {linear : List C} (h0 : 0 ∈ forbidden)
    (hreduced : ∀ c ∈ linear, c.Reduced p) {noLabels : ℕ}
    (hlt : ∀ k, k ≠ 0 → Occurs linear k → k < noLabels) (useOldHeuristics : Bool) :
    ∃ subs cons, linearSimplification o linear forbidden noLabels p useOldHeuristics =
      some (subs, cons) ∧ Eliminates p forbidden linear subs cons := by
  have hsignals : ∀ c ∈ linear, ∀ s ∈ c.takeClonedSignals, s < noLabels := by
    intro c hc s hs
    obtain ⟨hs0, hm⟩ := Constraint.mem_takeClonedSignals.mp hs
    exact hlt s hs0 ⟨c, hc, hm⟩
  obtain ⟨clusters, hclusters, hclustering⟩ := buildClusters_spec (o.sub 0) hsignals
  have hmem : ∀ cl ∈ clusters, ∀ c ∈ cl.constraints, c ∈ linear := by
    intro cl hcl c hc
    have := hclustering.perm.mem_iff.mp (List.mem_flatMap.mpr ⟨cl, hcl, hc⟩)
    exact (List.mem_filter.mp this).1
  obtain ⟨results, hrun, hall⟩ := exists_mapM (l := clusters.zipIdx)
    (f := fun e => fullSimplification ((o.sub 1).sub e.2)
      ⟨p, e.1.constraints, forbidden, useOldHeuristics⟩)
    (P := fun e out => Solved p forbidden e.1.constraints out) (by
      intro e he
      exact fullSimplificationWith_solved _ _ h0
        (fun c hc => hreduced c (hmem e.1 (List.fst_mem_of_mem_zipIdx he) c hc)) _)
  have hparts := (List.forall₂_map_left_iff (f := Prod.fst)
    (R := fun (cl : Cluster) (out : Algebra.SimplificationUtils.Simplified) =>
      Eliminates p forbidden cl.constraints out.substitutions out.constraints)).mpr
    (hall.imp fun e out h => eliminates_of_solved h)
  rw [List.zipIdx_map_fst] at hparts
  have hwalk := (o.sub 2).walk_perm results
  refine ⟨((o.sub 2).walk results).flatMap fun result => result.substitutions,
    ((o.sub 2).walk results).flatMap fun result => result.constraints, ?_, ?_⟩
  · simp only [linearSimplification, hclusters, Option.bind_eq_bind, Option.bind_some]
    rw [hrun]
    rfl
  · have hresults : List.Forall₂ (fun (cl : Cluster) result =>
        Eliminates p forbidden cl.constraints result.1 result.2) clusters
        (results.map fun out => (out.substitutions, out.constraints)) :=
      List.forall₂_map_right_iff.mpr hparts
    refine hclustering.eliminates h0 hresults ?_ ?_
    · rw [List.flatMap_map]
      exact hwalk.flatMap_right _
    · rw [List.flatMap_map]
      exact hwalk.flatMap_right _

/-! ## Applying substitutions to a list of constraints -/

theorem substituteEach_spec (o : HashOrder) {enc : SEncoded} {subs : List S}
    (henc : Encodes enc subs) (hi : Independent subs) (constraints : List C) :
    ∃ constraints', substituteEach o enc p constraints = some constraints' ∧
      List.Forall₂ (fun c c' => Rewrites p subs c c' ∧ (c.Reduced p → c'.Reduced p))
        constraints constraints' := by
  obtain ⟨constraints', hrun, hall⟩ := exists_mapM (l := constraints.zipIdx)
    (f := fun e => (fastEncodedConstraintSubstitution (o.sub e.2) e.1 enc p).bind fun r =>
      some (if r.2 then r.1.fixConstraint p else r.1))
    (P := fun e c' => Rewrites p subs e.1 c' ∧ (e.1.Reduced p → c'.Reduced p)) (by
      rintro ⟨c, i⟩ -
      obtain ⟨c', changed, hc', hrew, hsame, hblank⟩ :=
        fastEncodedConstraintSubstitution_spec (p := p) (o.sub i) henc hi c
      refine ⟨if changed then c'.fixConstraint p else c', ?_, ?_⟩
      · simp only [hc', Option.bind_eq_bind, Option.bind_some]
      · cases changed with
        | false =>
          simp only [Bool.false_eq_true, if_false]
          refine ⟨hrew, ?_⟩
          rw [hsame rfl]
          exact id
        | true =>
          simp only [if_true]
          refine ⟨hrew.fix, ?_⟩
          intro hc
          exact ⟨(hblank hc.linear).isLinear_fix p,
            Constraint.coeffsInField_fixConstraint (hrew.coeffs hc.coeffs),
            Constraint.noZeroCoeff_fixConstraint c' p⟩)
  refine ⟨constraints', hrun, ?_⟩
  have := List.forall₂_map_left_iff (f := Prod.fst) (R := fun c c' =>
    Rewrites p subs c c' ∧ (c.Reduced p → c'.Reduced p)) |>.mpr hall
  rwa [List.zipIdx_map_fst] at this

end Circom.ConstraintList
