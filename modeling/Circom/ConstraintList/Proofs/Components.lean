import Circom.ConstraintList.Proofs.Clusters

/-!
# Clusters and chains of constraints

Two constraints are in one cluster exactly if a chain of constraints connects them, each sharing a signal
with the next one. A constraint is told apart from its copies by its place.
-/

namespace Circom.ConstraintList

open Circom.Lib (HashOrder)
open Relation (ReflTransGen TransGen)

variable {c c' : C} {a i s : ℕ}

/-- The constraint at the place `a` of the `i`-th cluster. -/
def constraintAt (clusters : List Cluster) (i a : ℕ) : Option C :=
  clusters[i]?.bind fun cluster => cluster.constraints[a]?

theorem constraintAt_eq_some {clusters : List Cluster} :
    constraintAt clusters i a = some c ↔
      ∃ cluster, clusters[i]? = some cluster ∧ cluster.constraints[a]? = some c := by
  simp only [constraintAt, Option.bind_eq_some_iff]

theorem isEmpty_eq_false (hs : s ∈ c.takeClonedSignals) : c.isEmpty = false := by
  rw [← Bool.not_eq_true, Algebra.Constraint.isEmpty_iff]
  rintro ⟨ha, hb, hc⟩
  simp [Algebra.Constraint.takeClonedSignals, ha, hb, hc] at hs

namespace Clustering

variable {linear : List C} {clusters : List Cluster}

theorem mem_linear (h : Clustering linear clusters) (hc : constraintAt clusters i a = some c) : c ∈ linear := by
  obtain ⟨cluster, hcluster, hget⟩ := constraintAt_eq_some.mp hc
  have hmem := List.mem_flatMap.mpr
    ⟨cluster, List.mem_of_getElem? hcluster, List.mem_of_getElem? hget⟩
  exact (List.mem_filter.mp (h.perm.mem_iff.mp hmem)).1

/-- A constraint with signals has a place. -/
theorem exists_constraintAt (h : Clustering linear clusters) (hc : c ∈ linear)
    (hs : s ∈ c.takeClonedSignals) : ∃ i a, constraintAt clusters i a = some c := by
  have hfilter : c ∈ linear.filter fun c => !c.isEmpty :=
    List.mem_filter.mpr ⟨hc, by rw [isEmpty_eq_false hs]; rfl⟩
  obtain ⟨cluster, hcluster, hmem⟩ := List.mem_flatMap.mp (h.perm.mem_iff.mpr hfilter)
  obtain ⟨i, hi⟩ := List.getElem?_of_mem hcluster
  obtain ⟨a, ha⟩ := List.getElem?_of_mem hmem
  exact ⟨i, a, constraintAt_eq_some.mpr ⟨cluster, hi, ha⟩⟩

/-- A signal is in one cluster only. -/
theorem index_eq (h : Clustering linear clusters) {j b : ℕ}
    (hc : constraintAt clusters i a = some c) (hc' : constraintAt clusters j b = some c')
    (hs : s ∈ c.takeClonedSignals) (hs' : s ∈ c'.takeClonedSignals) : i = j := by
  obtain ⟨cl, hcl, hget⟩ := constraintAt_eq_some.mp hc
  obtain ⟨cl', hcl', hget'⟩ := constraintAt_eq_some.mp hc'
  have hmem : s ∈ signalsOf cl.constraints := mem_signalsOf.mpr ⟨c, List.mem_of_getElem? hget, hs⟩
  have hmem' : s ∈ signalsOf cl'.constraints :=
    mem_signalsOf.mpr ⟨c', List.mem_of_getElem? hget', hs'⟩
  obtain ⟨hi, rfl⟩ := List.getElem?_eq_some_iff.mp hcl
  obtain ⟨hj, rfl⟩ := List.getElem?_eq_some_iff.mp hcl'
  have hpair := List.pairwise_iff_getElem.mp h.disjoint
  rcases Nat.lt_trichotomy i j with hlt | heq | hlt
  · exact absurd hmem' (Finset.disjoint_left.mp (hpair i j hi hj hlt) hmem)
  · exact heq
  · exact absurd hmem (Finset.disjoint_left.mp (hpair j i hj hi hlt) hmem')

theorem eq_of_mem_signalsOf (h : Clustering linear clusters) {cl cl' : Cluster} (hcl : cl ∈ clusters)
    (hcl' : cl' ∈ clusters) (hs : s ∈ signalsOf cl.constraints) (hs' : s ∈ signalsOf cl'.constraints) : cl = cl' := by
  obtain ⟨c, hc, hs⟩ := mem_signalsOf.mp hs
  obtain ⟨c', hc', hs'⟩ := mem_signalsOf.mp hs'
  obtain ⟨i, hi⟩ := List.getElem?_of_mem hcl
  obtain ⟨j, hj⟩ := List.getElem?_of_mem hcl'
  obtain ⟨a, ha⟩ := List.getElem?_of_mem hc
  obtain ⟨b, hb⟩ := List.getElem?_of_mem hc'
  obtain rfl := h.index_eq (constraintAt_eq_some.mpr ⟨cl, hi, ha⟩)
    (constraintAt_eq_some.mpr ⟨cl', hj, hb⟩) hs hs'
  exact Option.some.inj (hi.symm.trans hj)

/-- A chain stays in the cluster where it starts. -/
theorem index_eq_of_chain (h : Clustering linear clusters) (hc : constraintAt clusters i a = some c)
    (hchain : TransGen (Shares linear) c c') : ∀ j b, constraintAt clusters j b = some c' → i = j := by
  induction hchain with
  | single hshare =>
    intro j b hc'
    obtain ⟨-, -, s, hs, hs'⟩ := hshare
    exact h.index_eq hc hc' hs hs'
  | tail _ hshare ih =>
    intro j b hc'
    obtain ⟨hlinear, -, s, hs, hs'⟩ := hshare
    obtain ⟨k, e, he⟩ := h.exists_constraintAt hlinear hs
    exact (ih k e he).trans (h.index_eq he hc' hs hs')

theorem chain_of_index_eq (h : Clustering linear clusters) {b : ℕ} (hc : constraintAt clusters i a = some c)
    (hc' : constraintAt clusters i b = some c') (hab : a ≠ b) : TransGen (Shares linear) c c' := by
  obtain ⟨cl, hcl, hget⟩ := constraintAt_eq_some.mp hc
  obtain ⟨cl', hcl', hget'⟩ := constraintAt_eq_some.mp hc'
  obtain rfl : cl = cl' := Option.some.inj (hcl.symm.trans hcl')
  have hmem := List.mem_of_getElem? hcl
  have hsize : cl.size ≠ 1 := by
    have ha := (List.getElem?_eq_some_iff.mp hget).1
    have hb := (List.getElem?_eq_some_iff.mp hget').1
    rw [Cluster.size]
    omega
  -- the chain may be empty, so it starts with a signal of `c` itself
  obtain ⟨s, hs⟩ := h.signals_nonempty cl hmem hsize c (List.mem_of_getElem? hget)
  have hself : Shares linear c c := ⟨h.mem_linear hc, h.mem_linear hc, s, hs, hs⟩
  refine TransGen.head' hself ?_
  refine ReflTransGen.mono ?_ c c' (h.linked cl hmem c (List.mem_of_getElem? hget) c'
    (List.mem_of_getElem? hget'))
  have hsub : ∀ d ∈ cl.constraints, d ∈ linear := by
    intro d hd
    obtain ⟨e, he⟩ := List.getElem?_of_mem hd
    exact h.mem_linear (constraintAt_eq_some.mpr ⟨cl, hcl, he⟩)
  rintro d e ⟨hd, he, hshare⟩
  exact ⟨hsub d hd, hsub e he, hshare⟩

end Clustering

/-- The clusters are the connected components. No count overflows, since no call of `merge` fails. -/
theorem buildClusters_components (o : HashOrder) {linear : List C} {noVars : ℕ}
    (hlinear : ∀ c ∈ linear, ∀ s ∈ c.takeClonedSignals, s < noVars) :
    ∃ clusters, buildClusters o linear noVars = some clusters ∧
      (clusters.flatMap fun cluster => cluster.constraints).Perm
        (linear.filter fun c => !c.isEmpty) ∧
      (∀ i a j b c c', constraintAt clusters i a = some c → constraintAt clusters j b = some c' →
        (i = j ↔ (i, a) = (j, b) ∨ TransGen (Shares linear) c c')) ∧
      (clusters.Pairwise fun cluster cluster' =>
        Disjoint (signalsOf cluster.constraints) (signalsOf cluster'.constraints)) ∧
      ∀ cluster ∈ clusters, cluster.numSignals = (signalsOf cluster.constraints).card := by
  obtain ⟨clusters, hrun, h⟩ := buildClusters_spec o hlinear
  refine ⟨clusters, hrun, h.perm, ?_, h.disjoint, h.numSignals_eq⟩
  intro i a j b c c' hc hc'
  constructor
  · rintro rfl
    by_cases hab : a = b
    · exact Or.inl (by rw [hab])
    · exact Or.inr (h.chain_of_index_eq hc hc' hab)
  · rintro (heq | hchain)
    · exact (Prod.mk.inj heq).1
    · exact h.index_eq_of_chain hc hchain j b hc'

/-- `x1 = x2` twice and `x3 = x4`. -/
theorem buildClusters_components_five :
    let linear : List C := [⟨∅, ∅, AList.ofPairs [(1, 1), (2, 4)]⟩,
      ⟨∅, ∅, AList.ofPairs [(3, 1), (4, 4)]⟩, ⟨∅, ∅, AList.ofPairs [(1, 1), (2, 4)]⟩]
    ∃ clusters, buildClusters HashOrder.listOrder linear 5 = some clusters ∧
      clusters.map (fun cluster => (cluster.size, cluster.numSignals)) = [(1, 2), (2, 2)] ∧
      ∀ cluster ∈ clusters, cluster.numSignals = (signalsOf cluster.constraints).card := by
  intro linear
  obtain ⟨clusters, hrun, -, -, -, hcount⟩ :=
    @buildClusters_components HashOrder.listOrder linear 5 (by decide)
  refine ⟨clusters, hrun, ?_, hcount⟩
  have hmap : (buildClusters HashOrder.listOrder linear 5).map (fun clusters =>
      clusters.map fun cluster => (cluster.size, cluster.numSignals)) = some [(1, 2), (2, 2)] := by
    decide +kernel
  rw [hrun] at hmap
  exact Option.some.inj hmap

end Circom.ConstraintList
