import Circom.Lib.PartialFold
import Mathlib.Data.List.Basic
import Mathlib.Tactic.Common
import Mathlib.Algebra.GroupWithZero.Nat

/-!
# Unfolding a layered graph

A layered graph shares its nodes: its edges lead to smaller nodes, so below each node it unfolds into a
finite tree. Every edge carries an offset, and an instance of a node in the tree is the node with the
sum of the offsets on the way to it. A recursive walk over the tree is a loop over the instances.
-/

namespace Circom.Lib

/-- A graph on the natural numbers whose edges, given as targets with offsets, go down. -/
structure LayeredGraph where
  edges : ℕ → List (ℕ × ℕ)
  lower : ∀ n, ∀ e ∈ edges n, e.1 < n

namespace LayeredGraph

variable (g : LayeredGraph)

/-- The instances in the tree below `n`, whose root has the offset `offset`, in preorder. -/
def instances (n offset : ℕ) : List (ℕ × ℕ) :=
  (n, offset) ::
    ((g.edges n).attach.map fun e => instances e.1.1 (offset + e.1.2)).flatten
termination_by n
decreasing_by exact g.lower n e.1 e.2

theorem instances_eq (n offset : ℕ) :
    g.instances n offset =
      (n, offset) :: (g.edges n).flatMap fun e => g.instances e.1 (offset + e.2) := by
  rw [instances, List.flatMap_def]
  congr 2
  rw [List.attach_map_val (f := fun e : ℕ × ℕ => g.instances e.1 (offset + e.2))]

theorem mem_instances {n offset : ℕ} {i : ℕ × ℕ} :
    i ∈ g.instances n offset ↔
      i = (n, offset) ∨ ∃ e ∈ g.edges n, i ∈ g.instances e.1 (offset + e.2) := by
  rw [instances_eq]
  simp

/-- Induction over the tree below a node. -/
theorem instances_induction {P : ℕ → ℕ → Prop}
    (h : ∀ n offset, (∀ e ∈ g.edges n, P e.1 (offset + e.2)) → P n offset) (n offset : ℕ) :
    P n offset := by
  induction n using Nat.strongRecOn generalizing offset with
  | _ n ih => exact h n offset fun e he => ih e.1 (g.lower n e he) _

theorem instance_le {n offset : ℕ} {i : ℕ × ℕ} (h : i ∈ g.instances n offset) : i.1 ≤ n := by
  revert h
  induction n, offset using g.instances_induction with
  | h n offset ih =>
    intro h
    rcases g.mem_instances.mp h with rfl | ⟨e, he, hi⟩
    · exact Nat.le_refl _
    · have h1 := ih e he hi
      have h2 := g.lower n e he
      omega

/-- The nodes of the instances do not depend on the offset. -/
theorem map_fst_instances (n offset offset' : ℕ) :
    (g.instances n offset).map Prod.fst = (g.instances n offset').map Prod.fst := by
  induction n, offset using g.instances_induction generalizing offset' with
  | h n offset ih =>
    rw [instances_eq, instances_eq, List.map_cons, List.map_cons, List.map_flatMap, List.map_flatMap]
    refine congrArg _ ?_
    rw [List.flatMap_def, List.flatMap_def]
    exact congrArg _ (List.map_congr_left fun e he => ih e he _)

/-- The sum of a weight of the nodes over the instances in the tree below a node. -/
def total (weight : ℕ → ℕ) (n : ℕ) : ℕ := ((g.instances n 0).map fun i => weight i.1).sum

theorem sum_instances (weight : ℕ → ℕ) (n offset : ℕ) :
    ((g.instances n offset).map fun i => weight i.1).sum = g.total weight n := by
  have h := congrArg (fun l => (l.map weight).sum) (g.map_fst_instances n offset 0)
  rw [List.map_map, List.map_map] at h
  exact h

theorem total_eq (weight : ℕ → ℕ) (n : ℕ) :
    g.total weight n = weight n + ((g.edges n).map fun e => g.total weight e.1).sum := by
  unfold total
  rw [instances_eq, List.map_cons, List.sum_cons, List.map_flatMap, List.flatMap_def, List.sum_flatten, List.map_map]
  refine congrArg _ (congrArg _ (List.map_congr_left fun e _ => ?_))
  exact g.sum_instances weight e.1 (0 + e.2)

section Walk

variable {σ : Type*}

/-- Visiting a node and then the trees of its edges visits the instances in preorder. -/
theorem foldlM_instances (visit : σ → ℕ × ℕ → Option σ) (n offset : ℕ) (s : σ) :
    (g.instances n offset).foldlM visit s = (visit s (n, offset)).bind fun s =>
      (g.edges n).foldlM (fun s e => (g.instances e.1 (offset + e.2)).foldlM visit s) s := by
  rw [instances_eq, List.foldlM_cons]
  exact bind_congr fun s' => foldlM_flatMap _ _ _ _

end Walk

/-! ## Recursive walks -/

section Recursion

variable {σ T E : Type}

/-- A walk visits a tree and then, edge by edge, its subtrees. -/
def walk (visit : σ → T → Option σ) (edges : T → Option (List E)) (next : T → E → Option T) :
    ℕ → σ → T → Option σ
  | 0, _, _ => none
  | fuel + 1, s, tree => do
    let s ← visit s tree
    let es ← edges tree
    es.foldlM (fun s e => do
      let subtree ← next tree e
      walk visit edges next fuel s subtree) s

/-- The trees that a walk meets represent the instances of the graph. -/
structure Represents (edges : T → Option (List E)) (next : T → E → Option T) (key : E → ℕ × ℕ)
    (rep : T → ℕ → ℕ → Prop) : Prop where
  edges_eq : ∀ t n offset, rep t n offset → ∃ es, edges t = some es ∧ g.edges n = es.map key
  next_rep : ∀ t n offset es, rep t n offset → edges t = some es → ∀ e ∈ es,
    ∃ t', next t e = some t' ∧ rep t' (key e).1 (offset + (key e).2)

/-- A walk with enough fuel is a loop over the instances. -/
theorem walk_eq {edges : T → Option (List E)} {next : T → E → Option T} {key : E → ℕ × ℕ}
    {rep : T → ℕ → ℕ → Prop} (hrep : g.Represents edges next key rep) {visit : σ → T → Option σ}
    {visitInstance : σ → ℕ × ℕ → Option σ}
    (hvisit : ∀ s t n offset, rep t n offset → visit s t = visitInstance s (n, offset))
    (n offset : ℕ) : ∀ (fuel : ℕ) (s : σ) (t : T), n < fuel → rep t n offset →
    walk visit edges next fuel s t = (g.instances n offset).foldlM visitInstance s := by
  induction n, offset using g.instances_induction with
  | h n offset ih =>
    intro fuel s t hfuel ht
    obtain ⟨fuel, rfl⟩ : ∃ f, fuel = f + 1 := ⟨fuel - 1, by omega⟩
    obtain ⟨es, hes, hkey⟩ := hrep.edges_eq t n offset ht
    rw [foldlM_instances, walk, hvisit s t n offset ht]
    refine bind_congr ?_
    intro s'
    rw [hes, hkey, List.foldlM_map]
    refine foldlM_congr_mem ?_ s'
    intro e he s
    obtain ⟨t', hnext, ht'⟩ := hrep.next_rep t n offset es ht hes e he
    have hmem : key e ∈ g.edges n := by
      rw [hkey]
      exact List.mem_map_of_mem he
    have hlower := g.lower n _ hmem
    rw [hnext]
    exact ih (key e) hmem fuel s t' (by omega) ht'

/-- The same for a walk whose root is visited in a way of its own. -/
theorem walk_root_eq {edges : T → Option (List E)} {next : T → E → Option T} {key : E → ℕ × ℕ}
    {rep : T → ℕ → ℕ → Prop} (hrep : g.Represents edges next key rep) {visit : σ → T → Option σ}
    {visitInstance : σ → ℕ × ℕ → Option σ}
    (hvisit : ∀ s t n offset, rep t n offset → visit s t = visitInstance s (n, offset))
    {root : T} {n offset fuel : ℕ} (hfuel : n < fuel) {es : List E} (hes : edges root = some es)
    (hkey : g.edges n = es.map key)
    (hnext : ∀ e ∈ es, ∃ t', next root e = some t' ∧ rep t' (key e).1 (offset + (key e).2)) (s : σ) :
    walk visit edges next fuel s root = (visit s root).bind fun s =>
      ((g.edges n).flatMap fun e => g.instances e.1 (offset + e.2)).foldlM visitInstance s := by
  obtain ⟨fuel, rfl⟩ : ∃ f, fuel = f + 1 := ⟨fuel - 1, by omega⟩
  rw [walk]
  refine bind_congr ?_
  intro s'
  rw [foldlM_flatMap, hes, hkey, List.foldlM_map]
  refine foldlM_congr_mem ?_ s'
  intro e he s
  obtain ⟨t', ht', hrep'⟩ := hnext e he
  have hlower := g.lower n (key e) (by rw [hkey]; exact List.mem_map_of_mem he)
  rw [ht']
  exact g.walk_eq hrep hvisit _ _ fuel s t' (by omega) hrep'

end Recursion

end LayeredGraph

end Circom.Lib
