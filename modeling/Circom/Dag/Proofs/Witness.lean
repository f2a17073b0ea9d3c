import Circom.Dag.Proofs.Build

/-!
# The witness lists every signal once

In a graph that is numbered and whose own signals all have names, the signals of the instances of the
unfolded tree are all different, and they are exactly the numbers up to the number of signals of the
main node.
-/

namespace Circom.Dag

open Circom.Lib (HashMap LayeredGraph foldlM_append_eq)

namespace DAG

/-! ## The signals of one instance -/

theorem mem_sortedSignals {node : Node} (hnamed : Named node) {offset k : ℕ} :
    k ∈ node.sortedSignals offset ↔ ∃ id ∈ node.locals, k = id + offset := by
  simp only [Node.sortedSignals, List.mem_insertionSort, List.mem_map, List.mem_filter,
    Node.isLocalSignal, decide_eq_true_eq]
  constructor
  · rintro ⟨⟨name, id⟩, ⟨-, hid⟩, rfl⟩
    exact ⟨id, hid, rfl⟩
  · rintro ⟨id, hid, rfl⟩
    obtain ⟨name, hname⟩ := hnamed id hid
    exact ⟨(name, id), ⟨AList.mem_pairs_iff_lookup.mpr hname, hid⟩, rfl⟩

theorem nodup_sortedSignals {node : Node} {size : ℕ → ℕ} {edges : List Edge}
    (h : Numbered size node edges) (offset : ℕ) : (node.sortedSignals offset).Nodup := by
  have hpairs : node.correspondence.pairs.Nodup := by
    refine List.Nodup.of_map Prod.fst ?_
    rw [AList.pairs_map_fst]
    exact AList.keys_nodup _
  rw [Node.sortedSignals, (List.perm_insertionSort _ _).nodup_iff]
  refine List.Nodup.map_on ?_ (hpairs.filter _)
  rintro ⟨name, id⟩ he ⟨name', id'⟩ he' heq
  simp only [List.mem_filter, Node.isLocalSignal, decide_eq_true_eq] at he he' heq
  obtain rfl : id = id' := by omega
  have hname := h.name_unique name name' id he.2 (AList.mem_pairs_iff_lookup.mp he.1)
    (AList.mem_pairs_iff_lookup.mp he'.1)
  rw [hname]

/-! ## The signals below a node -/

/-- The signals of an instance. -/
def instanceSignals (dag : DAG) (i : ℕ × ℕ) : List ℕ :=
  ((dag.nodes[i.1]?).map fun node => node.sortedSignals i.2).getD []

/-- The signals of all instances below an instance of a node. -/
def signalsBelow (dag : DAG) (n offset : ℕ) : List ℕ :=
  (dag.graph.instances n offset).flatMap dag.instanceSignals

theorem signalsBelow_eq {dag : DAG} {n : ℕ} {node : Node} {edges : List Edge}
    (hnode : dag.nodes[n]? = some node) (hedges : dag.adjacency[n]? = some edges) (offset : ℕ) :
    dag.signalsBelow n offset = node.sortedSignals offset ++
      edges.flatMap fun e => dag.signalsBelow e.goesTo (offset + e.inNumber) := by
  rw [signalsBelow, LayeredGraph.instances_eq, List.flatMap_cons, List.flatMap_assoc,
    graph_edges hedges, List.flatMap_map]
  simp only [instanceSignals, hnode, Option.map_some, Option.getD_some]
  rfl

/-- The signals below a node are the numbers that follow its offset, as many as it has signals. -/
theorem signalsBelow_spec {dag : DAG} (h : dag.AllNumbered) (hnamed : dag.AllNamed)
    (n offset : ℕ) : n < dag.nodes.length →
    (∀ k, k ∈ dag.signalsBelow n offset ↔ offset < k ∧ k ≤ offset + dag.size n) ∧
      (dag.signalsBelow n offset).Nodup := by
  induction n, offset using dag.graph.instances_induction with
  | h n offset ih =>
    intro hlt
    obtain ⟨node, edges, hnode, hedges⟩ := dag.exists_node hlt
    have hn := h n node edges hnode hedges
    have hsorted : ∀ k, k ∈ node.sortedSignals offset ↔ ∃ id ∈ node.locals, k = id + offset :=
      fun k => mem_sortedSignals (hnamed n node hnode)
    -- the subtree of an edge has the numbers of its range
    have hedge : ∀ e ∈ edges,
        (∀ k, k ∈ dag.signalsBelow e.goesTo (offset + e.inNumber) ↔
          offset + e.inNumber < k ∧ k ≤ offset + e.outNumber) ∧
        (dag.signalsBelow e.goesTo (offset + e.inNumber)).Nodup := by
      intro e he
      have hmem : (e.goesTo, e.inNumber) ∈ dag.graph.edges n := by
        rw [graph_edges hedges]
        exact List.mem_map_of_mem he
      have hlower := dag.goesTo_lt n edges hedges e he
      have := ih _ hmem (hlower.trans hlt)
      rw [hn.edge_eq e he, ← Nat.add_assoc]
      exact this
    rw [signalsBelow_eq hnode hedges, size_eq hnode]
    constructor
    · intro k
      rw [List.mem_append, hsorted, List.mem_flatMap]
      constructor
      · rintro (⟨id, hid, rfl⟩ | ⟨e, he, hk⟩)
        · have := hn.local_bounds id hid
          omega
        · have h1 := ((hedge e he).1 k).mp hk
          have h2 := hn.edge_le e he
          omega
      · rintro ⟨h1, h2⟩
        rcases hn.cover (k - offset) (by omega) (by omega) with hid | ⟨e, he, hk⟩
        · exact Or.inl ⟨k - offset, hid, by omega⟩
        · exact Or.inr ⟨e, he, ((hedge e he).1 k).mpr (by omega)⟩
    · rw [List.nodup_append]
      refine ⟨nodup_sortedSignals hn offset, ?_, ?_⟩
      · rw [List.nodup_flatMap]
        refine ⟨fun e he => (hedge e he).2, ?_⟩
        refine hn.edges_ordered.imp_of_mem ?_
        intro e e' he he' hle k hk hk'
        have h1 := ((hedge e he).1 k).mp hk
        have h2 := ((hedge e' he').1 k).mp hk'
        omega
      · rintro k hk k' hk' rfl
        obtain ⟨id, hid, rfl⟩ := (hsorted k).mp hk
        obtain ⟨e, he, hk'⟩ := List.mem_flatMap.mp hk'
        have h1 := ((hedge e he).1 _).mp hk'
        have h2 := hn.local_notMem id hid e he
        omega

/-! ## The witness -/

/-- The witness consists of the signal one and the signals below the main node. -/
theorem produceWitness_eq {dag : DAG} {main : Node} (hmain : dag.getMain = some main)
    (hin : main.entry.inNumber = 0) :
    produceWitness dag = some (0 :: dag.signalsBelow (dag.nodes.length - 1) 0) := by
  obtain ⟨main', edges, hmain', hnode, -, hedges⟩ := exists_main (ne_nil_of_getMain hmain)
  obtain rfl : main' = main := Option.some.inj (hmain'.symm.trans hmain)
  have hvisit : ∀ (w : List ℕ) (node : Node) (n offset : ℕ), dag.nodes[n]? = some node →
      some (w ++ (Tree.ofNode dag node n offset).signals) =
        some (w ++ dag.instanceSignals (n, offset)) := by
    intro w node n offset hn
    simp [instanceSignals, hn, Tree.ofNode]
  rw [produceWitness, Tree.new_eq hmain]
  simp only [Option.bind_eq_bind, Option.bind_some, produceTreeWitness]
  rw [walk_rootTree hmain (fun w i => some (w ++ dag.instanceSignals i)) hvisit,
    Option.bind_some, foldlM_append_eq, signalsBelow_eq hnode hedges, graph_edges hedges,
    List.flatMap_assoc, List.flatMap_map]
  simp only [rootTree, hin, List.cons_append, List.nil_append]
  rfl

/-- The ranges of the subcomponents of a node and its own signals divide its numbers. When moreover no
call of the build takes the name of an own signal away, the witness lists every number up to the number
of signals of the main node once. -/
theorem produceWitness_bijective {prime : ℤ} {calls : List BuildCall} {dag : DAG}
    (h : (DAG.new prime).build calls = some dag) :
    (∀ (n : ℕ) (node : Node) (edges : List Edge), dag.nodes[n]? = some node →
      dag.adjacency[n]? = some edges →
      (edges.Pairwise fun e e' => Disjoint e.getSignalRange e'.getSignalRange) ∧
      (∀ e ∈ edges, Disjoint e.getSignalRange node.locals) ∧
      ∀ k, (k ∈ node.locals ∨ ∃ e ∈ edges, k ∈ e.getSignalRange) ↔
        1 ≤ k ∧ k ≤ node.numberOfSignals) ∧
    ((DAG.new prime).BuildKeepsNames calls → ∀ main, dag.getMain = some main →
      ∃ w, produceWitness dag = some w ∧ w.Nodup ∧ ∀ k, k ∈ w ↔ k ≤ main.numberOfSignals) := by
  have hnum := allNumbered_build h
  constructor
  · intro n node edges hnode hedges
    have hn := hnum n node edges hnode hedges
    have hrange : ∀ (e : Edge) k, k ∈ e.getSignalRange ↔ e.inNumber < k ∧ k ≤ e.outNumber := by
      intro e k
      rw [Edge.getSignalRange, Finset.mem_Ico]
      omega
    refine ⟨?_, ?_, ?_⟩
    · refine hn.edges_ordered.imp ?_
      intro e e' hle
      rw [Finset.disjoint_left]
      intro k hk hk'
      rw [hrange] at hk hk'
      omega
    · intro e he
      rw [Finset.disjoint_right]
      intro k hk hk'
      rw [hrange] at hk'
      have := hn.local_notMem k hk e he
      omega
    · intro k
      simp only [hrange]
      constructor
      · rintro (hk | ⟨e, he, hk⟩)
        · exact hn.local_bounds k hk
        · have := hn.edge_le e he
          omega
      · rintro ⟨h1, h2⟩
        exact hn.cover k h1 h2
  · intro hk main hmain
    have hne := ne_nil_of_getMain hmain
    obtain ⟨main', edges, hmain', hnode, -, hedges⟩ := exists_main hne
    obtain rfl : main' = main := Option.some.inj (hmain'.symm.trans hmain)
    have hin := (hnum _ main' edges hnode hedges).entry_in
    have hlen := List.length_pos_iff.mpr hne
    obtain ⟨hmem, hnd⟩ := signalsBelow_spec hnum (allNamed_build hk h) (dag.nodes.length - 1) 0
      (by omega)
    refine ⟨_, produceWitness_eq hmain hin, List.nodup_cons.mpr ⟨?_, hnd⟩, ?_⟩
    · rw [hmem]
      omega
    · intro k
      rw [List.mem_cons, hmem, size_eq hnode]
      omega

/-- The main template has a component of a template with one input, and an output. -/
def subcomponentCalls : List BuildCall :=
  [.addNode "A" [] false false, .addInput "in" false, .addNode "B" [] false false,
    .addEdge 0 "c" false, .addOutput "out"]

theorem subcomponentCalls_keepNames : (DAG.new 5).BuildKeepsNames subcomponentCalls := by
  refine ⟨trivial, ?_⟩
  rintro dag ⟨⟩
  refine ⟨?_, ?_⟩
  · rintro main ⟨⟩ id hid
    cases hid
  rintro dag ⟨⟩
  refine ⟨trivial, ?_⟩
  rintro dag ⟨⟩
  -- the main template has no signals before the component
  refine ⟨?_, ?_⟩
  · rintro source main toNode ⟨⟩ - ⟨⟩ - signal i - - id hid
    cases hid
  rintro dag ⟨⟩
  -- the component has put only the name of its own input there
  refine ⟨?_, ?_⟩
  · rintro main ⟨⟩ id hid
    cases hid
  rintro dag ⟨⟩
  trivial

theorem produceWitness_bijective_subcomponent :
    ∃ dag, (DAG.new 5).build subcomponentCalls = some dag ∧
      ∃ w, produceWitness dag = some w ∧ w.Nodup ∧ ∀ k, k ∈ w ↔ k ≤ 2 := by
  have h : ((DAG.new 5).build subcomponentCalls).isSome := rfl
  refine ⟨_, (Option.some_get h).symm, ?_⟩
  exact (produceWitness_bijective (Option.some_get h).symm).2 subcomponentCalls_keepNames _ rfl

def repeatedInput : List BuildCall :=
  [.addNode "A" [] false false, .addInput "a" false, .addInput "a" false]

/-- With two inputs of one name the first has no name left, and the witness misses it. -/
theorem produceWitness_misses_repeated :
    ∃ dag main, (DAG.new 5).build repeatedInput = some dag ∧ dag.getMain = some main ∧
      ¬ ∃ w, produceWitness dag = some w ∧ w.Nodup ∧ ∀ k, k ∈ w ↔ k ≤ main.numberOfSignals := by
  have h : ((DAG.new 5).build repeatedInput).isSome := rfl
  refine ⟨_, _, (Option.some_get h).symm, rfl, ?_⟩
  rintro ⟨w, hw, -, hmem⟩
  obtain rfl : w = [0, 2] := (Option.some.inj hw).symm
  have hone : 1 ∈ [0, 2] := (hmem 1).mpr (by decide)
  exact absurd hone (by decide)

end DAG

end Circom.Dag
