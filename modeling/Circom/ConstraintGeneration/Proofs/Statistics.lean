import Circom.ConstraintGeneration.Proofs.Insertion

/-!
# The statistics of a circuit

The vectors of the statistics are computed along the node numbers. As edges go to earlier nodes, the entry of a node
is the sum over the instances in the tree that the node unfolds to. The counters that `add_edge` maintains are sums
of the same kind.
-/

namespace Circom.Dag

open Circom.Lib (foldlM_preserves)

variable {edges : List Edge} {node : Node} {size : ℕ → ℕ}

/-! ## Counters -/

namespace DAG

/-- The number of components of a node. -/
def components (dag : DAG) (n : ℕ) : ℕ := ((dag.nodes[n]?).map Node.numberOfComponents).getD 0

theorem components_eq {dag : DAG} {n : ℕ} (h : dag.nodes[n]? = some node) :
    dag.components n = node.numberOfComponents := by
  unfold components
  rw [h]
  rfl

end DAG

/-- The numbers of the components in a subcomponent. -/
def Edge.componentRange (e : Edge) : Finset ℕ := Finset.Ico e.inComponentNumber e.outComponentNumber

/-- The counters of a node count what the node has itself and what its edges bring along. -/
structure Counted (size components : ℕ → ℕ) (node : Node) (edges : List Edge) : Prop where
  signals_eq : node.numberOfSignals = node.inputsLength + node.outputsLength + node.intermediatesLength +
    (edges.map fun e => size e.goesTo).sum
  components_eq : node.numberOfComponents = 1 + (edges.map fun e => components e.goesTo).sum
  edge_le : ∀ e ∈ edges, 1 ≤ e.inComponentNumber ∧ e.outComponentNumber ≤ node.numberOfComponents
  edge_eq : ∀ e ∈ edges, e.outComponentNumber = e.inComponentNumber + components e.goesTo
  ordered : edges.Pairwise fun e e' => e.outComponentNumber ≤ e'.inComponentNumber

theorem counted_new (size components : ℕ → ℕ) (id : ℕ) (templateName : String) (parameters : List ℤ)
    (isParallel isCustomGate : Bool) :
    Counted size components (Node.new id templateName parameters isParallel isCustomGate) [] :=
  ⟨rfl, rfl, fun e he => (by cases he), fun e he => (by cases he), List.Pairwise.nil⟩

theorem Counted.congr {size' components components' : ℕ → ℕ}
    (h : Counted size components node edges) (hs : ∀ e ∈ edges, size' e.goesTo = size e.goesTo)
    (hc : ∀ e ∈ edges, components' e.goesTo = components e.goesTo) : Counted size' components' node edges where
  signals_eq := by rw [h.signals_eq, List.map_congr_left hs]
  components_eq := by rw [h.components_eq, List.map_congr_left hc]
  edge_le := h.edge_le
  edge_eq e he := by rw [h.edge_eq e he, hc e he]
  ordered := h.ordered

/-- One more signal of the node itself. -/
theorem Counted.addsSignal {components : ℕ → ℕ} {node' : Node}
    (h : Counted size components node edges) (hcomponents : node'.numberOfComponents = node.numberOfComponents)
    (hsignals : node'.numberOfSignals = node.numberOfSignals + 1)
    (hown : node'.inputsLength + node'.outputsLength + node'.intermediatesLength =
      node.inputsLength + node.outputsLength + node.intermediatesLength + 1) :
    Counted size components node' edges where
  signals_eq := by
    have := h.signals_eq
    omega
  components_eq := hcomponents.trans h.components_eq
  edge_le e he := by
    rw [hcomponents]
    exact h.edge_le e he
  edge_eq := h.edge_eq
  ordered := h.ordered

theorem Counted.one_le {components : ℕ → ℕ} (h : Counted size components node edges) : 1 ≤ node.numberOfComponents := by
  rw [h.components_eq]
  exact Nat.le_add_right _ _

theorem Counted.addSubcomponent {components : ℕ → ℕ} {toNode : Node} {target : ℕ} {label : String} {isParallel : Bool}
    (h : Counted size components node edges) (hsize : size target = toNode.numberOfSignals)
    (hcomponents : components target = toNode.numberOfComponents) :
    Counted size components (node.addSubcomponent toNode (node.newEdge toNode target label) isParallel)
      (edges ++ [node.newEdge toNode target label]) := by
  obtain ⟨_, _, hframe⟩ := addSubcomponent_frame (node.newEdge toNode target label) toNode node isParallel
  rw [hframe]
  refine ⟨?_, ?_, ?_, ?_, ?_⟩
  · show node.numberOfSignals + toNode.numberOfSignals = _
    rw [List.map_append, List.sum_append, List.map_singleton, List.sum_singleton, ← Nat.add_assoc, ← h.signals_eq]
    exact congrArg _ hsize.symm
  · show node.numberOfComponents + toNode.numberOfComponents = _
    rw [List.map_append, List.sum_append, List.map_singleton, List.sum_singleton, ← Nat.add_assoc,
      ← h.components_eq]
    exact congrArg _ hcomponents.symm
  · intro e he
    show _ ∧ _ ≤ node.numberOfComponents + toNode.numberOfComponents
    rcases List.mem_append.mp he with he | he
    · have := h.edge_le e he
      omega
    · rw [List.mem_singleton.mp he]
      exact ⟨h.one_le, Nat.le_refl _⟩
  · intro e he
    rcases List.mem_append.mp he with he | he
    · exact h.edge_eq e he
    · rw [List.mem_singleton.mp he]
      exact congrArg (node.numberOfComponents + ·) hcomponents.symm
  · refine List.pairwise_append.mpr ⟨h.ordered, List.pairwise_singleton _ _, fun e he e' he' => ?_⟩
    rw [List.mem_singleton.mp he']
    exact (h.edge_le e he).2

namespace DAG

/-- The counters of every node. -/
def AllCounted (dag : DAG) : Prop :=
  ∀ (n : ℕ) (node : Node) (edges : List Edge), dag.nodes[n]? = some node → dag.adjacency[n]? = some edges →
    Counted dag.size dag.components node edges

/-- The counters of a node among the others. -/
def CountedIn (look : ℕ → Option Node) (node : Node) (edges : List Edge) : Prop :=
  Counted (fun n => ((look n).map Node.numberOfSignals).getD 0) (fun n => ((look n).map Node.numberOfComponents).getD 0)
    node edges

theorem keptByCalls_counted : KeptByCalls CountedIn where
  congr h hlook := Counted.congr h (fun e he => by rw [hlook e he]) fun e he => by rw [hlook e he]
  new _ _ _ _ _ _ := counted_new _ _ _ _ _ _ _
  addInput {_ node _} h _ _ := by
    refine h.addsSignal rfl rfl ?_
    show node.inputsLength + 1 + node.outputsLength + node.intermediatesLength = _
    omega
  addOutput {_ node _} h _ := by
    refine h.addsSignal rfl rfl ?_
    show node.inputsLength + (node.outputsLength + 1) + node.intermediatesLength = _
    omega
  addIntermediate h _ := h.addsSignal rfl rfl rfl
  addSubcomponent h hto _ _ _ := h.addSubcomponent (by rw [hto]; rfl) (by rw [hto]; rfl)
  addOrderedSignal h _ := ⟨h.1, h.2, h.3, h.4, h.5⟩
  addConstraint h _ := ⟨h.1, h.2, h.3, h.4, h.5⟩
  addUnderscoredSignal h _ := ⟨h.1, h.2, h.3, h.4, h.5⟩
  setNumberOfSubcomponentsIndexes h _ := ⟨h.1, h.2, h.3, h.4, h.5⟩

end DAG

end Circom.Dag

namespace Circom.ConstraintGeneration

open Circom.Dag (DAG Edge Node)
open Circom.Lib (foldlM_invariant foldlM_preserves)

/-! ## The vectors -/

variable {dag : DAG}

/-- The weight of a node given by its number. -/
def weight (dag : DAG) (own : Node → ℕ) (n : ℕ) : ℕ := ((dag.nodes[n]?).map own).getD 0

/-- The sum over the instances in the tree that a node unfolds to. -/
def total (dag : DAG) (own : Node → ℕ) (n : ℕ) : ℕ := dag.graph.total (weight dag own) n

theorem total_eq {own : Node → ℕ} {n : ℕ} (hnode : dag.nodes[n]? = some node)
    (hedges : dag.adjacency[n]? = some edges) :
    total dag own n = own node + (edges.map fun e => total dag own e.goesTo).sum := by
  unfold total
  rw [dag.graph.total_eq, DAG.graph_edges hedges, List.map_map]
  unfold weight
  rw [hnode]
  rfl

/-- The entries of earlier nodes are known, and only the entry of the node changes. -/
theorem addEdges_spec (value : ℕ → ℕ) {index : ℕ} {v : List ℕ}
    (hedges : ∀ e ∈ edges, e.goesTo ≠ index ∧ v[e.goesTo]? = some (value e.goesTo)) :
    addEdges index edges v = some (v.modify index (· + (edges.map fun e => value e.goesTo).sum)) := by
  unfold addEdges
  induction edges generalizing v with
  | nil =>
    show some v = _
    rw [List.map_nil, List.sum_nil]
    exact congrArg some (List.modify_id index v).symm
  | cons e edges ih =>
    obtain ⟨⟨hne, he⟩, hrest⟩ := List.forall_mem_cons.mp hedges
    rw [List.foldlM_cons, he]
    show List.foldlM _ (v.modify index (· + value e.goesTo)) edges = _
    rw [ih fun e' he' => ?_]
    · rw [List.modify_modify_eq, List.map_cons, List.sum_cons]
      refine congrArg some (congrArg (v.modify index) ?_)
      funext x
      exact Nat.add_assoc x _ _
    · obtain ⟨hne', hv⟩ := hrest e' he'
      refine ⟨hne', ?_⟩
      rw [List.getElem?_modify_ne _ _ (Ne.symm hne')]
      exact hv

theorem modify_append_cons {α : Type*} (l : List α) (a : α) (l' : List α) (f : α → α) :
    (l ++ a :: l').modify l.length f = l ++ f a :: l' := by
  induction l with
  | nil => rfl
  | cons b l ih => exact congrArg (b :: ·) ih

/-- After some rounds the entries are right up to the last round, and zero from there. -/
theorem produceVector_upTo (own : Node → ℕ) {k : ℕ} (hk : k ≤ dag.nodes.length) :
    ((List.range k).foldlM (fun v index => do
        let node ← dag.nodes[index]?
        let edges ← dag.adjacency[index]?
        addEdges index edges (v.modify index (· + own node))) (List.replicate dag.nodes.length 0)) =
      some ((List.range k).map (total dag own) ++ List.replicate (dag.nodes.length - k) 0) := by
  induction k with
  | zero => rfl
  | succ k ih =>
    obtain ⟨node, edges, hnode, hedges⟩ := dag.exists_node hk
    have hlength : ((List.range k).map (total dag own)).length = k := by
      rw [List.length_map, List.length_range]
    have hzeros : List.replicate (dag.nodes.length - k) 0 = 0 :: List.replicate (dag.nodes.length - (k + 1)) 0 := by
      rw [← List.replicate_succ]
      exact congrArg (List.replicate · 0) (by omega)
    have hmodify : ∀ (f : ℕ → ℕ) (x : ℕ),
        ((List.range k).map (total dag own) ++ x :: List.replicate (dag.nodes.length - (k + 1)) 0).modify k f =
          (List.range k).map (total dag own) ++ f x :: List.replicate (dag.nodes.length - (k + 1)) 0 := by
      intro f x
      have := modify_append_cons ((List.range k).map (total dag own)) x
        (List.replicate (dag.nodes.length - (k + 1)) 0) f
      rwa [hlength] at this
    rw [List.range_succ, List.foldlM_append, ih (Nat.le_of_succ_le hk), hzeros]
    rw [Option.bind_eq_bind, Option.bind_some, List.foldlM_cons, hnode, hedges]
    show (addEdges k edges _).bind _ = _
    rw [hmodify, addEdges_spec (total dag own) fun e he => ?_]
    · rw [hmodify, List.map_append, List.append_assoc]
      show some (_ ++ (0 + own node + _) :: _) = some (_ ++ (total dag own k :: _))
      rw [total_eq hnode hedges, Nat.zero_add]
      rfl
    · have hlt := dag.goesTo_lt k edges hedges e he
      refine ⟨hlt.ne, ?_⟩
      rw [List.getElem?_append_left (by rw [hlength]; exact hlt), List.getElem?_map, List.getElem?_range hlt]
      rfl

/-- The entries of the vector are the sums over the unfolded trees. -/
theorem produceVector_eq (dag : DAG) (own : Node → ℕ) :
    produceVector dag own = some ((List.range dag.nodes.length).map (total dag own)) := by
  unfold produceVector
  rw [produceVector_upTo own (Nat.le_refl _), Nat.sub_self, List.replicate_zero, List.append_nil]

theorem getLast?_vector (own : Node → ℕ) (h : dag.nodes ≠ []) :
    ((List.range dag.nodes.length).map (total dag own)).getLast? = some (total dag own (dag.nodes.length - 1)) := by
  have hpos : 0 < dag.nodes.length := List.length_pos_iff.mpr h
  rw [List.getLast?_map, List.getLast?_range, if_neg (by omega)]
  rfl

/-- The statistics are the sums over the tree of the last node. -/
theorem produceDagsStats_eq (h : dag.nodes ≠ []) :
    produceDagsStats dag = some
      { allSignals := total dag
          (fun node => node.inputsLength + node.outputsLength + node.intermediatesLength) (dag.nodes.length - 1)
        ioSignals := total dag (fun node => node.inputsLength + node.outputsLength) (dag.nodes.length - 1)
        allCreatedComponents := total dag (fun _ => 1) (dag.nodes.length - 1)
        allNeededSubcomponentsIndexes := total dag Node.numberOfSubcomponentsIndexes (dag.nodes.length - 1) } := by
  unfold produceDagsStats
  simp only [produceVector_eq, getLast?_vector _ h, Option.bind_eq_bind, Option.bind_some]
  rfl

/-! ## The counters are sums over the tree -/

/-- The counters of the nodes agree with the sums over the trees. -/
theorem counters_eq_total (hcounted : dag.AllCounted) (n : ℕ) : ∀ node, dag.nodes[n]? = some node →
    node.numberOfSignals =
        total dag (fun node => node.inputsLength + node.outputsLength + node.intermediatesLength) n ∧
      node.numberOfComponents = total dag (fun _ => 1) n := by
  induction n using Nat.strong_induction_on with
  | h n ih =>
    intro node hnode
    obtain ⟨-, edges, -, hedges⟩ := dag.exists_node (List.getElem?_eq_some_iff.mp hnode).1
    have hn := hcounted n node edges hnode hedges
    have hsub : ∀ e ∈ edges, ∃ sub, dag.nodes[e.goesTo]? = some sub ∧ e.goesTo < n := by
      intro e he
      have hlt := dag.goesTo_lt n edges hedges e he
      obtain ⟨sub, -, hsub, -⟩ := dag.exists_node (hlt.trans (List.getElem?_eq_some_iff.mp hnode).1)
      exact ⟨sub, hsub, hlt⟩
    rw [total_eq hnode hedges, total_eq hnode hedges, hn.signals_eq, hn.components_eq]
    refine ⟨congrArg _ (congrArg _ (List.map_congr_left fun e he => ?_)),
      congrArg _ (congrArg _ (List.map_congr_left fun e he => ?_))⟩
    · obtain ⟨sub, hsub, hlt⟩ := hsub e he
      rw [DAG.size_eq hsub]
      exact (ih e.goesTo hlt sub hsub).1
    · obtain ⟨sub, hsub, hlt⟩ := hsub e he
      rw [DAG.components_eq hsub]
      exact (ih e.goesTo hlt sub hsub).2

/-! ## The tree -/

/-- The sum over all trees that are met on the walk from the main node. -/
def treeTotal (dag : DAG) (own : Node → ℕ) : Option ℕ := do
  let tree ← Dag.Tree.new dag
  tree.walk (fun total tree => (dag.nodes[tree.nodeId]?).map fun node => total + own node) 0

theorem foldlM_weight (own : Node → ℕ) {instances : List (ℕ × ℕ)} (hlt : ∀ i ∈ instances, i.1 < dag.nodes.length)
    (s : ℕ) :
    instances.foldlM (fun total i => (dag.nodes[i.1]?).map fun node => total + own node) s =
      some (s + (instances.map fun i => weight dag own i.1).sum) := by
  induction instances generalizing s with
  | nil => rfl
  | cons i instances ih =>
    obtain ⟨hi, hrest⟩ := List.forall_mem_cons.mp hlt
    rw [List.foldlM_cons, List.getElem?_eq_getElem hi]
    show List.foldlM _ (s + own _) instances = _
    rw [ih hrest, List.map_cons, List.sum_cons, Nat.add_assoc]
    unfold weight
    rw [List.getElem?_eq_getElem hi]
    rfl

/-- The walk over the tree of the main node adds up what its node stands for. -/
theorem treeTotal_eq {main : Node} (hmain : dag.getMain = some main) (own : Node → ℕ) :
    treeTotal dag own = some (total dag own (dag.nodes.length - 1)) := by
  obtain ⟨main', edges, hmain', hget, -, hedges⟩ := DAG.exists_main (DAG.ne_nil_of_getMain hmain)
  cases hmain.symm.trans hmain'
  unfold treeTotal
  rw [Dag.Tree.new_eq hmain]
  rw [Option.bind_eq_bind, Option.bind_some, Dag.walk_rootTree hmain (fun total i => (dag.nodes[i.1]?).map fun node => total + own node)
    fun s node n offset hnode => rfl]
  show ((dag.nodes[dag.nodes.length - 1]?).map _).bind _ = _
  rw [hget]
  show List.foldlM _ (0 + own main) _ = _
  have hlt : dag.nodes.length - 1 < dag.nodes.length := (List.getElem?_eq_some_iff.mp hget).1
  rw [foldlM_weight own fun i hi => ?_]
  · have hroot : weight dag own (dag.nodes.length - 1) = own main := by
      unfold weight
      rw [hget]
      rfl
    unfold total
    rw [dag.graph.total_eq, List.map_flatMap, List.flatMap_def, List.sum_flatten, List.map_map, Nat.zero_add, hroot]
    refine congrArg some (congrArg _ (congrArg _ (List.map_congr_left fun e _ => ?_)))
    exact dag.graph.sum_instances (weight dag own) e.1 _
  · obtain ⟨e, he, hi⟩ := List.mem_flatMap.mp hi
    have h1 := dag.graph.instance_le hi
    have h2 := dag.graph.lower _ e he
    omega

/-! ## Statistics of the exported graph -/

theorem allCounted_insertAllInDag {program : ExecutedProgram} (h : program.insertAllInDag = some dag) :
    dag.AllCounted := program.everyNode_insertAllInDag DAG.keptByCalls_counted h

/-- Cleaning leaves the counters alone. -/
theorem allCounted_cleanConstraints (hcounted : dag.AllCounted) : dag.cleanConstraints.AllCounted := by
  have hnodes : ∀ n, dag.cleanConstraints.nodes[n]? = (dag.nodes[n]?).map Node.cleanConstraints := fun n =>
    List.getElem?_map
  intro n node edges hnode hedges
  rw [hnodes] at hnode
  obtain ⟨node', hnode', rfl⟩ := Option.map_eq_some_iff.mp hnode
  have hsize : ∀ e ∈ edges, dag.cleanConstraints.size e.goesTo = dag.size e.goesTo := fun e _ => by
    unfold DAG.size
    rw [hnodes, Option.map_map]
    rfl
  have hcomponents : ∀ e ∈ edges, dag.cleanConstraints.components e.goesTo = dag.components e.goesTo := fun e _ => by
    unfold DAG.components
    rw [hnodes, Option.map_map]
    rfl
  obtain ⟨h1, h2, h3, h4, h5⟩ := (hcounted n node' edges hnode' hedges).congr hsize hcomponents
  exact ⟨h1, h2, h3, h4, h5⟩

/-- The statistics of the exported graph are the sums over the tree of the main node, and the main node has as many
signals. The components of the subcomponents of a node have numbers of their own, below the number of components that
are created for the node. -/
theorem produceDagsStats_exact {program : ExecutedProgram} {dag : DAG} {main : Node}
    (h : program.exportDag = some dag) (hmain : dag.getMain = some main) :
    ∃ stats, produceDagsStats dag = some stats ∧
      treeTotal dag (fun node => node.inputsLength + node.outputsLength + node.intermediatesLength) =
        some stats.allSignals ∧
      treeTotal dag (fun node => node.inputsLength + node.outputsLength) = some stats.ioSignals ∧
      treeTotal dag (fun _ => 1) = some stats.allCreatedComponents ∧
      treeTotal dag Node.numberOfSubcomponentsIndexes = some stats.allNeededSubcomponentsIndexes ∧
      stats.allSignals = main.numberOfSignals ∧
      ∀ (n : ℕ) (edges : List Edge), dag.adjacency[n]? = some edges →
        edges.Pairwise (fun e e' => Disjoint e.componentRange e'.componentRange) ∧
        ∀ e ∈ edges, e.componentRange ⊆ Finset.range (total dag (fun _ => 1) n) := by
  obtain ⟨dag0, hdag0, rfl⟩ := Option.map_eq_some_iff.mp h
  have hcounted := allCounted_cleanConstraints (allCounted_insertAllInDag hdag0)
  obtain ⟨main', edges, hmain', hget, -, -⟩ := DAG.exists_main (DAG.ne_nil_of_getMain hmain)
  cases hmain.symm.trans hmain'
  refine ⟨_, produceDagsStats_eq (DAG.ne_nil_of_getMain hmain), treeTotal_eq hmain _, treeTotal_eq hmain _,
    treeTotal_eq hmain _, treeTotal_eq hmain _, (counters_eq_total hcounted _ main hget).1.symm, ?_⟩
  intro n edges hedges
  have hlt : n < dag0.cleanConstraints.nodes.length := by
    rw [← dag0.cleanConstraints.adjacency_length]
    exact (List.getElem?_eq_some_iff.mp hedges).1
  obtain ⟨node, -, hnode, -⟩ := dag0.cleanConstraints.exists_node hlt
  have hn := hcounted n node edges hnode hedges
  refine ⟨hn.ordered.imp fun hle => ?_, fun e he k hk => ?_⟩
  · refine Finset.disjoint_left.mpr fun k hk hk' => ?_
    unfold Edge.componentRange at hk hk'
    rw [Finset.mem_Ico] at hk hk'
    omega
  · unfold Edge.componentRange at hk
    rw [Finset.mem_Ico] at hk
    rw [Finset.mem_range, ← (counters_eq_total hcounted n node hnode).2]
    exact lt_of_lt_of_le hk.2 (hn.edge_le e he).2

/-- A template with one input. -/
def leafTemplate : ExecutedTemplate :=
  { ExecutedTemplate.nestedTemplate with
    reportName := "Leaf"
    inputs := [⟨"x", [], false⟩]
    outputs := []
    intermediates := []
    orderedSignals := []
    publicInputs := ∅
    underscoredSignals := [] }

/-- A main template with three places for its component, two of which are filled. -/
def pairProgram : ExecutedProgram where
  model :=
    [leafTemplate,
      { leafTemplate with
        reportName := "Main"
        inputs := [⟨"y", [2], false⟩]
        components := [⟨"c", [3], false⟩]
        connexions :=
          [{ fullName := "c[0]", inspect := ⟨"c", false, [0], 0⟩ },
            { fullName := "c[2]", inspect := ⟨"c", false, [2], 0⟩ }] }]
  modelBuses := ExecutedTemplate.nestedBuses
  prime := 5

theorem produceDagsStats_exact_pair :
    ∃ dag main stats, pairProgram.exportDag = some dag ∧ dag.getMain = some main ∧
      produceDagsStats dag = some stats ∧ stats.allSignals = 4 ∧ stats.allCreatedComponents = 3 ∧
      stats.allNeededSubcomponentsIndexes = 3 ∧
      treeTotal dag (fun _ => 1) = some stats.allCreatedComponents := by
  obtain ⟨dag, hdag⟩ := Option.isSome_iff_exists.mp (show pairProgram.exportDag.isSome from rfl)
  have hvalues : pairProgram.exportDag.bind (fun dag => (produceDagsStats dag).map fun stats =>
      (stats.allSignals, stats.allCreatedComponents, stats.allNeededSubcomponentsIndexes)) = some (4, 3, 3) := rfl
  have hnodes : pairProgram.exportDag.bind (fun dag => dag.getMain.map fun _ => ()) = some () := rfl
  rw [hdag, Option.bind_some] at hvalues hnodes
  obtain ⟨main, hmain, -⟩ := Option.map_eq_some_iff.mp hnodes
  obtain ⟨stats, hstats, -, -, hcreated, -⟩ := produceDagsStats_exact hdag hmain
  rw [hstats, Option.map_some, Option.some.injEq, Prod.mk.injEq, Prod.mk.injEq] at hvalues
  exact ⟨dag, main, stats, hdag, hmain, hstats, hvalues.1, hvalues.2.1, hvalues.2.2, hcreated⟩

end Circom.ConstraintGeneration
