import Circom.Algebra.Proofs.Equalities
import Circom.Algebra.Proofs.Offset
import Circom.ConstraintList.Proofs.Unfolding
import Circom.Dag.MapToConstraintList
import Circom.Dag.Proofs.Witness

/-!
# The constraints of a circuit are classified without loss

`map` files the linear constraints of the unfolded tree in three lists and leaves the others to the
encoding. Together they are the constraints of all instances.
-/

namespace Circom.Dag

open Circom.Algebra (applyRawOffset)
open Circom.Algebra.Constraint (isLinear_of_isConstantEquality isLinear_of_isEquality
  shape_of_isConstantEquality shape_of_isEquality)
open Circom.ConstraintList (DAGEncoding EncodingIterator Simplifier)
open Circom.Lib (LayeredGraph foldlM_append_eq)

variable {c : Constraint} {dag : DAG} {main : Node} {simplifier : Simplifier} {n : ℕ} {field : ℤ}

/-! ## The four kinds of constraints -/

inductive Kind where
  | constantEquality
  | equality
  | linear
  | nonLinear
  deriving DecidableEq

/-- The kind of a constraint: the first test that it passes. -/
def kind (field : ℤ) (c : Constraint) : Kind :=
  if c.isConstantEquality then .constantEquality
  else if c.isEquality field then .equality
  else if c.isLinear then .linear
  else .nonLinear

def ofKind (field : ℤ) (k : Kind) (l : List Constraint) : List Constraint :=
  l.filter fun c => kind field c = k

/-- The tests of the encoding and of the tree agree on which constraints are non-linear. -/
theorem kind_eq_nonLinear : kind field c = .nonLinear ↔ c.isLinear = false := by
  unfold kind
  split_ifs with h1 h2 h3
  · simp [isLinear_of_isConstantEquality h1]
  · simp [isLinear_of_isEquality h2]
  · simp [h3]
  · simp [h3]

theorem isEquality_of_kind (h : kind field c = .equality) : c.isEquality field := by
  unfold kind at h
  split_ifs at h with h1 h2
  exact h2

theorem isConstantEquality_of_kind (h : kind field c = .constantEquality) : c.isConstantEquality := by
  unfold kind at h
  split_ifs at h with h1
  exact h1

theorem mem_ofKind {k : Kind} {l : List Constraint} : c ∈ ofKind field k l ↔ c ∈ l ∧ kind field c = k := by
  rw [ofKind, List.mem_filter, decide_eq_true_eq]

theorem ofKind_nonLinear (field : ℤ) (l : List Constraint) :
    ofKind field .nonLinear l = l.filter fun c => !c.isLinear := by
  refine List.filter_congr ?_
  intro c _
  simp only [kind_eq_nonLinear]
  cases c.isLinear <;> rfl

/-- Filing a list appends its constraints, kind by kind. -/
theorem foldl_push (field : ℤ) (l : List Constraint) (holder : CHolder) (n : ℕ) :
    l.foldl (CHolder.push field) (holder, n) =
      ({ linear := holder.linear ++ ofKind field .linear l
         equalities := holder.equalities ++ ofKind field .equality l
         constantEqualities := holder.constantEqualities ++ ofKind field .constantEquality l },
        n + (ofKind field .nonLinear l).length) := by
  induction l generalizing holder n with
  | nil => simp [ofKind]
  | cons c l ih =>
    rw [List.foldl_cons]
    by_cases h1 : c.isConstantEquality
    · have hk : kind field c = .constantEquality := if_pos h1
      simp [CHolder.push, h1, ih, ofKind, hk]
    by_cases h2 : c.isEquality field
    · have hk : kind field c = .equality := by simp [kind, h1, h2]
      simp [CHolder.push, h1, h2, ih, ofKind, hk]
    by_cases h3 : c.isLinear
    · have hk : kind field c = .linear := by simp [kind, h1, h2, h3]
      simp [CHolder.push, h1, h2, h3, ih, ofKind, hk]
    · have hk : kind field c = .nonLinear := by simp [kind, h1, h2, h3]
      simp [CHolder.push, h1, h2, h3, ih, ofKind, hk, Nat.add_assoc, Nat.add_comm]

/-- Every constraint is in the list of one kind. -/
theorem perm_kinds (field : ℤ) (l : List Constraint) :
    (ofKind field .equality l ++ ofKind field .constantEquality l ++ ofKind field .linear l ++
      ofKind field .nonLinear l).Perm l := by
  induction l with
  | nil => exact List.Perm.nil
  | cons c l ih =>
    simp only [ofKind] at ih ⊢
    simp only [List.append_assoc] at ih ⊢
    cases h : kind field c with
    | equality => simpa [h] using ih
    | constantEquality => simpa [h] using List.perm_middle.trans (ih.cons c)
    | linear =>
      simp only [h, List.filter_cons, reduceCtorEq, decide_false, decide_true, if_true,
        Bool.false_eq_true, if_false]
      rw [← List.append_assoc]
      refine List.perm_middle.trans ?_
      rw [List.append_assoc]
      exact ih.cons c
    | nonLinear =>
      simp only [h, List.filter_cons, reduceCtorEq, decide_false, decide_true, if_true,
        Bool.false_eq_true, if_false]
      rw [← List.append_assoc, ← List.append_assoc]
      refine List.perm_middle.trans ?_
      rw [List.append_assoc, List.append_assoc]
      exact ih.cons c

/-! ## The constraints of the tree -/

namespace DAG

/-- The instances below the root. -/
def properInstances (dag : DAG) (main : Node) : List (ℕ × ℕ) :=
  (dag.graph.edges (dag.nodes.length - 1)).flatMap fun e =>
    dag.graph.instances e.1 (main.entry.inNumber + e.2)

theorem lt_of_mem_properInstances {i : ℕ × ℕ} (h : i ∈ dag.properInstances main) : i.1 < dag.nodes.length := by
  obtain ⟨e, he, hi⟩ := List.mem_flatMap.mp h
  have h1 := dag.graph.instance_le hi
  have h2 := dag.graph.lower _ e he
  omega

/-- The constraints of an instance, all of them shifted. -/
def instanceConstraints (dag : DAG) (i : ℕ × ℕ) : List Constraint :=
  ((dag.nodes[i.1]?).map fun node => node.constraints.map fun c => c.applyOffset i.2).getD []

/-- The constraints of all nodes of the unfolded tree, each shifted by the offset of its node. -/
def treeConstraints (dag : DAG) : Option (List Constraint) := do
  let tree ← Tree.new dag
  tree.walk (fun constraints tree => do
    let node ← tree.dag.nodes[tree.nodeId]?
    some (constraints ++ node.constraints.map fun c => c.applyOffset tree.offset)) []

theorem treeConstraints_eq (hmain : dag.getMain = some main) :
    dag.treeConstraints = some ((main.constraints.map fun c => c.applyOffset main.entry.inNumber) ++
      (dag.properInstances main).flatMap dag.instanceConstraints) := by
  obtain ⟨main', edges, hmain', hnode, -, hedges⟩ := exists_main (ne_nil_of_getMain hmain)
  obtain rfl : main' = main := Option.some.inj (hmain'.symm.trans hmain)
  rw [treeConstraints, Tree.new_eq hmain, Option.bind_eq_bind, Option.bind_some,
    walk_rootTree hmain (fun constraints i => some (constraints ++ dag.instanceConstraints i))]
  · have hroot : (dag.rootTree main').dag.nodes[(dag.rootTree main').nodeId]? = some main' := hnode
    rw [hroot, Option.bind_eq_bind, Option.bind_some, Option.bind_some, foldlM_append_eq]
    rfl
  · intro constraints node n offset hn
    simp [instanceConstraints, Tree.ofNode, hn]

/-- The constraints that `map_tree` sees at an instance: the empty ones are dropped. -/
def instanceTreeConstraints (dag : DAG) (i : ℕ × ℕ) : List Constraint :=
  ((dag.nodes[i.1]?).map fun node => (Tree.ofNode dag node i.1 i.2).constraints).getD []

theorem instanceTreeConstraints_eq (h : ∀ node ∈ dag.nodes, ∀ c ∈ node.constraints, c.isEmpty = false) (i : ℕ × ℕ) :
    dag.instanceTreeConstraints i = dag.instanceConstraints i := by
  rw [instanceTreeConstraints, instanceConstraints]
  cases hnode : dag.nodes[i.1]? with
  | none => rfl
  | some node =>
    have hfilter : (node.constraints.filter fun c => !c.isEmpty) = node.constraints := by
      refine List.filter_eq_self.mpr ?_
      intro c hc
      rw [h node (List.mem_of_getElem? hnode) c hc]
      rfl
    simp only [Tree.ofNode, Option.map_some, Option.getD_some, hfilter]

/-- The constraints that `map_tree` sees: those of the root are not shifted. -/
def mappedConstraints (dag : DAG) (main : Node) : List Constraint :=
  main.constraints ++ (dag.properInstances main).flatMap dag.instanceTreeConstraints

def mappedSignals (dag : DAG) (main : Node) : List ℕ :=
  main.sortedSignals main.entry.inNumber ++ (dag.properInstances main).flatMap dag.instanceSignals

/-! ## What `map_tree` collects -/

/-- What the visit of an instance adds. -/
structure Collects (dag : DAG) (constraints : List Constraint) (signals : List ℕ)
    (acc acc' : MappedTree) : Prop where
  filed : (acc'.cHolder, acc'.noConstraints) =
    constraints.foldl (CHolder.push dag.prime) (acc.cHolder, acc.noConstraints)
  witness : acc'.witness = acc.witness ++ signals
  forbidden_subset : acc.forbidden ⊆ acc'.forbidden
  forbidden_le : acc'.forbidden ⊆ acc.forbidden ∪ signals.toFinset

theorem Collects.trans {constraints constraints' : List Constraint} {signals signals' : List ℕ}
    {acc acc' acc'' : MappedTree} (h : Collects dag constraints signals acc acc')
    (h' : Collects dag constraints' signals' acc' acc'') :
    Collects dag (constraints ++ constraints') (signals ++ signals') acc acc'' := by
  constructor
  · rw [List.foldl_append, ← h.filed, ← h'.filed]
  · rw [h'.witness, h.witness, List.append_assoc]
  · exact h.forbidden_subset.trans h'.forbidden_subset
  · refine h'.forbidden_le.trans ?_
    rw [List.toFinset_append, ← Finset.union_assoc]
    exact Finset.union_subset_union_left h.forbidden_le

theorem mapTreeNode_spec {node : Node} (tree : Tree) (hdag : tree.dag = dag) (hfield : tree.field = dag.prime)
    (hnode : dag.nodes[tree.nodeId]? = some node) (acc : MappedTree) :
    ∃ acc', mapTreeNode acc tree = some acc' ∧
      Collects dag tree.constraints tree.signals acc acc' := by
  rw [mapTreeNode, hdag, hnode]
  refine ⟨_, rfl, ?_, rfl, ?_, ?_⟩
  · rw [hfield]
  · show acc.forbidden ⊆ if node.isCustomGate then acc.forbidden ∪ tree.signals.toFinset else acc.forbidden
    split_ifs
    · exact Finset.subset_union_left
    · exact Finset.Subset.refl _
  · show (if node.isCustomGate then acc.forbidden ∪ tree.signals.toFinset else acc.forbidden) ⊆ _
    split_ifs
    · exact Finset.Subset.refl _
    · exact Finset.subset_union_left

/-- The visit of an instance of the graph. -/
def mapInstance (dag : DAG) (acc : MappedTree) (i : ℕ × ℕ) : Option MappedTree :=
  (dag.nodes[i.1]?).bind fun node => mapTreeNode acc (Tree.ofNode dag node i.1 i.2)

theorem foldlM_mapInstance (l : List (ℕ × ℕ)) (acc : MappedTree) (hl : ∀ i ∈ l, i.1 < dag.nodes.length) :
    ∃ acc', l.foldlM dag.mapInstance acc = some acc' ∧
      Collects dag (l.flatMap dag.instanceTreeConstraints) (l.flatMap dag.instanceSignals) acc
        acc' := by
  induction l generalizing acc with
  | nil =>
    exact ⟨acc, rfl, rfl, (List.append_nil _).symm, Finset.Subset.refl _, Finset.subset_union_left⟩
  | cons i l ih =>
    obtain ⟨node, -, hnode, -⟩ := dag.exists_node (hl i List.mem_cons_self)
    obtain ⟨acc1, hacc1, h1⟩ := mapTreeNode_spec (Tree.ofNode dag node i.1 i.2) rfl rfl hnode acc
    obtain ⟨acc2, hacc2, h2⟩ := ih acc1 fun j hj => hl j (List.mem_cons_of_mem i hj)
    refine ⟨acc2, ?_, ?_⟩
    · rw [List.foldlM_cons, mapInstance, hnode, Option.bind_some, hacc1]
      exact hacc2
    · simp only [List.flatMap_cons, instanceTreeConstraints, instanceSignals, hnode, Option.map_some,
        Option.getD_some]
      exact h1.trans h2

theorem mapTree_spec (hmain : dag.getMain = some main) (acc : MappedTree) :
    ∃ acc', mapTree (dag.rootTree main) acc = some acc' ∧
      Collects dag (dag.mappedConstraints main) (dag.mappedSignals main) acc acc' := by
  obtain ⟨main', edges, hmain', hnode, -, hedges⟩ := exists_main (ne_nil_of_getMain hmain)
  obtain rfl : main' = main := Option.some.inj (hmain'.symm.trans hmain)
  have hvisit : ∀ acc node n offset, dag.nodes[n]? = some node →
      mapTreeNode acc (Tree.ofNode dag node n offset) = dag.mapInstance acc (n, offset) := by
    intro acc node n offset hn
    rw [mapInstance, hn, Option.bind_some]
  obtain ⟨acc1, hacc1, h1⟩ := mapTreeNode_spec (dag.rootTree main') rfl rfl hnode acc
  obtain ⟨acc2, hacc2, h2⟩ := foldlM_mapInstance (dag.properInstances main') acc1
    fun i hi => lt_of_mem_properInstances hi
  refine ⟨acc2, ?_, h1.trans h2⟩
  rw [mapTree, walk_rootTree hmain dag.mapInstance hvisit, hacc1, Option.bind_some]
  exact hacc2

/-- The signals of the custom gates among the instances are forbidden. -/
def Forbids (dag : DAG) (forbidden : Finset ℕ) (l : List (ℕ × ℕ)) : Prop :=
  ∀ i ∈ l, ∀ node, dag.nodes[i.1]? = some node → node.isCustomGate = true →
    ∀ k ∈ node.sortedSignals i.2, k ∈ forbidden

theorem forbids_mapTreeNode {tree : Tree} {node : Node} (hnode : tree.dag.nodes[tree.nodeId]? = some node)
    {acc acc' : MappedTree} (h : mapTreeNode acc tree = some acc') :
    acc.forbidden ⊆ acc'.forbidden ∧
      (node.isCustomGate = true → ∀ k ∈ tree.signals, k ∈ acc'.forbidden) := by
  rw [mapTreeNode, hnode] at h
  obtain rfl := Option.some.inj h
  show acc.forbidden ⊆ (if node.isCustomGate then acc.forbidden ∪ tree.signals.toFinset else acc.forbidden) ∧
    (node.isCustomGate = true → ∀ k ∈ tree.signals,
      k ∈ if node.isCustomGate then acc.forbidden ∪ tree.signals.toFinset else acc.forbidden)
  split_ifs with hgate
  · refine ⟨Finset.subset_union_left, fun _ k hk => ?_⟩
    exact Finset.mem_union_right _ (List.mem_toFinset.mpr hk)
  · exact ⟨Finset.Subset.refl _, fun hgate' => absurd hgate' hgate⟩

theorem forbids_foldlM_mapInstance {l : List (ℕ × ℕ)} {acc acc' : MappedTree}
    (h : l.foldlM dag.mapInstance acc = some acc') : acc.forbidden ⊆ acc'.forbidden ∧ dag.Forbids acc'.forbidden l := by
  induction l generalizing acc with
  | nil =>
    obtain rfl := Option.some.inj h
    exact ⟨Finset.Subset.refl _, fun i hi => absurd hi List.not_mem_nil⟩
  | cons i l ih =>
    rw [List.foldlM_cons] at h
    obtain ⟨acc1, hacc1, h⟩ := Option.bind_eq_some_iff.mp h
    obtain ⟨node, hnode, hacc1⟩ := Option.bind_eq_some_iff.mp hacc1
    obtain ⟨hsub, hgate⟩ := forbids_mapTreeNode hnode hacc1
    obtain ⟨hsub', hrest⟩ := ih h
    refine ⟨hsub.trans hsub', fun j hj node' hnode' hgate' k hk => ?_⟩
    rcases List.mem_cons.mp hj with rfl | hj
    · obtain rfl := Option.some.inj (hnode.symm.trans hnode')
      exact hsub' (hgate hgate' k hk)
    · exact hrest j hj node' hnode' hgate' k hk

theorem forbids_mapTree (hmain : dag.getMain = some main) {acc acc' : MappedTree}
    (h : mapTree (dag.rootTree main) acc = some acc') :
    dag.Forbids acc'.forbidden (dag.graph.instances (dag.nodes.length - 1) main.entry.inNumber) := by
  obtain ⟨main', edges, hmain', hnode, -, hedges⟩ := exists_main (ne_nil_of_getMain hmain)
  obtain rfl : main' = main := Option.some.inj (hmain'.symm.trans hmain)
  have hvisit : ∀ acc node n offset, dag.nodes[n]? = some node →
      mapTreeNode acc (Tree.ofNode dag node n offset) = dag.mapInstance acc (n, offset) := by
    intro acc node n offset hn
    rw [mapInstance, hn, Option.bind_some]
  rw [mapTree, walk_rootTree hmain dag.mapInstance hvisit] at h
  obtain ⟨acc1, hacc1, h⟩ := Option.bind_eq_some_iff.mp h
  obtain ⟨-, hgate⟩ := @forbids_mapTreeNode (dag.rootTree main') main' hnode _ _ hacc1
  obtain ⟨hsub, hrest⟩ := forbids_foldlM_mapInstance h
  intro i hi node' hnode' hgate' k hk
  rw [LayeredGraph.instances_eq] at hi
  rcases List.mem_cons.mp hi with rfl | hi
  · obtain rfl := Option.some.inj (hnode.symm.trans hnode')
    exact hsub (hgate hgate' k hk)
  · exact hrest i hi node' hnode' hgate' k hk

/-! ## The encoding -/

theorem nonLinear_mapNodeToEncoding {id : ℕ} {node : Node} {encoded : ConstraintList.EncodingNode}
    (h : mapNodeToEncoding id node = some encoded) :
    encoded.nonLinear = node.constraints.filter fun c => !c.isLinear := by
  obtain ⟨ordered, -, h⟩ := Option.bind_eq_some_iff.mp h
  rw [← Option.some.inj h]

/-- The encoding has the edges of the graph and the non-linear constraints of its nodes. -/
theorem produceEncoding_spec {init : ℕ} {hinit : init < dag.nodes.length} {encoding : DAGEncoding}
    (h : produceEncoding n init dag hinit = some encoding) :
    encoding.init = init ∧ encoding.graph = dag.graph ∧
      ∀ i, encoding.instanceNonLinear i = (dag.instanceConstraints i).filter fun c => !c.isLinear := by
  rw [produceEncoding] at h
  split at h
  · cases h
  · rename_i nodes hnodes
    obtain rfl := Option.some.inj h
    refine ⟨rfl, ?_, ?_⟩
    · simp only [DAGEncoding.graph, graph, ConstraintList.DAGEncoding.graph, LayeredGraph.mk.injEq]
      funext k
      rw [List.getElem?_map]
      cases dag.adjacency[k]? with
      | none => rfl
      | some edges => simp [mapEdgeToEncoding]
    · intro i
      have hforall := Lib.forall₂_of_mapM hnodes
      rw [DAGEncoding.instanceNonLinear, instanceConstraints]
      cases hnode : dag.nodes[i.1]? with
      | none =>
        have hnone : nodes[i.1]? = none := by
          rw [List.getElem?_eq_none_iff, ← hforall.length_eq, List.length_zipIdx]
          exact List.getElem?_eq_none_iff.mp hnode
        simp only [hnone]
        rfl
      | some node =>
        have hindexed : dag.nodes.zipIdx[i.1]? = some (node, i.1) := by
          rw [List.getElem?_zipIdx, hnode, Option.map_some, Nat.zero_add]
        obtain ⟨encoded, hencoded, hmap⟩ := Lib.getElem?_of_forall₂ hforall hindexed
        simp only [hencoded, Option.map_some, Option.getD_some, nonLinear_mapNodeToEncoding hmap,
          List.filter_map, Function.comp_def, Algebra.Constraint.isLinear_applyOffset]

/-- Node by node, and edge by edge. -/
structure Encodes (dag : DAG) (encoding : DAGEncoding) : Prop where
  nodes : List.Forall₂ (fun e encoded => mapNodeToEncoding e.2 e.1 = some encoded) dag.nodes.zipIdx encoding.nodes
  adjacency_eq : encoding.adjacency = dag.adjacency.map fun edges => edges.map mapEdgeToEncoding

theorem encodes_produceEncoding {init : ℕ} {hinit : init < dag.nodes.length} {encoding : DAGEncoding}
    (h : produceEncoding n init dag hinit = some encoding) : dag.Encodes encoding := by
  rw [produceEncoding] at h
  split at h
  · cases h
  · rename_i nodes hnodes
    obtain rfl := Option.some.inj h
    exact ⟨Lib.forall₂_of_mapM hnodes, rfl⟩

/-- What the sections of the custom gates need of the simplifier. -/
theorem gates_of_map {flags : SimplificationFlags} (h : map dag flags = some simplifier) :
    ∃ main, dag.getMain = some main ∧ dag.Encodes simplifier.dagEncoding ∧
      dag.Forbids simplifier.forbidden (dag.graph.instances (dag.nodes.length - 1) main.entry.inNumber) := by
  obtain ⟨main, hmain, h⟩ := Option.bind_eq_some_iff.mp h
  obtain ⟨tree, htree, h⟩ := Option.bind_eq_some_iff.mp h
  obtain rfl := Option.some.inj ((Tree.new_eq hmain).symm.trans htree)
  obtain ⟨mapped, hmapped, h⟩ := Option.bind_eq_some_iff.mp h
  split_ifs at h with hlt
  obtain ⟨encoding, hencoding, h⟩ := Option.bind_eq_some_iff.mp h
  obtain rfl := Option.some.inj h
  exact ⟨main, hmain, encodes_produceEncoding hencoding, forbids_mapTree hmain hmapped⟩

/-- The simplifier that `map` makes of a graph with the main node `main`. -/
structure MapsTo (dag : DAG) (main : Node) (simplifier : Simplifier) : Prop where
  field_eq : simplifier.field = dag.prime
  graph_eq : simplifier.dagEncoding.graph = dag.graph
  init_eq : simplifier.dagEncoding.init = dag.nodes.length - 1
  nonLinear_eq : ∀ i, simplifier.dagEncoding.instanceNonLinear i =
    (dag.instanceConstraints i).filter fun c => !c.isLinear
  linear_eq : simplifier.linear = ofKind dag.prime .linear (dag.mappedConstraints main)
  equalities_eq : simplifier.equalities = ofKind dag.prime .equality (dag.mappedConstraints main)
  consEqualities_eq :
    simplifier.consEqualities = ofKind dag.prime .constantEquality (dag.mappedConstraints main)
  forbidden_subset : main.forbiddenIfMain ⊆ simplifier.forbidden
  forbidden_le : simplifier.forbidden ⊆ main.forbiddenIfMain ∪ (dag.mappedSignals main).toFinset
  maxSignal_eq : simplifier.maxSignal = (dag.mappedSignals main).length + 1

theorem map_spec {flags : SimplificationFlags} (h : map dag flags = some simplifier) :
    ∃ main, dag.getMain = some main ∧ MapsTo dag main simplifier := by
  obtain ⟨main, hmain, h⟩ := Option.bind_eq_some_iff.mp h
  obtain ⟨mapped, hmapped, hcollects⟩ := mapTree_spec hmain
    { witness := [0], forbidden := main.forbiddenIfMain }
  rw [Tree.new_eq hmain] at h
  simp only [Option.bind_eq_bind, Option.bind_some, hmapped] at h
  split_ifs at h with hlt
  obtain ⟨encoding, hencoding, h⟩ := Option.bind_eq_some_iff.mp h
  obtain ⟨hinit, hgraph, hnonLinear⟩ := produceEncoding_spec hencoding
  obtain rfl := Option.some.inj h
  have hfiled := hcollects.filed
  rw [foldl_push] at hfiled
  obtain ⟨hholder, -⟩ := Prod.mk.inj hfiled
  refine ⟨main, hmain, rfl, hgraph, hinit, hnonLinear, ?_, ?_, ?_, hcollects.forbidden_subset,
    hcollects.forbidden_le, ?_⟩
  · show mapped.cHolder.linear = _
    rw [hholder]
    rfl
  · show mapped.cHolder.equalities = _
    rw [hholder]
    rfl
  · show mapped.cHolder.constantEqualities = _
    rw [hholder]
    rfl
  · show mapped.witness.length = _
    rw [hcollects.witness]
    rfl

/-! ## A clean graph -/

theorem getElem?_cleanConstraints : dag.cleanConstraints.nodes[n]? = (dag.nodes[n]?).map Node.cleanConstraints :=
  List.getElem?_map

theorem numbered_cleanConstraints {size : ℕ → ℕ} {node : Node} {edges : List Edge}
    (h : Numbered size node edges) : Numbered size node.cleanConstraints edges :=
  ⟨h.entry_in, h.local_bounds, h.edge_eq, h.edge_le, h.edges_ordered, h.local_notMem, h.cover,
    h.value_le, h.name_unique⟩

theorem size_cleanConstraints (dag : DAG) : dag.cleanConstraints.size = dag.size := by
  funext n
  rw [size, size, getElem?_cleanConstraints, Option.map_map]
  rfl

theorem allNumbered_cleanConstraints (h : dag.AllNumbered) : dag.cleanConstraints.AllNumbered := by
  intro n node edges hnode hedges
  rw [getElem?_cleanConstraints] at hnode
  obtain ⟨node', hnode', rfl⟩ := Option.map_eq_some_iff.mp hnode
  rw [size_cleanConstraints]
  exact numbered_cleanConstraints (h n node' edges hnode' hedges)

theorem constraint_of_cleanConstraints {node : Node} (hnode : node ∈ dag.cleanConstraints.nodes)
    (hc : c ∈ node.constraints) :
    c.isEmpty = false ∧ ∃ node' ∈ dag.nodes, ∃ c' ∈ node'.constraints,
      c = c'.removeZeroValueCoefficients := by
  obtain ⟨node', hnode', rfl⟩ := List.mem_map.mp hnode
  obtain ⟨hmem, hempty⟩ := List.mem_filter.mp hc
  obtain ⟨c', hc', rfl⟩ := List.mem_map.mp hmem
  exact ⟨by simpa using hempty, node', hnode', c', hc', rfl⟩

/-! ## No constraint is lost or doubled -/

/-- Over a clean graph whose root has offset zero. -/
theorem MapsTo.perm (h : MapsTo dag main simplifier) (hmain : dag.getMain = some main) (hin : main.entry.inNumber = 0)
    (hclean : ∀ node ∈ dag.nodes, ∀ c ∈ node.constraints, c.isEmpty = false) {constraints : List Constraint}
    (hall : dag.treeConstraints = some constraints) :
    ((simplifier.equalities ++ simplifier.consEqualities ++ simplifier.linear ++
      simplifier.dagEncoding.unfoldedNonLinear).map Algebra.Constraint.toFinmaps).Perm
      (constraints.map Algebra.Constraint.toFinmaps) := by
  obtain ⟨main', edges, hmain', hnode, -, hedges⟩ := exists_main (ne_nil_of_getMain hmain)
  obtain rfl : main' = main := Option.some.inj (hmain'.symm.trans hmain)
  have hshift : ∀ l : List Constraint,
      (l.map fun c => c.applyOffset 0).map Algebra.Constraint.toFinmaps =
        l.map Algebra.Constraint.toFinmaps := by
    intro l
    rw [List.map_map]
    exact List.map_congr_left fun c _ => Algebra.Constraint.toFinmaps_applyOffset_zero c
  have hnone : dag.instanceTreeConstraints = dag.instanceConstraints :=
    funext (instanceTreeConstraints_eq hclean)
  have hseen : constraints.map Algebra.Constraint.toFinmaps =
      (dag.mappedConstraints main').map Algebra.Constraint.toFinmaps := by
    rw [treeConstraints_eq hmain, hin] at hall
    rw [← Option.some.inj hall, List.map_append, hshift, ← List.map_append, mappedConstraints, hnone]
  have hnonLinear : simplifier.dagEncoding.unfoldedNonLinear.map Algebra.Constraint.toFinmaps =
      (ofKind dag.prime .nonLinear (dag.mappedConstraints main')).map Algebra.Constraint.toFinmaps := by
    have hunfold : simplifier.dagEncoding.unfoldedNonLinear =
        ((main'.constraints.filter fun c => !c.isLinear).map fun c => c.applyOffset 0) ++
          ((dag.properInstances main').flatMap dag.instanceConstraints).filter fun c => !c.isLinear := by
      rw [DAGEncoding.unfoldedNonLinear, h.graph_eq, h.init_eq, LayeredGraph.instances_eq,
        List.flatMap_cons, List.filter_flatMap, h.nonLinear_eq, instanceConstraints, hnode]
      simp only [Option.map_some, Option.getD_some, List.filter_map, Function.comp_def,
        Algebra.Constraint.isLinear_applyOffset, properInstances, hin]
      congr 1
      exact List.flatMap_congr fun i _ => h.nonLinear_eq i
    rw [hunfold, ofKind_nonLinear, mappedConstraints, hnone, List.filter_append, List.map_append,
      List.map_append, hshift]
  rw [h.equalities_eq, h.consEqualities_eq, h.linear_eq, List.map_append, hnonLinear, hseen,
    ← List.map_append]
  exact (perm_kinds dag.prime (dag.mappedConstraints main')).map _

/-- The three lists and the non-linear constraints that the iterators meet are the constraints of the
unfolded tree, and the constraints in the first two lists have the shapes their names promise. -/
theorem map_classifies {prime : ℤ} {calls : List BuildCall} {dag : DAG} {flags : SimplificationFlags}
    {simplifier : Simplifier} (h : (DAG.new prime).build calls = some dag)
    (hs : map dag.cleanConstraints flags = some simplifier) :
    ∃ nonLinear constraints, simplifier.dagEncoding.nonLinearConstraints = some nonLinear ∧
      dag.cleanConstraints.treeConstraints = some constraints ∧
      ((simplifier.equalities ++ simplifier.consEqualities ++ simplifier.linear ++ nonLinear).map
        Algebra.Constraint.toFinmaps).Perm (constraints.map Algebra.Constraint.toFinmaps) ∧
      (∀ c ∈ simplifier.equalities, c.a = ∅ ∧ c.b = ∅ ∧ ∃ s s' v v', s ≠ s' ∧
        c.takeClonedSignals = {s, s'} ∧ c.c.lookup s = some v ∧ c.c.lookup s' = some v' ∧
        simplifier.field ∣ v + v') ∧
      ∀ c ∈ simplifier.consEqualities, c.a = ∅ ∧ c.b = ∅ ∧ ∃ s, c.takeClonedSignals = {s} := by
  obtain ⟨main, hmain, hmaps⟩ := map_spec hs
  have hnum := allNumbered_cleanConstraints (allNumbered_build h)
  obtain ⟨main', edges, hmain', hnode, -, hedges⟩ := exists_main (ne_nil_of_getMain hmain)
  obtain rfl : main' = main := Option.some.inj (hmain'.symm.trans hmain)
  have hin := (hnum _ main' edges hnode hedges).entry_in
  have hclean : ∀ node ∈ dag.cleanConstraints.nodes, ∀ c ∈ node.constraints, c.isEmpty = false :=
    fun node hnode c hc => (constraint_of_cleanConstraints hnode hc).1
  refine ⟨_, _, DAGEncoding.nonLinearConstraints_eq _, treeConstraints_eq hmain,
    hmaps.perm hmain hin hclean (treeConstraints_eq hmain), ?_, ?_⟩
  · intro c hc
    rw [hmaps.equalities_eq, mem_ofKind] at hc
    rw [hmaps.field_eq]
    exact shape_of_isEquality (isEquality_of_kind hc.2)
  · intro c hc
    rw [hmaps.consEqualities_eq, mem_ofKind] at hc
    exact shape_of_isConstantEquality (isConstantEquality_of_kind hc.2)

/-- A component that fixes its input, in a main template with a product and an equality. -/
def classifiedCalls : List BuildCall :=
  [.addNode "A" [] false false, .addInput "in" false,
    .addConstraint ⟨∅, ∅, AList.ofPairs [(0, 3), (1, 1)]⟩,
    .addNode "B" [] false false, .addEdge 0 "c" false, .addOutput "out",
    .addConstraint ⟨AList.ofPairs [(1, 1)], AList.ofPairs [(1, 1)], AList.ofPairs [(2, 1)]⟩,
    .addConstraint ⟨∅, ∅, AList.ofPairs [(1, 1), (2, 4)]⟩]

theorem map_classifies_five : ∃ dag simplifier nonLinear constraints,
    (DAG.new 5).build classifiedCalls = some dag ∧
    map dag.cleanConstraints ⟨0, false, false⟩ = some simplifier ∧
    simplifier.dagEncoding.nonLinearConstraints = some nonLinear ∧
    dag.cleanConstraints.treeConstraints = some constraints ∧
    ((simplifier.equalities ++ simplifier.consEqualities ++ simplifier.linear ++ nonLinear).map
      Algebra.Constraint.toFinmaps).Perm (constraints.map Algebra.Constraint.toFinmaps) ∧
    simplifier.equalities.length = 1 ∧ simplifier.consEqualities.length = 1 ∧
    nonLinear.length = 1 := by
  have h : ((DAG.new 5).build classifiedCalls).isSome := rfl
  have hs : (map (((DAG.new 5).build classifiedCalls).get h).cleanConstraints
    ⟨0, false, false⟩).isSome := rfl
  obtain ⟨nonLinear, constraints, hnonLinear, hconstraints, hperm, -, -⟩ :=
    map_classifies (Option.some_get h).symm (Option.some_get hs).symm
  have hlength : ((Option.get _ hs).dagEncoding.nonLinearConstraints).map List.length = some 1 := rfl
  rw [hnonLinear] at hlength
  exact ⟨_, _, nonLinear, constraints, (Option.some_get h).symm, (Option.some_get hs).symm,
    hnonLinear, hconstraints, hperm, rfl, rfl, Option.some.inj hlength⟩

end DAG

end Circom.Dag
