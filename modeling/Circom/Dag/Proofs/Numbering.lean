import Circom.Dag.Tree

/-!
# Numbering of signals

Every node numbers its own signals and those of its subcomponents from one upwards. A subcomponent has a
range of numbers, and the ranges and the own signals divide the numbers of the node between them.
-/

/-!
## Walking the tree is a loop over the instances

The recursive walks over `Tree` visit the root and then the instances below it in preorder.
-/

namespace Circom.Dag

open Circom.Lib (LayeredGraph)

variable {dag : DAG} {edges : List Edge} {main node : Node} {name : String} {n : ℕ} {size : ℕ → ℕ}

/-! ## The graph of the nodes -/

/-- The edges of the adjacency lists, with the offsets they add. -/
def DAG.graph (dag : DAG) : LayeredGraph where
  edges n := ((dag.adjacency[n]?).getD []).map fun e => (e.goesTo, e.inNumber)
  lower := by
    intro n e he
    obtain ⟨edge, hedge, rfl⟩ := List.mem_map.mp he
    cases h : dag.adjacency[n]? with
    | none => rw [h] at hedge; cases hedge
    | some edges => rw [h] at hedge; exact dag.goesTo_lt n edges h edge hedge

theorem DAG.graph_edges (h : dag.adjacency[n]? = some edges) :
    dag.graph.edges n = edges.map fun e => (e.goesTo, e.inNumber) := by
  simp only [DAG.graph, h, Option.getD_some]

/-- Every node of the graph has a node and a list of edges. -/
theorem DAG.exists_node (dag : DAG) (h : n < dag.nodes.length) :
    ∃ node edges, dag.nodes[n]? = some node ∧ dag.adjacency[n]? = some edges := by
  have h' : n < dag.adjacency.length := by rw [dag.adjacency_length]; exact h
  exact ⟨_, _, List.getElem?_eq_getElem h, List.getElem?_eq_getElem h'⟩

/-- A tree below the root is the one of its node and offset. -/
def IsSubtree (dag : DAG) (tree : Tree) (n offset : ℕ) : Prop :=
  ∃ node, dag.nodes[n]? = some node ∧ tree = Tree.ofNode dag node n offset

theorem goToSubtree_spec {tree : Tree} (hdag : tree.dag = dag) (hedges : dag.adjacency[n]? = some edges) : ∀ e ∈ edges,
    ∃ t, tree.goToSubtree e = some t ∧ IsSubtree dag t e.goesTo (tree.offset + e.inNumber) := by
  intro e he
  have hlt : n < dag.nodes.length := by
    rw [← dag.adjacency_length]
    exact (List.getElem?_eq_some_iff.mp hedges).1
  have hlower := dag.goesTo_lt n edges hedges e he
  obtain ⟨node, -, hnode, -⟩ := dag.exists_node (hlower.trans hlt)
  exact ⟨Tree.ofNode dag node e.goesTo (tree.offset + e.inNumber),
    by simp [Tree.goToSubtree, hdag, hnode], node, hnode, rfl⟩

theorem DAG.represents (dag : DAG) :
    dag.graph.Represents Tree.getEdges Tree.goToSubtree (fun e => (e.goesTo, e.inNumber))
      (IsSubtree dag) := by
  constructor
  · rintro t n offset ⟨node, hnode, rfl⟩
    obtain ⟨-, edges, -, hedges⟩ := dag.exists_node (List.getElem?_eq_some_iff.mp hnode).1
    exact ⟨edges, hedges, DAG.graph_edges hedges⟩
  · rintro t n offset edges ⟨node, hnode, rfl⟩ hedges
    exact goToSubtree_spec rfl hedges

/-! ## The root -/

theorem DAG.exists_main (h : dag.nodes ≠ []) :
    ∃ main edges, dag.getMain = some main ∧ dag.nodes[dag.nodes.length - 1]? = some main ∧
      dag.mainId = some (dag.nodes.length - 1) ∧
      dag.adjacency[dag.nodes.length - 1]? = some edges := by
  have hlen : 0 < dag.nodes.length := List.length_pos_iff.mpr h
  obtain ⟨main, edges, hmain, hedges⟩ := dag.exists_node (n := dag.nodes.length - 1) (by omega)
  refine ⟨main, edges, ?_, hmain, ?_, hedges⟩
  · rw [DAG.getMain, List.getLast?_eq_getElem?, hmain]
  · rw [DAG.mainId, if_neg (by omega)]

/-- The tree of the root. -/
def DAG.rootTree (dag : DAG) (main : Node) : Tree where
  dag := dag
  field := dag.prime
  offset := main.entry.inNumber
  nodeId := dag.nodes.length - 1
  signals := main.sortedSignals main.entry.inNumber
  forbidden := main.forbiddenIfMain.image (· + main.entry.inNumber)
  constraints := main.constraints

theorem DAG.ne_nil_of_getMain (hmain : dag.getMain = some main) : dag.nodes ≠ [] := by
  intro h
  simp [DAG.getMain, h] at hmain

theorem Tree.new_eq (hmain : dag.getMain = some main) : Tree.new dag = some (dag.rootTree main) := by
  obtain ⟨main', edges, hmain', -, hid, -⟩ := DAG.exists_main (DAG.ne_nil_of_getMain hmain)
  simp only [Tree.new, hmain, hid, DAG.getEntry, Option.bind_eq_bind, Option.bind_some,
    Option.map_some]
  rfl

/-- A walk from the root visits the root and then loops over the instances below it. -/
theorem walk_rootTree (hmain : dag.getMain = some main) {σ : Type} {visit : σ → Tree → Option σ}
    (visitInstance : σ → ℕ × ℕ → Option σ)
    (hvisit : ∀ s node n offset, dag.nodes[n]? = some node → visit s (Tree.ofNode dag node n offset) = visitInstance s (n, offset))
    (s : σ) :
    (dag.rootTree main).walk visit s = (visit s (dag.rootTree main)).bind fun s =>
      ((dag.graph.edges (dag.nodes.length - 1)).flatMap fun e =>
        dag.graph.instances e.1 (main.entry.inNumber + e.2)).foldlM visitInstance s := by
  obtain ⟨main', edges, hmain', -, hid, hedges⟩ := DAG.exists_main (DAG.ne_nil_of_getMain hmain)
  have hinstance : ∀ s t n offset, IsSubtree dag t n offset →
      visit s t = visitInstance s (n, offset) := by
    rintro s t n offset ⟨node, hnode, rfl⟩
    exact hvisit s node n offset hnode
  have hroot : Tree.getEdges (dag.rootTree main) = some edges := hedges
  have hfuel : dag.nodes.length - 1 < dag.nodes.length - 1 + 1 := Nat.lt_succ_self _
  exact dag.graph.walk_root_eq dag.represents hinstance hfuel hroot (DAG.graph_edges hedges)
    (goToSubtree_spec rfl hedges) s

/-! ## Numbering of signals -/

open Circom.Lib (HashMap LayeredGraph)

/-! ## One node -/

/-- The numbers of a node with the given edges, where `size` is the number of signals of a node. -/
structure Numbered (size : ℕ → ℕ) (node : Node) (edges : List Edge) : Prop where
  entry_in : node.entry.inNumber = 0
  local_bounds : ∀ k ∈ node.locals, 0 < k ∧ k ≤ node.numberOfSignals
  edge_eq : ∀ e ∈ edges, e.outNumber = e.inNumber + size e.goesTo
  edge_le : ∀ e ∈ edges, e.outNumber ≤ node.numberOfSignals
  edges_ordered : edges.Pairwise fun e e' => e.outNumber ≤ e'.inNumber
  local_notMem : ∀ k ∈ node.locals, ∀ e ∈ edges, k ≤ e.inNumber ∨ e.outNumber < k
  cover : ∀ k, 0 < k → k ≤ node.numberOfSignals →
    k ∈ node.locals ∨ ∃ e ∈ edges, e.inNumber < k ∧ k ≤ e.outNumber
  value_le : ∀ name id, node.correspondence.lookup name = some id → id ≤ node.numberOfSignals
  name_unique : ∀ name name' id, id ∈ node.locals → node.correspondence.lookup name = some id →
    node.correspondence.lookup name' = some id → name = name'

/-- Every own signal of the node has a name. -/
def Named (node : Node) : Prop :=
  ∀ id ∈ node.locals, ∃ name, node.correspondence.lookup name = some id

theorem numbered_new (size : ℕ → ℕ) (id : ℕ) (templateName : String) (parameters : List ℤ)
    (isParallel isCustomGate : Bool) :
    Numbered size (Node.new id templateName parameters isParallel isCustomGate) [] := by
  refine ⟨rfl, ?_, ?_, ?_, List.Pairwise.nil, ?_, ?_, ?_, ?_⟩
  · intro k hk
    exact absurd hk (Finset.notMem_empty k)
  · intro e he
    cases he
  · intro e he
    cases he
  · intro k hk
    exact absurd hk (Finset.notMem_empty k)
  · intro k h0 hk
    have : k ≤ 0 := hk
    omega
  · intro name id h
    cases h
  · intro name name' id hid
    exact absurd hid (Finset.notMem_empty id)

theorem Numbered.congr_size {size' : ℕ → ℕ} (h : Numbered size node edges)
    (hs : ∀ e ∈ edges, size' e.goesTo = size e.goesTo) : Numbered size' node edges := by
  refine { h with edge_eq := ?_ }
  intro e he
  rw [h.edge_eq e he, hs e he]

/-! ## A new signal of the node itself -/

/-- The node `node'` is `node` with one more own signal, called `name`. -/
structure AddsLocal (node node' : Node) (name : String) : Prop where
  entry_in : node'.entry.inNumber = node.entry.inNumber
  locals_eq : node'.locals = insert (node.numberOfSignals + 1) node.locals
  numberOfSignals_eq : node'.numberOfSignals = node.numberOfSignals + 1
  correspondence_eq : node'.correspondence = node.correspondence.insert name (node.numberOfSignals + 1)

theorem addsLocal_addInput (node : Node) (name : String) (isPublic : Bool) :
    AddsLocal node (node.addInput name isPublic) name := ⟨rfl, rfl, rfl, rfl⟩

theorem addsLocal_addOutput (node : Node) (name : String) :
    AddsLocal node (node.addOutput name) name := ⟨rfl, rfl, rfl, rfl⟩

theorem addsLocal_addIntermediate (node : Node) (name : String) :
    AddsLocal node (node.addIntermediate name) name := ⟨rfl, rfl, rfl, rfl⟩

theorem AddsLocal.numbered {node' : Node}
    (h : AddsLocal node node' name) (hn : Numbered size node edges) : Numbered size node' edges := by
  obtain ⟨hentry, hlocals, hsignals, hcorr⟩ := h
  refine ⟨hentry.trans hn.entry_in, ?_, hn.edge_eq, ?_, hn.edges_ordered, ?_, ?_, ?_, ?_⟩
  · intro k hk
    rw [hlocals, Finset.mem_insert] at hk
    rw [hsignals]
    rcases hk with rfl | hk
    · omega
    · have := hn.local_bounds k hk
      omega
  · intro e he
    rw [hsignals]
    exact Nat.le_succ_of_le (hn.edge_le e he)
  · intro k hk e he
    rw [hlocals, Finset.mem_insert] at hk
    rcases hk with rfl | hk
    · right
      exact Nat.lt_succ_of_le (hn.edge_le e he)
    · exact hn.local_notMem k hk e he
  · intro k h0 hk
    rw [hsignals] at hk
    rw [hlocals, Finset.mem_insert]
    rcases Nat.lt_or_ge node.numberOfSignals k with hlt | hge
    · left
      left
      omega
    · exact (hn.cover k h0 hge).imp_left Or.inr
  · intro s id hl
    rw [hcorr] at hl
    rw [hsignals]
    by_cases hs : s = name
    · subst hs
      rw [AList.lookup_insert, Option.some.injEq] at hl
      omega
    · rw [AList.lookup_insert_ne hs] at hl
      exact Nat.le_succ_of_le (hn.value_le s id hl)
  · intro s s' id hid hl hl'
    rw [hcorr] at hl hl'
    rw [hlocals, Finset.mem_insert] at hid
    -- an old entry is below the new number
    have hold : ∀ t, t ≠ name → AList.lookup t (node.correspondence.insert name
        (node.numberOfSignals + 1)) = some id → id ≤ node.numberOfSignals := by
      intro t ht hlt
      rw [AList.lookup_insert_ne ht] at hlt
      exact hn.value_le t id hlt
    have hnew : ∀ t, t = name → AList.lookup t (node.correspondence.insert name
        (node.numberOfSignals + 1)) = some id → id = node.numberOfSignals + 1 := by
      intro t ht hlt
      subst ht
      rw [AList.lookup_insert, Option.some.injEq] at hlt
      exact hlt.symm
    by_cases hs : s = name <;> by_cases hs' : s' = name
    · rw [hs, hs']
    · have h1 := hnew s hs hl
      have h2 := hold s' hs' hl'
      omega
    · have h1 := hold s hs hl
      have h2 := hnew s' hs' hl'
      omega
    · rw [AList.lookup_insert_ne hs] at hl
      rw [AList.lookup_insert_ne hs'] at hl'
      have h1 := hn.value_le s id hl
      have hidl : id ∈ node.locals := hid.resolve_left (by omega)
      exact hn.name_unique s s' id hidl hl hl'

/-- No own signal loses its name when the new name did not belong to one. -/
theorem AddsLocal.named {node' : Node} (h : AddsLocal node node' name) (hn : Named node)
    (hfresh : ∀ id, node.correspondence.lookup name = some id → id ∉ node.locals) : Named node' := by
  obtain ⟨-, hlocals, -, hcorr⟩ := h
  intro id hid
  rw [hlocals, Finset.mem_insert] at hid
  rw [hcorr]
  rcases hid with rfl | hid
  · exact ⟨name, AList.lookup_insert _⟩
  · obtain ⟨s, hs⟩ := hn id hid
    have hne : s ≠ name := by
      rintro rfl
      exact hfresh id hs hid
    exact ⟨s, by rw [AList.lookup_insert_ne hne]; exact hs⟩

/-! ## A new subcomponent -/

section Subcomponent

variable {edge : Edge} {toNode : Node}

variable (edge toNode) in
theorem foldl_addSubcomponentSignal_frame (l : List (String × ℕ)) (node : Node) :
    ∃ correspondence reachables, l.foldl (Node.addSubcomponentSignal edge toNode) node =
      { node with signalCorrespondence := correspondence, reachables := reachables } := by
  induction l generalizing node with
  | nil => exact ⟨_, _, rfl⟩
  | cons e l ih =>
    obtain ⟨correspondence, reachables, h⟩ := ih (Node.addSubcomponentSignal edge toNode node e)
    refine ⟨correspondence, reachables, ?_⟩
    rw [List.foldl_cons, h]
    unfold Node.addSubcomponentSignal
    split_ifs <;> rfl

variable (edge toNode) in
/-- A subcomponent changes the names, the reachable signals and the counters of its father only. -/
theorem addSubcomponent_frame (node : Node) (isParallel : Bool) :
    ∃ correspondence reachables, node.addSubcomponent toNode edge isParallel =
      { node with
        numberOfSignals := node.numberOfSignals + toNode.numberOfSignals
        numberOfComponents := node.numberOfComponents + toNode.numberOfComponents
        entry :=
          { node.entry with
            outNumber := node.entry.outNumber + toNode.numberOfSignals
            outComponentNumber := node.entry.outComponentNumber + toNode.numberOfComponents }
        hasParallelSubCmp := node.hasParallelSubCmp || toNode.isParallel || isParallel
        signalCorrespondence := correspondence
        reachables := reachables } :=
  foldl_addSubcomponentSignal_frame edge toNode _ _

theorem numberOfSignals_addSubcomponent (node : Node) (isParallel : Bool) :
    (node.addSubcomponent toNode edge isParallel).numberOfSignals =
      node.numberOfSignals + toNode.numberOfSignals := by
  obtain ⟨_, _, h⟩ := addSubcomponent_frame edge toNode node isParallel
  rw [h]

theorem locals_addSubcomponent (node : Node) (isParallel : Bool) :
    (node.addSubcomponent toNode edge isParallel).locals = node.locals := by
  obtain ⟨_, _, h⟩ := addSubcomponent_frame edge toNode node isParallel
  rw [h]

theorem correspondence_addSubcomponentSignal (node : Node) (e : String × ℕ) :
    (Node.addSubcomponentSignal edge toNode node e).correspondence =
      if toNode.isLocalSignal e.2 then
        node.correspondence.insert (Node.concreteName edge.label e.1) (edge.inNumber + e.2)
      else node.correspondence := by
  unfold Node.addSubcomponentSignal
  split_ifs <;> rfl

/-- An entry of the correspondence is an old one or belongs to a signal of the subcomponent. -/
theorem foldl_addSubcomponentSignal_lookup (l : List (String × ℕ)) (node : Node) {id : ℕ}
    (h : (l.foldl (Node.addSubcomponentSignal edge toNode) node).correspondence.lookup name = some id) :
    node.correspondence.lookup name = some id ∨
      ∃ e ∈ l, toNode.isLocalSignal e.2 ∧ name = Node.concreteName edge.label e.1 ∧ id = edge.inNumber + e.2 := by
  induction l generalizing node with
  | nil => exact Or.inl h
  | cons e l ih =>
    rcases ih _ h with h | ⟨e', he', h'⟩
    · rw [correspondence_addSubcomponentSignal] at h
      split_ifs at h with hlocal
      · by_cases hname : name = Node.concreteName edge.label e.1
        · subst hname
          rw [AList.lookup_insert, Option.some.injEq] at h
          exact Or.inr ⟨e, List.mem_cons_self, hlocal, rfl, h.symm⟩
        · left
          rwa [AList.lookup_insert_ne hname] at h
      · exact Or.inl h
    · exact Or.inr ⟨e', List.mem_cons_of_mem e he', h'⟩

/-- An entry stays unless a signal of the subcomponent gets its name. -/
theorem foldl_addSubcomponentSignal_keeps (l : List (String × ℕ)) (node : Node) {id : ℕ}
    (h : node.correspondence.lookup name = some id)
    (hl : ∀ e ∈ l, toNode.isLocalSignal e.2 → name ≠ Node.concreteName edge.label e.1) :
    (l.foldl (Node.addSubcomponentSignal edge toNode) node).correspondence.lookup name = some id := by
  induction l generalizing node with
  | nil => exact h
  | cons e l ih =>
    refine ih _ ?_ fun e' he' => hl e' (List.mem_cons_of_mem e he')
    rw [correspondence_addSubcomponentSignal]
    split_ifs with hlocal
    · rw [AList.lookup_insert_ne (hl e List.mem_cons_self hlocal)]
      exact h
    · exact h

theorem numbered_addSubcomponent {target : ℕ} {label : String} {isParallel : Bool} (hn : Numbered size node edges)
    (hsize : size target = toNode.numberOfSignals) (hto : ∀ k ∈ toNode.locals, 0 < k ∧ k ≤ toNode.numberOfSignals) :
    Numbered size (node.addSubcomponent toNode (node.newEdge toNode target label) isParallel)
      (edges ++ [node.newEdge toNode target label]) := by
  have hsignals := @numberOfSignals_addSubcomponent (node.newEdge toNode target label) toNode node isParallel
  have hlocals := @locals_addSubcomponent (node.newEdge toNode target label) toNode node isParallel
  have hlookup : ∀ name id,
      (node.addSubcomponent toNode (node.newEdge toNode target label)
        isParallel).correspondence.lookup name = some id →
      node.correspondence.lookup name = some id ∨
        node.numberOfSignals < id ∧ id ≤ node.numberOfSignals + toNode.numberOfSignals := by
    intro name id h
    rcases foldl_addSubcomponentSignal_lookup _ _ h with h | ⟨e, -, hlocal, -, rfl⟩
    · exact Or.inl h
    · right
      have := hto e.2 (by simpa [Node.isLocalSignal] using hlocal)
      simp only [Node.newEdge]
      omega
  have hin : (node.newEdge toNode target label).inNumber = node.numberOfSignals := rfl
  have hout : (node.newEdge toNode target label).outNumber =
      node.numberOfSignals + toNode.numberOfSignals := rfl
  refine ⟨?_, ?_, ?_, ?_, ?_, ?_, ?_, ?_, ?_⟩
  · obtain ⟨_, _, h⟩ := addSubcomponent_frame (node.newEdge toNode target label) toNode node isParallel
    rw [h]
    exact hn.entry_in
  · intro k hk
    rw [hlocals] at hk
    have h1 := hn.local_bounds k hk
    refine ⟨h1.1, ?_⟩
    rw [hsignals]
    exact h1.2.trans (Nat.le_add_right _ _)
  · intro e he
    rcases List.mem_append.mp he with he | he
    · exact hn.edge_eq e he
    · rw [List.mem_singleton.mp he, hin, hout]
      exact congrArg (node.numberOfSignals + ·) hsize.symm
  · intro e he
    rw [hsignals]
    rcases List.mem_append.mp he with he | he
    · exact (hn.edge_le e he).trans (Nat.le_add_right _ _)
    · rw [List.mem_singleton.mp he, hout]
  · rw [List.pairwise_append]
    refine ⟨hn.edges_ordered, List.pairwise_singleton _ _, ?_⟩
    intro e he e' he'
    rw [List.mem_singleton.mp he', hin]
    exact hn.edge_le e he
  · intro k hk e he
    rw [hlocals] at hk
    rcases List.mem_append.mp he with he | he
    · exact hn.local_notMem k hk e he
    · left
      rw [List.mem_singleton.mp he, hin]
      exact (hn.local_bounds k hk).2
  · intro k h0 hk
    rw [hsignals] at hk
    rcases Nat.lt_or_ge node.numberOfSignals k with hlt | hge
    · right
      refine ⟨_, List.mem_append_right _ List.mem_cons_self, ?_, ?_⟩
      · rw [hin]
        exact hlt
      · rw [hout]
        exact hk
    · rcases hn.cover k h0 hge with h | ⟨e, he, h⟩
      · left
        rw [hlocals]
        exact h
      · exact Or.inr ⟨e, List.mem_append_left _ he, h⟩
  · intro name id h
    rw [hsignals]
    rcases hlookup name id h with h | h
    · exact (hn.value_le name id h).trans (Nat.le_add_right _ _)
    · exact h.2
  · intro name name' id hid h h'
    rw [hlocals] at hid
    have hle := (hn.local_bounds id hid).2
    have h1 := (hlookup name id h).resolve_right (by omega)
    have h2 := (hlookup name' id h').resolve_right (by omega)
    exact hn.name_unique name name' id hid h1 h2

theorem named_addSubcomponent {isParallel : Bool} (hn : Named node)
    (hfresh : ∀ signal i, toNode.correspondence.lookup signal = some i → toNode.isLocalSignal i →
      ∀ id, node.correspondence.lookup (Node.concreteName edge.label signal) = some id →
        id ∉ node.locals) :
    Named (node.addSubcomponent toNode edge isParallel) := by
  intro id hid
  rw [locals_addSubcomponent] at hid
  obtain ⟨name, hname⟩ := hn id hid
  refine ⟨name, foldl_addSubcomponentSignal_keeps _ _ hname ?_⟩
  rintro ⟨signal, i⟩ he hlocal rfl
  exact hfresh signal i (AList.mem_pairs_iff_lookup.mp he) hlocal id hname hid

end Subcomponent

end Circom.Dag
