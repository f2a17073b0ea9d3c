import Circom.Dag.Proofs.Numbering

/-!
# Numbering through a build

Each call of the builder keeps the numbering of all nodes. It keeps the names of the own signals as
well, unless it inserts a name that one of them has.
-/

namespace Circom.Dag

open Circom.Lib (HashMap foldlM_preserves)

variable {c : BuildCall} {dag dag' : DAG} {f : Node → Node}

namespace DAG

/-- The number of signals of a node. -/
def size (dag : DAG) (n : ℕ) : ℕ := ((dag.nodes[n]?).map Node.numberOfSignals).getD 0

theorem size_eq {n : ℕ} {node : Node} (h : dag.nodes[n]? = some node) : dag.size n = node.numberOfSignals := by
  simp [size, h]

/-- The numbering of every node. -/
def AllNumbered (dag : DAG) : Prop :=
  ∀ (n : ℕ) (node : Node) (edges : List Edge), dag.nodes[n]? = some node → dag.adjacency[n]? = some edges →
    Numbered dag.size node edges

/-- Every own signal of every node has a name. -/
def AllNamed (dag : DAG) : Prop :=
  ∀ (n : ℕ) (node : Node), dag.nodes[n]? = some node → Named node

/-- `dag'` differs from `dag` in the last node only. -/
structure ChangesMain (dag dag' : DAG) : Prop where
  length_eq : dag'.nodes.length = dag.nodes.length
  nodes_eq : ∀ n, n + 1 < dag.nodes.length → dag'.nodes[n]? = dag.nodes[n]?
  adjacency_eq : ∀ n, n + 1 < dag.nodes.length → dag'.adjacency[n]? = dag.adjacency[n]?

theorem ChangesMain.forall_nodes {P : Node → Prop} (hc : ChangesMain dag dag')
    (h : ∀ (n : ℕ) node, dag.nodes[n]? = some node → P node)
    (hmain : ∀ n node, n + 1 = dag.nodes.length → dag'.nodes[n]? = some node → P node) :
    ∀ (n : ℕ) node, dag'.nodes[n]? = some node → P node := by
  intro n node hnode
  have hlt : n < dag.nodes.length := hc.length_eq ▸ (List.getElem?_eq_some_iff.mp hnode).1
  rcases Nat.lt_or_ge (n + 1) dag.nodes.length with hn | hn
  · rw [hc.nodes_eq n hn] at hnode
    exact h n node hnode
  · exact hmain n node (by omega) hnode

/-! ## Calls on the main node -/

theorem changesMain_modifyMain (dag : DAG) (f : Node → Node) :
    ChangesMain dag (dag.modifyMain f) := by
  refine ⟨List.length_modify .., ?_, fun _ _ => rfl⟩
  intro n hn
  simp only [modifyMain]
  rw [List.getElem?_modify]
  have hne : dag.nodes.length - 1 ≠ n := by omega
  simp [hne]

theorem modifyMain_last {n : ℕ} {node : Node} (hn : n + 1 = dag.nodes.length)
    (h : (dag.modifyMain f).nodes[n]? = some node) :
    ∃ main, dag.nodes[n]? = some main ∧ dag.getMain = some main ∧ node = f main := by
  have hlast : dag.nodes.length - 1 = n := by omega
  simp only [modifyMain] at h
  rw [List.getElem?_modify, hlast] at h
  obtain ⟨main, hmain, rfl⟩ := Option.map_eq_some_iff.mp h
  refine ⟨main, hmain, ?_, by simp⟩
  rw [getMain, List.getLast?_eq_getElem?, hlast, hmain]

theorem forall_nodes_modifyMain {P : Node → Prop} (h : ∀ (n : ℕ) node, dag.nodes[n]? = some node → P node)
    (hf : ∀ node, dag.getMain = some node → P node → P (f node)) :
    ∀ (n : ℕ) node, (dag.modifyMain f).nodes[n]? = some node → P node := by
  refine (changesMain_modifyMain dag f).forall_nodes h ?_
  intro n node hn hnode
  obtain ⟨main, hmain, hget, rfl⟩ := modifyMain_last hn hnode
  exact hf main hget (h n main hmain)

/-! ## New nodes and edges -/

theorem forall_nodes_addNode {P : Node → Prop} (h : ∀ (n : ℕ) node, dag.nodes[n]? = some node → P node)
    {templateName : String} {parameters : List ℤ} {isParallel isCustomGate : Bool}
    (hnew : P (Node.new dag.nodes.length templateName parameters isParallel isCustomGate)) :
    ∀ (n : ℕ) node,
      (dag.addNode templateName parameters isParallel isCustomGate).1.nodes[n]? = some node → P node := by
  intro n node hnode
  rcases Nat.lt_or_ge n dag.nodes.length with hn | hn
  · rw [addNode, List.getElem?_append_left hn] at hnode
    exact h n node hnode
  · rw [addNode, List.getElem?_append_right hn] at hnode
    have h1 := List.mem_of_getElem? hnode
    rw [List.mem_singleton] at h1
    rw [h1]
    exact hnew

theorem allNamed_addNode (h : dag.AllNamed) (templateName : String) (parameters : List ℤ)
    (isParallel isCustomGate : Bool) : (dag.addNode templateName parameters isParallel isCustomGate).1.AllNamed := by
  refine forall_nodes_addNode h ?_
  intro id hid
  exact absurd hid (Finset.notMem_empty id)

/-- What `add_edge` does when its target is an earlier node. -/
theorem addEdge_cases {target : ℕ} {label : String} {isParallel : Bool} {edge : Option Edge}
    (h : dag.addEdge target label isParallel = some (dag', edge)) :
    ∃ source, dag.mainId = some source ∧
      ((¬ target < source ∧ dag' = dag) ∨
        ∃ node toNode, target < source ∧ dag.nodes[source]? = some node ∧
          dag.nodes[target]? = some toNode ∧
          dag'.nodes = dag.nodes.set source
            (node.addSubcomponent toNode (node.newEdge toNode target label) isParallel) ∧
          dag'.adjacency =
            dag.adjacency.modify source fun edges => edges ++ [node.newEdge toNode target label]) := by
  simp only [addEdge, Option.bind_eq_bind, Option.bind_eq_some_iff] at h
  obtain ⟨source, hsource, h⟩ := h
  refine ⟨source, hsource, ?_⟩
  split_ifs at h with hlt
  · simp only [Option.bind_eq_some_iff, Option.some.injEq, Prod.mk.injEq] at h
    obtain ⟨node, hnode, toNode, hto, rfl, -⟩ := h
    exact Or.inr ⟨node, toNode, hlt, hnode, hto, rfl, rfl⟩
  · simp only [Option.some.injEq, Prod.mk.injEq] at h
    exact Or.inl ⟨hlt, h.1.symm⟩

theorem mainId_eq_some {source : ℕ} (h : dag.mainId = some source) : source + 1 = dag.nodes.length := by
  unfold mainId at h
  split_ifs at h with h0
  have := Option.some.inj h
  omega

section AddEdge

variable {dag dag' : DAG} {source target : ℕ} {node toNode : Node} {label : String}
  {isParallel : Bool} (hsource : source + 1 = dag.nodes.length)
  (hnodes : dag'.nodes = dag.nodes.set source
    (node.addSubcomponent toNode (node.newEdge toNode target label) isParallel))
  (hadj : dag'.adjacency =
    dag.adjacency.modify source fun edges => edges ++ [node.newEdge toNode target label])

include hsource hnodes hadj

theorem changesMain_addEdge : ChangesMain dag dag' := by
  refine ⟨by rw [hnodes, List.length_set], ?_, ?_⟩
  · intro n hn
    rw [hnodes, List.getElem?_set_ne (by omega)]
  · intro n hn
    rw [hadj, List.getElem?_modify]
    have hne : source ≠ n := by omega
    simp [hne]

theorem forall_nodes_addEdge {P : Node → Prop} (h : ∀ (n : ℕ) node, dag.nodes[n]? = some node → P node)
    (hadd : P (node.addSubcomponent toNode (node.newEdge toNode target label) isParallel)) :
    ∀ (n : ℕ) node, dag'.nodes[n]? = some node → P node := by
  refine (changesMain_addEdge hsource hnodes hadj).forall_nodes h ?_
  intro n node' hn hnode'
  obtain rfl : n = source := by omega
  rw [hnodes, List.getElem?_set_self (by omega), Option.some.injEq] at hnode'
  rw [← hnode']
  exact hadd

theorem allNamed_addEdge (h : dag.AllNamed) (hnode : dag.nodes[source]? = some node)
    (hfresh : ∀ signal i, toNode.correspondence.lookup signal = some i → toNode.isLocalSignal i →
      ∀ id, node.correspondence.lookup (Node.concreteName label signal) = some id →
        id ∉ node.locals) : dag'.AllNamed :=
  forall_nodes_addEdge hsource hnodes hadj h (named_addSubcomponent (h source node hnode) hfresh)

end AddEdge

/-! ## Nodes and their edges -/

/-- A property of every node and its edges; `look` gives the nodes to which these go. -/
def EveryNode (P : (look : ℕ → Option Node) → Node → List Edge → Prop) (dag : DAG) : Prop :=
  ∀ (n : ℕ) (node : Node) (edges : List Edge), dag.nodes[n]? = some node → dag.adjacency[n]? = some edges →
    P (fun k => dag.nodes[k]?) node edges

/-- The calls on a node keep the property, and it does not depend on other nodes than those to which edges go. -/
structure KeptByCalls (P : (look : ℕ → Option Node) → Node → List Edge → Prop) : Prop where
  congr : ∀ {look look' : ℕ → Option Node} {node : Node} {edges : List Edge}, P look node edges →
    (∀ e ∈ edges, look' e.goesTo = look e.goesTo) → P look' node edges
  new : ∀ look id templateName parameters isParallel isCustomGate,
    P look (Node.new id templateName parameters isParallel isCustomGate) []
  addInput : ∀ {look node edges}, P look node edges → ∀ name isPublic, P look (node.addInput name isPublic) edges
  addOutput : ∀ {look node edges}, P look node edges → ∀ name, P look (node.addOutput name) edges
  addIntermediate : ∀ {look node edges}, P look node edges → ∀ name, P look (node.addIntermediate name) edges
  addSubcomponent : ∀ {look node edges target toNode toEdges}, P look node edges → look target = some toNode →
    P look toNode toEdges → ∀ label isParallel,
      P look (node.addSubcomponent toNode (node.newEdge toNode target label) isParallel)
        (edges ++ [node.newEdge toNode target label])
  addOrderedSignal : ∀ {look node edges}, P look node edges → ∀ name, P look (node.addOrderedSignal name) edges
  addConstraint : ∀ {look node edges}, P look node edges → ∀ c, P look (node.addConstraint c) edges
  addUnderscoredSignal : ∀ {look node edges}, P look node edges → ∀ signal,
    P look (node.addUnderscoredSignal signal) edges
  setNumberOfSubcomponentsIndexes : ∀ {look node edges}, P look node edges → ∀ numberScmp,
    P look (node.setNumberOfSubcomponentsIndexes numberScmp) edges

section EveryNode

variable {P : (look : ℕ → Option Node) → Node → List Edge → Prop} {dag dag' : DAG}

theorem ChangesMain.everyNode (hkept : KeptByCalls P) (hc : ChangesMain dag dag') (h : dag.EveryNode P)
    (hmain : ∀ n node edges, n + 1 = dag.nodes.length → dag'.nodes[n]? = some node →
      dag'.adjacency[n]? = some edges → P (fun k => dag.nodes[k]?) node edges) : dag'.EveryNode P := by
  intro n node edges hnode hedges
  have hlt : n < dag.nodes.length := hc.length_eq ▸ (List.getElem?_eq_some_iff.mp hnode).1
  -- edges go below the last node, where nothing changes
  have hlook : ∀ e ∈ edges, dag'.nodes[e.goesTo]? = dag.nodes[e.goesTo]? := by
    intro e he
    have hlower := dag'.goesTo_lt n edges hedges e he
    exact hc.nodes_eq e.goesTo (by omega)
  refine hkept.congr ?_ hlook
  rcases Nat.lt_or_ge (n + 1) dag.nodes.length with hn | hn
  · rw [hc.nodes_eq n hn] at hnode
    rw [hc.adjacency_eq n hn] at hedges
    exact h n node edges hnode hedges
  · exact hmain n node edges (by omega) hnode hedges

theorem EveryNode.modifyMain (hkept : KeptByCalls P) (h : dag.EveryNode P)
    (hf : ∀ {node edges}, P (fun k => dag.nodes[k]?) node edges → P (fun k => dag.nodes[k]?) (f node) edges) :
    (dag.modifyMain f).EveryNode P := by
  refine (changesMain_modifyMain dag f).everyNode hkept h ?_
  intro n node edges hn hnode hedges
  obtain ⟨main, hmain, -, rfl⟩ := modifyMain_last hn hnode
  exact hf (h n main edges hmain hedges)

theorem EveryNode.addNode (hkept : KeptByCalls P) (h : dag.EveryNode P) (templateName : String)
    (parameters : List ℤ) (isParallel isCustomGate : Bool) :
    (dag.addNode templateName parameters isParallel isCustomGate).1.EveryNode P := by
  intro n node edges hnode hedges
  rcases Nat.lt_or_ge n dag.nodes.length with hn | hn
  · have hnode' : dag.nodes[n]? = some node := by
      rwa [DAG.addNode, List.getElem?_append_left hn] at hnode
    have hedges' : dag.adjacency[n]? = some edges := by
      rwa [DAG.addNode, List.getElem?_append_left (by rw [dag.adjacency_length]; exact hn)] at hedges
    refine hkept.congr (h n node edges hnode' hedges') fun e he => ?_
    exact List.getElem?_append_left ((dag.goesTo_lt n edges hedges' e he).trans hn)
  · rw [DAG.addNode, List.getElem?_append_right hn] at hnode
    rw [DAG.addNode, List.getElem?_append_right (by rw [dag.adjacency_length]; exact hn)] at hedges
    obtain rfl := List.mem_singleton.mp (List.mem_of_getElem? hnode)
    obtain rfl := List.mem_singleton.mp (List.mem_of_getElem? hedges)
    exact hkept.new _ _ _ _ _ _

/-- A call keeps a property of all nodes that the calls on one node keep. -/
theorem EveryNode.call (hkept : KeptByCalls P) (h : dag.EveryNode P)
    (hc : dag.call c = some dag') : dag'.EveryNode P := by
  cases c with
  | addNode templateName parameters isParallel isCustomGate =>
    obtain rfl := Option.some.inj hc
    exact h.addNode hkept _ _ _ _
  | addInput name isPublic =>
    obtain rfl := Option.some.inj hc
    exact h.modifyMain hkept fun hn => hkept.addInput hn name isPublic
  | addOutput name =>
    obtain rfl := Option.some.inj hc
    exact h.modifyMain hkept fun hn => hkept.addOutput hn name
  | addIntermediate name =>
    obtain rfl := Option.some.inj hc
    exact h.modifyMain hkept fun hn => hkept.addIntermediate hn name
  | addOrderedSignal name =>
    obtain rfl := Option.some.inj hc
    exact h.modifyMain hkept fun hn => hkept.addOrderedSignal hn name
  | addConstraint c =>
    obtain rfl := Option.some.inj hc
    exact h.modifyMain hkept fun hn => hkept.addConstraint hn c
  | addUnderscoredSignal signal =>
    obtain rfl := Option.some.inj hc
    exact h.modifyMain hkept fun hn => hkept.addUnderscoredSignal hn signal
  | setNumberOfSubcomponentsIndexes numberScmp =>
    obtain rfl := Option.some.inj hc
    exact h.modifyMain hkept fun hn => hkept.setNumberOfSubcomponentsIndexes hn numberScmp
  | addEdge target label isParallel =>
    obtain ⟨⟨dag'', edge⟩, hadd, rfl⟩ := Option.map_eq_some_iff.mp hc
    obtain ⟨source, hsource, ⟨-, rfl⟩ | ⟨node, toNode, -, hnode, hto, hnodes, hadj⟩⟩ := addEdge_cases hadd
    · exact h
    · have hlength := mainId_eq_some hsource
      refine (changesMain_addEdge hlength hnodes hadj).everyNode hkept h ?_
      intro n node' edges' hn hnode' hedges'
      obtain rfl : n = source := by omega
      have hlt : n < dag.nodes.length := by omega
      obtain ⟨-, edges, -, hedges⟩ := dag.exists_node hlt
      obtain ⟨-, toEdges, -, htoEdges⟩ := dag.exists_node (List.getElem?_eq_some_iff.mp hto).1
      rw [hnodes, List.getElem?_set_self hlt, Option.some.injEq] at hnode'
      rw [hadj, List.getElem?_modify, hedges] at hedges'
      simp only [if_true, Option.map_eq_map, Option.map_some, Option.some.injEq] at hedges'
      subst hnode' hedges'
      exact hkept.addSubcomponent (h n node edges hnode hedges) hto (h target toNode toEdges hto htoEdges) label
        isParallel

theorem everyNode_new (P : (look : ℕ → Option Node) → Node → List Edge → Prop) (prime : ℤ) :
    (DAG.new prime).EveryNode P := by
  intro n node edges hnode
  cases hnode

end EveryNode

/-- The numbers of a node among the others. -/
def NumberedIn (look : ℕ → Option Node) (node : Node) (edges : List Edge) : Prop :=
  Numbered (fun n => ((look n).map Node.numberOfSignals).getD 0) node edges

theorem keptByCalls_numbered : KeptByCalls NumberedIn where
  congr h hlook := Numbered.congr_size h fun e he => by rw [hlook e he]
  new _ _ _ _ _ _ := numbered_new _ _ _ _ _ _
  addInput h name isPublic := (addsLocal_addInput _ name isPublic).numbered h
  addOutput h name := (addsLocal_addOutput _ name).numbered h
  addIntermediate h name := (addsLocal_addIntermediate _ name).numbered h
  addSubcomponent h hto hn _ _ := numbered_addSubcomponent h (by rw [hto]; rfl) hn.local_bounds
  addOrderedSignal h _ := ⟨h.1, h.2, h.3, h.4, h.5, h.6, h.7, h.8, h.9⟩
  addConstraint h _ := ⟨h.1, h.2, h.3, h.4, h.5, h.6, h.7, h.8, h.9⟩
  addUnderscoredSignal h _ := ⟨h.1, h.2, h.3, h.4, h.5, h.6, h.7, h.8, h.9⟩
  setNumberOfSubcomponentsIndexes h _ := ⟨h.1, h.2, h.3, h.4, h.5, h.6, h.7, h.8, h.9⟩

theorem allNumbered_call (h : dag.AllNumbered)
    (hc : dag.call c = some dag') : dag'.AllNumbered := EveryNode.call keptByCalls_numbered h hc

theorem allNumbered_addNode (h : dag.AllNumbered) (templateName : String) (parameters : List ℤ)
    (isParallel isCustomGate : Bool) : (dag.addNode templateName parameters isParallel isCustomGate).1.AllNumbered :=
  EveryNode.addNode keptByCalls_numbered h _ _ _ _

/-! ## Runs -/

/-- The call does not insert a name that belongs to an own signal of the main node. -/
def CallKeepsNames (dag : DAG) : BuildCall → Prop
  | .addInput name _ | .addOutput name | .addIntermediate name =>
    ∀ main, dag.getMain = some main → ∀ id, main.correspondence.lookup name = some id →
      id ∉ main.locals
  | .addEdge target label _ =>
    ∀ source main toNode, dag.mainId = some source → target < source →
      dag.nodes[source]? = some main → dag.nodes[target]? = some toNode →
      ∀ signal i, toNode.correspondence.lookup signal = some i → toNode.isLocalSignal i →
        ∀ id, main.correspondence.lookup (Node.concreteName label signal) = some id →
          id ∉ main.locals
  | _ => True

/-- No call of the build inserts a name that belongs to an own signal of the main node. -/
def BuildKeepsNames : DAG → List BuildCall → Prop
  | _, [] => True
  | dag, c :: calls =>
    dag.CallKeepsNames c ∧ ∀ dag', dag.call c = some dag' → BuildKeepsNames dag' calls

theorem allNamed_call (h : dag.AllNamed) (hk : dag.CallKeepsNames c) (hc : dag.call c = some dag') : dag'.AllNamed := by
  cases c with
  | addNode templateName parameters isParallel isCustomGate =>
    obtain rfl := Option.some.inj hc
    exact allNamed_addNode h _ _ _ _
  | addInput name isPublic =>
    obtain rfl := Option.some.inj hc
    exact forall_nodes_modifyMain h fun node hmain hn =>
      (addsLocal_addInput node name isPublic).named hn (hk node hmain)
  | addOutput name =>
    obtain rfl := Option.some.inj hc
    exact forall_nodes_modifyMain h fun node hmain hn =>
      (addsLocal_addOutput node name).named hn (hk node hmain)
  | addIntermediate name =>
    obtain rfl := Option.some.inj hc
    exact forall_nodes_modifyMain h fun node hmain hn =>
      (addsLocal_addIntermediate node name).named hn (hk node hmain)
  | addEdge target label isParallel =>
    obtain ⟨⟨dag'', edge⟩, hadd, rfl⟩ := Option.map_eq_some_iff.mp hc
    obtain ⟨source, hsource, ⟨-, rfl⟩ | ⟨node, toNode, hlt, hnode, hto, hnodes, hadj⟩⟩ :=
      addEdge_cases hadd
    · exact h
    · exact allNamed_addEdge (mainId_eq_some hsource) hnodes hadj h hnode
        (hk source node toNode hsource hlt hnode hto)
  | addOrderedSignal | addConstraint | addUnderscoredSignal | setNumberOfSubcomponentsIndexes =>
    obtain rfl := Option.some.inj hc
    exact forall_nodes_modifyMain h fun node _ hn => hn

theorem prime_call (hc : dag.call c = some dag') : dag'.prime = dag.prime := by
  cases c with
  | addEdge target label isParallel =>
    obtain ⟨⟨dag1, edge⟩, hadd, rfl⟩ := Option.map_eq_some_iff.mp hc
    obtain ⟨source, -, hadd⟩ := Option.bind_eq_some_iff.mp hadd
    split_ifs at hadd
    · obtain ⟨node, -, hadd⟩ := Option.bind_eq_some_iff.mp hadd
      obtain ⟨toNode, -, hadd⟩ := Option.bind_eq_some_iff.mp hadd
      rw [← (Prod.mk.inj (Option.some.inj hadd)).1]
    · rw [← (Prod.mk.inj (Option.some.inj hadd)).1]
  | addNode | addInput | addOutput | addIntermediate | addOrderedSignal | addConstraint
  | addUnderscoredSignal | setNumberOfSubcomponentsIndexes =>
    obtain rfl := Option.some.inj hc
    rfl

theorem allNumbered_build {prime : ℤ} {calls : List BuildCall}
    (h : (DAG.new prime).build calls = some dag) : dag.AllNumbered := by
  refine foldlM_preserves (fun _ dag => dag.AllNumbered) ?_ (l := calls) (s := DAG.new prime) ?_ h
  · intro c calls dag dag' hdag hc
    exact allNumbered_call hdag hc
  · exact everyNode_new NumberedIn prime

theorem allNamed_build {prime : ℤ} {calls : List BuildCall} (hk : (DAG.new prime).BuildKeepsNames calls)
    (h : (DAG.new prime).build calls = some dag) : dag.AllNamed := by
  refine (foldlM_preserves (fun calls dag => dag.BuildKeepsNames calls ∧ dag.AllNamed) ?_
    (l := calls) (s := DAG.new prime) ?_ h).2
  · rintro c calls dag dag' ⟨hkeep, hdag⟩ hc
    exact ⟨hkeep.2 dag' hc, allNamed_call hdag hkeep.1 hc⟩
  · refine ⟨hk, ?_⟩
    intro n node hnode
    cases hnode

end DAG

end Circom.Dag
