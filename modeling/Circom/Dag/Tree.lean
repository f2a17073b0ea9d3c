import Circom.Dag.Dag
import Circom.Lib.Unfolding

/-!
# The unfolded tree

`Tree` of the crate `dag`: an instance of a node, met on the walk from the main node along the edges.
The names of signals and components in a tree are only printed, and are left out.
-/

namespace Circom.Dag

open Circom.Lib (HashMap LayeredGraph)

structure Tree where
  dag : DAG
  field : ℤ
  offset : ℕ
  nodeId : ℕ
  signals : List ℕ
  forbidden : Finset ℕ
  constraints : List Constraint

/-- The local signals of a node, shifted by an offset and sorted. -/
def Node.sortedSignals (node : Node) (offset : ℕ) : List ℕ :=
  ((node.correspondence.pairs.filter fun e => node.isLocalSignal e.2).map fun e =>
    e.2 + offset).insertionSort (· ≤ ·)

namespace Tree

def new (dag : DAG) : Option Tree := do
  let root ← dag.getMain
  let nodeId ← dag.mainId
  let entry ← dag.getEntry
  let offset := entry.inNumber
  some
    { dag := dag
      field := dag.prime
      offset := offset
      nodeId := nodeId
      signals := root.sortedSignals offset
      forbidden := root.forbiddenIfMain.image (· + offset)
      constraints := root.constraints }

/-- The tree of a node that is not the root: constraints are shifted and the empty ones dropped. -/
def ofNode (dag : DAG) (node : Node) (nodeId offset : ℕ) : Tree where
  dag := dag
  field := dag.prime
  offset := offset
  nodeId := nodeId
  signals := node.sortedSignals offset
  forbidden := ∅
  constraints :=
    (node.constraints.filter fun c => !c.isEmpty).map fun c => c.applyOffset offset

def goToSubtree (current : Tree) (edge : Edge) : Option Tree := do
  let node ← current.dag.nodes[edge.goesTo]?
  some (ofNode current.dag node edge.goesTo (current.offset + edge.inNumber))

def getEdges (tree : Tree) : Option (List Edge) := tree.dag.adjacency[tree.nodeId]?

/-- A recursion that visits a tree and then, edge by edge, its subtrees. Node numbers go down along the
edges, so one more than the number of the root bounds its depth. -/
def walk {σ : Type} (visit : σ → Tree → Option σ) (tree : Tree) (s : σ) : Option σ :=
  LayeredGraph.walk visit getEdges goToSubtree (tree.nodeId + 1) s tree

end Tree

/-! ## The witness -/

def produceTreeWitness (tree : Tree) (witness : List ℕ) : Option (List ℕ) :=
  tree.walk (fun witness tree => some (witness ++ tree.signals)) witness

/-- The signals of all instances, after the signal one. -/
def produceWitness (dag : DAG) : Option (List ℕ) := do
  let tree ← Tree.new dag
  produceTreeWitness tree [0]

/-- Adds the instance, its node and offset, if it belongs to a custom gate. -/
def Tree.pushGate (gates : List (ℕ × ℕ)) (tree : Tree) : Option (List (ℕ × ℕ)) := do
  let node ← tree.dag.nodes[tree.nodeId]?
  some (gates ++ if node.isCustomGate then [(tree.nodeId, tree.offset)] else [])

/-- The instances of custom gates in the unfolded tree, in the order of a walk. -/
def DAG.customGates (dag : DAG) : Option (List (ℕ × ℕ)) := do
  let tree ← Tree.new dag
  tree.walk Tree.pushGate []

end Circom.Dag
