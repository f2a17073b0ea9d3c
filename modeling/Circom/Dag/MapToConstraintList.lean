import Circom.ConstraintList.Encoding
import Circom.Dag.Tree

/-!
# From the circuit graph to the constraint list

`clean_constraints` and the classification of the constraints by `map` of the crate `dag`.
-/

namespace Circom.Dag

open Circom.Lib (HashMap)
open Circom.ConstraintList (DAGEncoding EncodingEdge EncodingNode SignalInfo Simplifier)

/-! ## Cleaning -/

def Node.cleanConstraints (node : Node) : Node :=
  { node with
    constraints :=
      (node.constraints.map fun c => c.removeZeroValueCoefficients).filter fun c => !c.isEmpty }

def DAG.cleanConstraints (dag : DAG) : DAG :=
  { dag with
    nodes := dag.nodes.map Node.cleanConstraints
    adjacency_length := by rw [List.length_map, dag.adjacency_length] }

/-! ## The linear constraints of the tree -/

structure CHolder where
  linear : List Constraint := []
  equalities : List Constraint := []
  constantEqualities : List Constraint := []

/-- Files a constraint in the list of its kind; a non-linear one is only counted. -/
def CHolder.push (field : ℤ) (acc : CHolder × ℕ) (constraint : Constraint) : CHolder × ℕ :=
  let (cHolder, noConstraints) := acc
  if constraint.isConstantEquality then
    ({ cHolder with constantEqualities := cHolder.constantEqualities ++ [constraint] }, noConstraints)
  else if constraint.isEquality field then
    ({ cHolder with equalities := cHolder.equalities ++ [constraint] }, noConstraints)
  else if constraint.isLinear then
    ({ cHolder with linear := cHolder.linear ++ [constraint] }, noConstraints)
  else (cHolder, noConstraints + 1)

/-- What `map_tree` collects. -/
structure MappedTree where
  witness : List ℕ
  cHolder : CHolder := {}
  forbidden : Finset ℕ
  noConstraints : ℕ := 0

def mapTreeNode (acc : MappedTree) (tree : Tree) : Option MappedTree := do
  let node ← tree.dag.nodes[tree.nodeId]?
  let (cHolder, noConstraints) :=
    tree.constraints.foldl (CHolder.push tree.field) (acc.cHolder, acc.noConstraints)
  some
    { witness := acc.witness ++ tree.signals
      cHolder := cHolder
      forbidden :=
        if node.isCustomGate then acc.forbidden ∪ tree.signals.toFinset else acc.forbidden
      noConstraints := noConstraints }

def mapTree (tree : Tree) (acc : MappedTree) : Option MappedTree := tree.walk mapTreeNode acc

/-! ## The encoding -/

/-- Panics when an ordered signal has no number. -/
def mapNodeToEncoding (id : ℕ) (node : Node) : Option EncodingNode := do
  let orderedSignals ← node.orderedSignals.mapM node.signalCorrespondence.lookup
  let signals := (node.signalCorrespondence.pairs.filter fun e => e.2 ∈ node.locals).map fun e =>
    ({ name := e.1, id := e.2 } : SignalInfo)
  some
    { id := id
      name := node.templateName
      parameters := node.parameters
      signals := signals.insertionSort fun a b => a.id ≤ b.id
      orderedSignals := orderedSignals
      nonLinear := node.constraints.filter fun c => !c.isLinear
      isCustomGate := node.isCustomGate }

def mapEdgeToEncoding (edge : Edge) : EncodingEdge :=
  { goesTo := edge.goesTo, path := edge.label, offset := edge.inNumber }

theorem length_of_mapM {α β : Type} {f : α → Option β} {l : List α} {l' : List β}
    (h : l.mapM f = some l') : l'.length = l.length :=
  (Lib.forall₂_of_mapM h).length_eq.symm

def produceEncoding (noConstraints init : ℕ) (dag : DAG) (hinit : init < dag.nodes.length) :
    Option DAGEncoding :=
  match h : dag.nodes.zipIdx.mapM fun e => mapNodeToEncoding e.2 e.1 with
  | none => none
  | some nodes =>
    some
      { init := init
        noConstraints := noConstraints
        nodes := nodes
        adjacency := dag.adjacency.map fun edges => edges.map mapEdgeToEncoding
        adjacency_length := by
          rw [List.length_map, dag.adjacency_length, length_of_mapM h, List.length_zipIdx]
        goesTo_lt := by
          intro i edges hedges e he
          rw [List.getElem?_map] at hedges
          obtain ⟨edges', hedges', rfl⟩ := Option.map_eq_some_iff.mp hedges
          obtain ⟨edge, hedge, rfl⟩ := List.mem_map.mp he
          exact dag.goesTo_lt i edges' hedges' edge hedge
        init_lt := by
          rw [length_of_mapM h, List.length_zipIdx]
          exact hinit }

structure SimplificationFlags where
  noRounds : ℕ
  flagS : Bool
  flagOldHeuristics : Bool

/-- The `Simplifier` that `map` hands over. -/
def map (dag : DAG) (flags : SimplificationFlags) : Option Simplifier := do
  let main ← dag.getMain
  let tree ← Tree.new dag
  let mapped ← mapTree tree { witness := [0], forbidden := main.forbiddenIfMain }
  if h : dag.nodes.length - 1 < dag.nodes.length then
    let nameEncoding ← produceEncoding mapped.noConstraints (dag.nodes.length - 1) dag h
    some
      { field := dag.prime
        noPublicInputs := dag.publicInputs
        noPublicOutputs := dag.publicOutputs
        noPrivateInputs := dag.privateInputs
        forbidden := mapped.forbidden
        maxSignal := mapped.witness.length
        dagEncoding := nameEncoding
        linear := mapped.cHolder.linear
        equalities := mapped.cHolder.equalities
        consEqualities := mapped.cHolder.constantEqualities
        noRounds := flags.noRounds
        flagS := flags.flagS
        flagOldHeuristics := flags.flagOldHeuristics }
  else none

end Circom.Dag
