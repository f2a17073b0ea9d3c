import Circom.ConstraintList.CustomGates
import Circom.Dag.Tree

/-!
# The R1CS file of a circuit graph

`r1cs_porting` of the crate `dag` writes the file when nothing is simplified: every signal is a wire. The log is
left out.
-/

namespace Circom.Dag

open Circom.ConstraintList (findIndexes popParenthesis)
open Circom.ConstraintWriters (CustomGatesAppliedData CustomGatesUsedData R1CSContent)
open Circom.Lib (LayeredGraph)

/-- The constraints of a tree and its subtrees as they are written, and the number of their signals. -/
def writeConstraintSection (tree : Tree) : Option (List Constraint × ℕ) :=
  tree.walk (fun s tree => some (s.1 ++ tree.constraints, s.2 + tree.signals.length)) ([], 0)

/-- Panics when an ordered signal has no number. -/
def visitGate (applicationData : List (String × List ℕ)) (tree : Tree) : Option (List (String × List ℕ)) := do
  let node ← tree.dag.nodes[tree.nodeId]?
  if node.isCustomGate then do
    let signals ← node.orderedSignals.mapM node.signalCorrespondence.lookup
    some (applicationData ++ [(node.templateName, signals.map (· + tree.offset))])
  else some applicationData

/-- The edges that `traverse_tree` follows: none below a custom gate. -/
def edgesToVisit (tree : Tree) : Option (List Edge) := do
  let node ← tree.dag.nodes[tree.nodeId]?
  if node.isCustomGate then some [] else tree.getEdges

def traverseTree (tree : Tree) (applicationData : List (String × List ℕ)) : Option (List (String × List ℕ)) :=
  LayeredGraph.walk visitGate edgesToVisit Tree.goToSubtree (tree.nodeId + 1) applicationData tree

/-- The data of the two sections about custom gates, which are not written without custom gates. -/
def Tree.gateData (tree : Tree) (customGates : Bool) : Option (CustomGatesUsedData × CustomGatesAppliedData) :=
  if customGates then do
    let gates := tree.dag.nodes.filter (·.isCustomGate)
    let usageData ← gates.mapM fun node => do
      let name ← popParenthesis node.templateName
      some (name, node.parameters)
    let applicationData ← traverseTree tree []
    let applications ← findIndexes (gates.map (·.templateName)) applicationData
    some (usageData, applications)
  else some ([], [])

/-- What is written. Labels are wires. -/
def DAG.r1csContent (dag : DAG) (customGates : Bool) : Option R1CSContent := do
  let tree ← Tree.new dag
  let written ← writeConstraintSection tree
  let gates ← tree.gateData customGates
  let wires := written.2 + 1
  some
    { constraints := written.1.map fun c => (c.a, c.b, c.c)
      headerData :=
        { field := tree.field
          totalWires := wires
          publicOutputs := dag.publicOutputs
          publicInputs := dag.publicInputs
          privateInputs := dag.privateInputs
          numberOfLabels := wires
          numberOfConstraints := written.1.length }
      wires := List.range wires
      customGates := customGates
      usageData := gates.1
      applicationData := gates.2 }

/-- The bytes of the file. -/
def DAG.write (dag : DAG) (customGates : Bool) : Option (List UInt8) := do
  let content ← dag.r1csContent customGates
  ConstraintWriters.portR1cs content

end Circom.Dag
