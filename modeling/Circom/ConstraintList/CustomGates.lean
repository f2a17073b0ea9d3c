import Circom.ConstraintList.ConstraintSimplification
import Circom.ConstraintWriters.R1csWriter

/-!
# The R1CS file of a constraint list

`port_r1cs` of the crate `constraint_list`: the custom gates in use with their applications, and what is written to
the file. The log is left out.
-/

namespace Circom.ConstraintList

open Circom.ConstraintWriters (CustomGatesAppliedData CustomGatesUsedData R1CSContent)
open Circom.Lib (HashOrder LayeredGraph)

/-- Pops characters up to the last parenthesis. Without one the loop does not end. -/
def popParenthesis (name : String) : Option String :=
  match name.toList.reverse.dropWhile (· != '(') with
  | [] => none
  | _ :: rest => some (String.ofList rest.reverse)

/-- The usages with the names of their nodes. -/
def usageData (encoding : DAGEncoding) : Option (CustomGatesUsedData × List String) := do
  let gates := encoding.nodes.filter (·.isCustomGate)
  let usages ← gates.mapM fun node => do
    let name ← popParenthesis node.name
    some (name, node.parameters)
  some (usages, gates.map (·.name))

/-- Panics when a signal has no position in the witness. -/
def visitGate (map : SignalMap) (applicationData : List (String × List ℕ)) (iterator : EncodingIterator) :
    Option (List (String × List ℕ)) := do
  let node ← iterator.encoding.nodes[iterator.nodeId]?
  if node.isCustomGate then do
    let signals ← node.orderedSignals.mapM fun signal => map.lookup (signal + iterator.offset)
    some (applicationData ++ [(node.name, signals)])
  else some applicationData

/-- The edges that `iterate` follows: none below a custom gate. -/
def edgesToVisit (iterator : EncodingIterator) : Option (List EncodingEdge) := do
  let node ← iterator.encoding.nodes[iterator.nodeId]?
  if node.isCustomGate then some [] else iterator.edges

def iterate (iterator : EncodingIterator) (map : SignalMap) (applicationData : List (String × List ℕ)) :
    Option (List (String × List ℕ)) :=
  LayeredGraph.walk (visitGate map) edgesToVisit EncodingIterator.next (iterator.nodeId + 1) applicationData iterator

/-- Runs past the end of `occurringOrder` when a name does not occur in it. -/
def findIndexes (occurringOrder : List String) (applicationData : List (String × List ℕ)) :
    Option CustomGatesAppliedData :=
  applicationData.mapM fun (customGateName, signals) => do
    let index ← occurringOrder.findIdx? (· == customGateName)
    some (index, signals)

/-- The data of the two sections about custom gates. -/
def ConstraintList.customGates (list : ConstraintList) : Option (CustomGatesUsedData × CustomGatesAppliedData) := do
  let (usages, occurringOrder) ← usageData list.dagEncoding
  let iterator ← EncodingIterator.new list.dagEncoding
  let applicationData ← iterate iterator list.signalMap []
  let applications ← findIndexes occurringOrder applicationData
  some (usages, applications)

/-- Without custom gates the two sections are not written. -/
def ConstraintList.gateData (list : ConstraintList) (customGates : Bool) :
    Option (CustomGatesUsedData × CustomGatesAppliedData) := if customGates then list.customGates else some ([], [])

/-- What is written: the constraints with positions in the witness instead of signals. -/
def ConstraintList.r1csContent (o : HashOrder) (list : ConstraintList) (customGates : Bool) : Option R1CSContent := do
  let constraints ← list.constraints.getIds.mapM fun cId => do
    let c ← list.constraints.readConstraint cId
    let c ← c.applyCorrespondence list.signalMap
    some (c.a, c.b, c.c)
  let wires ← list.getWitnessAsVec o
  let gates ← list.gateData customGates
  some
    { constraints := constraints
      headerData :=
        { field := list.field
          totalWires := list.noWires
          publicOutputs := list.noPublicOutputs
          publicInputs := list.noPublicInputs
          privateInputs := list.noPrivateInputs
          numberOfLabels := list.noLabels
          numberOfConstraints := constraints.length }
      wires := wires
      customGates := customGates
      usageData := gates.1
      applicationData := gates.2 }

/-- The bytes of the file. -/
def ConstraintList.portR1cs (o : HashOrder) (list : ConstraintList) (customGates : Bool) : Option (List UInt8) := do
  let content ← list.r1csContent o customGates
  ConstraintWriters.portR1cs content

end Circom.ConstraintList
