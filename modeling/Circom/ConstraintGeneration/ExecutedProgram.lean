import Circom.ConstraintGeneration.ExecutedTemplate
import Circom.Dag.MapToConstraintList

/-!
# The executed program

The graph that `export` makes of the executed templates: each template adds its node, after those of its
subcomponents, and the last one is the main template.
-/

namespace Circom.ConstraintGeneration

open Circom.Dag (DAG Edge Node)

structure ExecutedProgram where
  model : List ExecutedTemplate
  modelBuses : ModelBuses
  prime : ℤ

namespace ExecutedProgram

def insertAllInDag (self : ExecutedProgram) : Option DAG :=
  self.model.foldlM (fun dag exe => (exe.insertInDag dag self.modelBuses).map Prod.snd)
    (DAG.new self.prime)

/-- The graph part of `export`. -/
def exportDag (self : ExecutedProgram) : Option DAG := self.insertAllInDag.map DAG.cleanConstraints

end ExecutedProgram

/-! ## Statistics -/

structure Stats where
  allSignals : ℕ
  ioSignals : ℕ
  /-- The components that are really created. -/
  allCreatedComponents : ℕ
  /-- The places for the sons of all created components, filled or not. -/
  allNeededSubcomponentsIndexes : ℕ

/-- The entries of the subcomponents of a node are added to its own. -/
def addEdges (index : ℕ) (edges : List Edge) (v : List ℕ) : Option (List ℕ) :=
  edges.foldlM (fun v c => do
    let sub ← v[c.goesTo]?
    some (v.modify index (· + sub))) v

/-- One of the vectors of `produce_dags_stats`, which start with zeros; `own` is what a node adds to its entry. The
source fills the four vectors, which do not depend on each other, in one loop. -/
def produceVector (dag : DAG) (own : Node → ℕ) : Option (List ℕ) :=
  (List.range dag.nodes.length).foldlM (fun v index => do
    let node ← dag.nodes[index]?
    let edges ← dag.adjacency[index]?
    addEdges index edges (v.modify index (· + own node))) (List.replicate dag.nodes.length 0)

def produceDagsStats (dag : DAG) : Option Stats := do
  let allSignals ← produceVector dag fun node =>
    node.inputsLength + node.outputsLength + node.intermediatesLength
  let allIo ← produceVector dag fun node => node.inputsLength + node.outputsLength
  let allCreatedCmp ← produceVector dag fun _ => 1
  let allNeededSubcomponentsIndexes ← produceVector dag Node.numberOfSubcomponentsIndexes
  return {
    allSignals := ← allSignals.getLast?
    ioSignals := ← allIo.getLast?
    allCreatedComponents := ← allCreatedCmp.getLast?
    allNeededSubcomponentsIndexes := ← allNeededSubcomponentsIndexes.getLast? }

end Circom.ConstraintGeneration
