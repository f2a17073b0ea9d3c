import Circom.Algebra.Constraint

/-!
# The circuit graph

`DAG` of the crate `dag`: a node for each template instance with its signals and constraints, and an
edge for each subcomponent. Only the last node, the main one, is under construction, and its edges go to
nodes that are finished. Counters of signals and components are natural numbers.
-/

namespace Circom.Dag

open Circom.Lib (HashMap)

abbrev Signal := ℕ

abbrev Constraint := Algebra.Constraint ℕ

/-- A subcomponent. Its signals get the numbers from `inNumber + 1` to `outNumber`. -/
structure Edge where
  label : String
  goesTo : ℕ
  inNumber : ℕ
  outNumber : ℕ
  inComponentNumber : ℕ
  outComponentNumber : ℕ
  deriving DecidableEq, Inhabited

namespace Edge

def newEntry (id : ℕ) : Edge := ⟨"main", id, 0, 0, 0, 0⟩

/-- `(in_number + 1)..(out_number + 1)`. -/
def getSignalRange (edge : Edge) : Finset ℕ := Finset.Ico (edge.inNumber + 1) (edge.outNumber + 1)

end Edge

structure Node where
  entry : Edge
  templateName : String
  parameters : List ℤ
  numberOfSignals : ℕ := 0
  numberOfComponents : ℕ
  intermediatesLength : ℕ := 0
  publicInputsLength : ℕ := 0
  inputsLength : ℕ := 0
  outputsLength : ℕ := 0
  signalCorrespondence : HashMap String Signal := ∅
  orderedSignals : List String := []
  locals : Finset ℕ := ∅
  /-- Locals and the inputs and outputs of subcomponents. -/
  reachables : Finset ℕ := ∅
  forbiddenIfMain : Finset ℕ
  ioSignals : List ℕ := []
  constraints : List Constraint := []
  underscoredSignals : List ℕ := []
  isParallel : Bool
  hasParallelSubCmp : Bool := false
  isCustomGate : Bool
  numberOfSubcomponentsIndexes : ℕ := 0

namespace Node

def new (id : ℕ) (templateName : String) (parameters : List ℤ) (isParallel isCustomGate : Bool) :
    Node where
  entry := Edge.newEntry id
  templateName := templateName
  parameters := parameters
  numberOfComponents := 1
  forbiddenIfMain := {0}
  isParallel := isParallel
  isCustomGate := isCustomGate

def addInput (node : Node) (name : String) (isPublic : Bool) : Node :=
  let id := node.numberOfSignals + 1
  { node with
    ioSignals := node.ioSignals ++ [id]
    publicInputsLength := node.publicInputsLength + if isPublic then 1 else 0
    signalCorrespondence := node.signalCorrespondence.insert name id
    locals := insert id node.locals
    reachables := insert id node.reachables
    numberOfSignals := node.numberOfSignals + 1
    entry := { node.entry with outNumber := node.entry.outNumber + 1 }
    inputsLength := node.inputsLength + 1
    forbiddenIfMain :=
      if isPublic then insert id node.forbiddenIfMain else node.forbiddenIfMain }

def addOutput (node : Node) (name : String) : Node :=
  let id := node.numberOfSignals + 1
  { node with
    ioSignals := node.ioSignals ++ [id]
    signalCorrespondence := node.signalCorrespondence.insert name id
    forbiddenIfMain := insert id node.forbiddenIfMain
    locals := insert id node.locals
    reachables := insert id node.reachables
    numberOfSignals := node.numberOfSignals + 1
    entry := { node.entry with outNumber := node.entry.outNumber + 1 }
    outputsLength := node.outputsLength + 1 }

def addIntermediate (node : Node) (name : String) : Node :=
  let id := node.numberOfSignals + 1
  { node with
    signalCorrespondence := node.signalCorrespondence.insert name id
    locals := insert id node.locals
    reachables := insert id node.reachables
    numberOfSignals := node.numberOfSignals + 1
    entry := { node.entry with outNumber := node.entry.outNumber + 1 }
    intermediatesLength := node.intermediatesLength + 1 }

def addOrderedSignal (node : Node) (name : String) : Node :=
  { node with orderedSignals := node.orderedSignals ++ [name] }

def addConstraint (node : Node) (constraint : Constraint) : Node :=
  { node with constraints := node.constraints ++ [constraint] }

def addUnderscoredSignal (node : Node) (signal : ℕ) : Node :=
  { node with underscoredSignals := node.underscoredSignals ++ [signal] }

def setNumberOfSubcomponentsIndexes (node : Node) (numberScmp : ℕ) : Node :=
  { node with numberOfSubcomponentsIndexes := numberScmp }

def isLocalSignal (node : Node) (s : ℕ) : Bool := s ∈ node.locals

def correspondence (node : Node) : HashMap String ℕ := node.signalCorrespondence

def numberOfPublicInputs (node : Node) : ℕ := node.publicInputsLength

def numberOfPrivateInputs (node : Node) : ℕ := node.inputsLength - node.publicInputsLength

def numberOfOutputs (node : Node) : ℕ := node.outputsLength

/-! ## Subcomponents -/

/-- The edge that `add_edge` creates from `node` to the node `toNode` with number `target`. -/
def newEdge (node toNode : Node) (target : ℕ) (label : String) : Edge where
  label := label
  goesTo := target
  inNumber := node.numberOfSignals
  outNumber := node.numberOfSignals + toNode.numberOfSignals
  inComponentNumber := node.numberOfComponents
  outComponentNumber := node.numberOfComponents + toNode.numberOfComponents

/-- The name of a signal of a subcomponent. -/
def concreteName (label signal : String) : String := label ++ "." ++ signal

/-- One local signal of the subcomponent: its name is added to the correspondence of the father, and its
number to the reachable signals when it is an input or an output. -/
def addSubcomponentSignal (edge : Edge) (toNode : Node) (node : Node) (e : String × ℕ) : Node :=
  if toNode.isLocalSignal e.2 then
    let concreteValue := edge.inNumber + e.2
    { node with
      signalCorrespondence :=
        node.signalCorrespondence.insert (concreteName edge.label e.1) concreteValue
      reachables :=
        if e.2 ≤ toNode.inputsLength + toNode.outputsLength then
          insert concreteValue node.reachables
        else node.reachables }
  else node

/-- The father after `add_edge`. -/
def addSubcomponent (node toNode : Node) (edge : Edge) (isParallel : Bool) : Node :=
  let node :=
    { node with
      numberOfSignals := node.numberOfSignals + toNode.numberOfSignals
      numberOfComponents := node.numberOfComponents + toNode.numberOfComponents
      entry :=
        { node.entry with
          outNumber := node.entry.outNumber + toNode.numberOfSignals
          outComponentNumber := node.entry.outComponentNumber + toNode.numberOfComponents }
      hasParallelSubCmp := node.hasParallelSubCmp || toNode.isParallel || isParallel }
  toNode.correspondence.pairs.foldl (addSubcomponentSignal edge toNode) node

end Node

/-- Every node has its list of edges, and they go to earlier nodes. -/
structure DAG where
  oneSignal : ℕ := 0
  nodes : List Node
  adjacency : List (List Edge)
  /-- The field that `UsefulConstants` knows under the name of the prime. -/
  prime : ℤ
  adjacency_length : adjacency.length = nodes.length
  goesTo_lt : ∀ (i : ℕ) edges, adjacency[i]? = some edges → ∀ e ∈ edges, e.goesTo < i

namespace DAG

def new (prime : ℤ) : DAG where
  nodes := []
  adjacency := []
  prime := prime
  adjacency_length := rfl
  goesTo_lt := by simp

def getMain (dag : DAG) : Option Node := dag.nodes.getLast?

/-- `nodes.len() - 1` overflows without nodes. -/
def mainId (dag : DAG) : Option ℕ :=
  if dag.nodes.length = 0 then none else some (dag.nodes.length - 1)

def getEntry (dag : DAG) : Option Edge := dag.getMain.map Node.entry

def publicInputs (dag : DAG) : ℕ := (dag.getMain.map Node.numberOfPublicInputs).getD 0

def privateInputs (dag : DAG) : ℕ := (dag.getMain.map Node.numberOfPrivateInputs).getD 0

def publicOutputs (dag : DAG) : ℕ := (dag.getMain.map Node.numberOfOutputs).getD 0

/-- `get_mut_main`: changes the last node if there is one. -/
def modifyMain (dag : DAG) (f : Node → Node) : DAG :=
  { dag with
    nodes := dag.nodes.modify (dag.nodes.length - 1) f
    adjacency_length := by rw [List.length_modify, dag.adjacency_length] }

def addNode (dag : DAG) (templateName : String) (parameters : List ℤ)
    (isParallel isCustomGate : Bool) : DAG × ℕ :=
  let id := dag.nodes.length
  ({ dag with
      nodes := dag.nodes ++ [Node.new id templateName parameters isParallel isCustomGate]
      adjacency := dag.adjacency ++ [[]]
      adjacency_length := by simp [dag.adjacency_length]
      goesTo_lt := by
        intro i edges h
        rcases Nat.lt_or_ge i dag.adjacency.length with hi | hi
        · rw [List.getElem?_append_left hi] at h
          exact dag.goesTo_lt i edges h
        · rw [List.getElem?_append_right hi] at h
          obtain rfl : edges = [] := by
            simpa using List.mem_of_getElem? h
          simp },
    id)

def addInput (dag : DAG) (name : String) (isPublic : Bool) : DAG :=
  dag.modifyMain fun node => node.addInput name isPublic

def addOutput (dag : DAG) (name : String) : DAG := dag.modifyMain fun node => node.addOutput name

def addIntermediate (dag : DAG) (name : String) : DAG :=
  dag.modifyMain fun node => node.addIntermediate name

def addOrderedSignal (dag : DAG) (name : String) : DAG :=
  dag.modifyMain fun node => node.addOrderedSignal name

def addConstraint (dag : DAG) (constraint : Constraint) : DAG :=
  dag.modifyMain fun node => node.addConstraint constraint

def addUnderscoredSignal (dag : DAG) (signal : ℕ) : DAG :=
  dag.modifyMain fun node => node.addUnderscoredSignal signal

def setNumberOfSubcomponentsIndexes (dag : DAG) (numberScmp : ℕ) : DAG :=
  dag.modifyMain fun node => node.setNumberOfSubcomponentsIndexes numberScmp

/-- Adds an edge from the main node to an earlier one; any other target is ignored. -/
def addEdge (dag : DAG) (target : ℕ) (label : String) (isParallel : Bool) :
    Option (DAG × Option Edge) := do
  let source ← dag.mainId
  if h : target < source then
    let sourceNode ← dag.nodes[source]?
    let toNode ← dag.nodes[target]?
    let edge := sourceNode.newEdge toNode target label
    some
      ({ dag with
          nodes := dag.nodes.set source (sourceNode.addSubcomponent toNode edge isParallel)
          adjacency := dag.adjacency.modify source fun edges => edges ++ [edge]
          adjacency_length := by simp [dag.adjacency_length]
          goesTo_lt := by
            intro i edges hi
            rw [List.getElem?_modify] at hi
            obtain ⟨edges', h', rfl⟩ := Option.map_eq_some_iff.mp hi
            intro e he
            split_ifs at he with hs
            · subst hs
              rcases List.mem_append.mp he with he | he
              · exact dag.goesTo_lt _ edges' h' e he
              · rw [List.mem_singleton.mp he]
                exact h
            · exact dag.goesTo_lt i edges' h' e he },
        some edge)
  else some (dag, none)

end DAG

/-! ## Building a graph -/

/-- The calls by which the executor builds the graph. -/
inductive BuildCall where
  | addNode (templateName : String) (parameters : List ℤ) (isParallel isCustomGate : Bool)
  | addInput (name : String) (isPublic : Bool)
  | addOutput (name : String)
  | addIntermediate (name : String)
  | addEdge (target : ℕ) (label : String) (isParallel : Bool)
  | addOrderedSignal (name : String)
  | addConstraint (constraint : Constraint)
  | addUnderscoredSignal (signal : ℕ)
  | setNumberOfSubcomponentsIndexes (numberScmp : ℕ)

def DAG.call (dag : DAG) : BuildCall → Option DAG
  | .addNode templateName parameters isParallel isCustomGate =>
    some (dag.addNode templateName parameters isParallel isCustomGate).1
  | .addInput name isPublic => some (dag.addInput name isPublic)
  | .addOutput name => some (dag.addOutput name)
  | .addIntermediate name => some (dag.addIntermediate name)
  | .addEdge target label isParallel => (dag.addEdge target label isParallel).map Prod.fst
  | .addOrderedSignal name => some (dag.addOrderedSignal name)
  | .addConstraint constraint => some (dag.addConstraint constraint)
  | .addUnderscoredSignal signal => some (dag.addUnderscoredSignal signal)
  | .setNumberOfSubcomponentsIndexes numberScmp =>
    some (dag.setNumberOfSubcomponentsIndexes numberScmp)

def DAG.build (dag : DAG) (calls : List BuildCall) : Option DAG := calls.foldlM DAG.call dag

end Circom.Dag
