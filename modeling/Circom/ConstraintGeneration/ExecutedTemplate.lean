import Circom.ConstraintGeneration.ExecutedBus
import Circom.Dag.Dag

/-!
# Executed templates

`insert_in_dag` of the crate `constraint_generation`, which writes an executed template into the circuit
graph, and the wires that `export_to_circuit` hands to the witness generator.
-/

namespace Circom.ConstraintGeneration

open Circom.Algebra (ArithmeticExpression)
open Circom.Dag (DAG)
open Circom.Lib (HashMap)

structure SubComponentData where
  name : String
  isParallel : Bool
  indexedWith : List ℕ
  goesTo : ℕ

structure Connexion where
  fullName : String
  inspect : SubComponentData
  dagOffset : ℕ := 0
  dagComponentOffset : ℕ := 0
  dagJump : ℕ := 0
  dagComponentJump : ℕ := 0

structure ComponentData where
  name : String
  length : List ℕ
  isAnonymous : Bool

structure ExecutedTemplate where
  reportName : String
  inputs : List WireData
  outputs : List WireData
  intermediates : List WireData
  orderedSignals : List WireData
  constraints : List (Algebra.Constraint String)
  components : List ComponentData
  numberOfComponents : ℕ
  publicInputs : Finset String
  /-- The values of each parameter. -/
  parameterInstances : List (String × List (ArithmeticExpression String))
  isParallel : Bool
  hasParallelSubCmp : Bool
  isCustomGate : Bool
  underscoredSignals : List String
  connexions : List Connexion
  busConnexions : HashMap String BusConnexion

/-! ## The call of a template -/

/-- How a slice of numbers is printed. -/
def sliceToString : List ℤ → String
  | [] => "[]"
  | [value] => toString value
  | value :: values => values.foldl (fun msg value => msg ++ "," ++ toString value) ("[" ++ toString value) ++ "]"

/-- How the value of a tag is printed. -/
def tagToString : Option ℤ → String
  | none => "null"
  | some value => toString value

/-- The name that `execute_template_call` gives to an instance. The values of the tags come in the order of their hash
tables. -/
def instantiationName (id : String) (parameterValues : List (List ℤ)) (tagValues : List (Option ℤ)) : String :=
  let texts := parameterValues.map sliceToString ++ tagValues.map tagToString
  let name := texts.foldl (fun name text => name ++ (text ++ ",")) (id ++ "(")
  (if texts.isEmpty then name else String.ofList name.toList.dropLast) ++ ")"

/-- `args_to_values`, a map that is sorted by the names of the parameters. -/
def argsToValues (argsNames : List String) (parameterValues : List (List ℤ)) :
    List (String × List (ArithmeticExpression String)) :=
  ((argsNames.zip parameterValues).insertionSort fun a b => a.1 ≤ b.1).map fun e =>
    (e.1, e.2.map ArithmeticExpression.number)

namespace ExecutedTemplate

def addInput (self : ExecutedTemplate) (inputName : String) (dimensions : List ℕ) (isBus : Bool) : ExecutedTemplate :=
  { self with
    inputs := self.inputs ++ [⟨inputName, dimensions, isBus⟩]
    orderedSignals := self.orderedSignals ++ [⟨inputName, dimensions, isBus⟩] }

def addOutput (self : ExecutedTemplate) (outputName : String) (dimensions : List ℕ) (isBus : Bool) :
    ExecutedTemplate :=
  { self with
    outputs := self.outputs ++ [⟨outputName, dimensions, isBus⟩]
    orderedSignals := self.orderedSignals ++ [⟨outputName, dimensions, isBus⟩] }

def addIntermediate (self : ExecutedTemplate) (intermediateName : String) (dimensions : List ℕ) (isBus : Bool) :
    ExecutedTemplate :=
  { self with
    intermediates := self.intermediates ++ [⟨intermediateName, dimensions, isBus⟩]
    orderedSignals := self.orderedSignals ++ [⟨intermediateName, dimensions, isBus⟩] }

end ExecutedTemplate

/-! ## The symbols of a wire -/

/-- Visits the cells of an array in row-major order; a cell is called by the name of the array and its
indices. -/
def forCells (visit : DAG → String → Option DAG) : List ℕ → DAG → String → Option DAG
  | [], dag, name => visit dag name
  | d :: dims, dag, name =>
    (List.range d).foldlM (fun dag index =>
      forCells visit dims dag (name ++ "[" ++ toString index ++ "]")) dag

/-- `generate_symbols` and `generate_ordered_symbols` differ in what they do with a symbol. -/
def generateSymbolsWith (visit : DAG → String → Option DAG) (dag : DAG) (name : String)
    (dimensions : List ℕ) : Option DAG :=
  forCells visit dimensions dag name

/-- `generate_bus_symbols` and `generate_ordered_bus_symbols`, nested at most `fuel` deep. The source
looks the bus up again at every dimension. -/
def generateBusSymbolsWith (visit : DAG → String → Option DAG) (buses : List ExecutedBus) :
    ℕ → DAG → (basicName name : String) → List ℕ → HashMap String BusConnexion → Option DAG
  | 0, _, _, _, _, _ => none
  | fuel + 1, dag, basicName, name, dimensions, busConnexions => do
    let busConnection ← busConnexions.lookup basicName
    let exBus2 ← buses[busConnection.inspect.goesTo]?
    forCells (fun dag name =>
      exBus2.fields.foldlM (fun dag infoField =>
        let signalName := name ++ "." ++ infoField.name
        if infoField.isBus then
          generateBusSymbolsWith visit buses fuel dag infoField.name signalName infoField.length
            exBus2.busConnexions
        else generateSymbolsWith visit dag signalName infoField.length) dag) dimensions dag name

/-- The symbols of a declared wire. -/
def generateWire (visit : DAG → String → Option DAG) (buses : List ExecutedBus)
    (busConnexions : HashMap String BusConnexion) (dag : DAG) (wireData : WireData) : Option DAG :=
  if wireData.isBus then
    generateBusSymbolsWith visit buses buses.length dag wireData.name wireData.name wireData.length
      busConnexions
  else generateSymbolsWith visit dag wireData.name wireData.length

structure SignalConfig where
  isPublic : Bool
  signalType : ℕ

/-- What `generate_symbols` does at the end of the dimensions. -/
def SignalConfig.addSymbol (config : SignalConfig) (dag : DAG) (name : String) : DAG :=
  if config.signalType = 0 then dag.addInput name config.isPublic
  else if config.signalType = 1 then dag.addOutput name
  else if config.signalType = 2 then dag.addIntermediate name
  else dag

namespace ExecutedTemplate

def isPublicInput (self : ExecutedTemplate) (wireData : WireData) : Bool :=
  wireData.name ∈ self.publicInputs

def buildWiresOf (self : ExecutedTemplate) (buses : List ExecutedBus) (config : SignalConfig)
    (wires : List WireData) (dag : DAG) : Option DAG :=
  wires.foldlM (generateWire (fun dag name => some (config.addSymbol dag name)) buses
    self.busConnexions) dag

/-- Outputs, public inputs, the other inputs, intermediates. -/
def buildWires (self : ExecutedTemplate) (buses : List ExecutedBus) (dag : DAG) : Option DAG := do
  let dag ← self.buildWiresOf buses ⟨false, 1⟩ self.outputs dag
  let dag ← self.buildWiresOf buses ⟨true, 0⟩ (self.inputs.filter self.isPublicInput) dag
  let dag ← self.buildWiresOf buses ⟨false, 0⟩ (self.inputs.filter (!self.isPublicInput ·)) dag
  self.buildWiresOf buses ⟨false, 2⟩ self.intermediates dag

def buildOrderedSignals (self : ExecutedTemplate) (buses : List ExecutedBus) (dag : DAG) :
    Option DAG :=
  self.orderedSignals.foldlM (generateWire (fun dag name => some (dag.addOrderedSignal name)) buses
    self.busConnexions) dag

/-! ## Subcomponents -/

/-- The order of the connexions: by component name, then by indices. -/
def connexionLe (l r : Connexion) : Bool :=
  l.inspect.name < r.inspect.name ||
    (l.inspect.name == r.inspect.name && !(r.inspect.indexedWith < l.inspect.indexedWith))

def computeNumberCmp (lengths : List ℕ) : ℕ := lengths.foldl (fun p c => p * c) 1

/-- The components that occur in a connexion, with the number of their instances. -/
def filterUsedComponents (tmp : ExecutedTemplate) : List ComponentData × ℕ :=
  let used := tmp.connexions.map fun cnn => cnn.inspect.name
  let filtered := tmp.components.filter fun cmp => cmp.name ∈ used
  (filtered, (filtered.map fun cmp => computeNumberCmp cmp.length).sum)

/-- Adds the edge of a connexion and records where the signals of the subcomponent start. -/
def buildConnexion (dag : DAG) (cnn : Connexion) : Option (DAG × Connexion) := do
  let entry ← dag.getEntry
  let (dag', _) ← dag.addEdge cnn.inspect.goesTo cnn.fullName cnn.inspect.isParallel
  let entry' ← dag'.getEntry
  some (dag',
    { cnn with
      dagOffset := entry.outNumber
      dagComponentOffset := entry.outComponentNumber
      dagJump := entry'.outNumber - entry.outNumber
      dagComponentJump := entry'.outComponentNumber - entry.outComponentNumber })

def buildConnexions (self : ExecutedTemplate) (dag : DAG) : Option (ExecutedTemplate × DAG) := do
  let self := { self with connexions := self.connexions.insertionSort (connexionLe · ·) }
  let filteredComponents := filterUsedComponents self
  let (dag, connexions) ← self.connexions.foldlM (fun (acc : DAG × List Connexion) cnn => do
    let (dag, cnn) ← buildConnexion acc.1 cnn
    some (dag, acc.2 ++ [cnn])) (dag, [])
  let main ← dag.getMain
  some
    ({ self with
        components := filteredComponents.1
        numberOfComponents := filteredComponents.2
        connexions := connexions
        hasParallelSubCmp := main.hasParallelSubCmp },
      dag.setNumberOfSubcomponentsIndexes filteredComponents.2)

/-! ## Constraints -/

/-- Panics when a symbol of a constraint or an underscored signal is not in the correspondence. -/
def buildConstraints (self : ExecutedTemplate) (dag : DAG) : Option DAG := do
  let dag ← self.constraints.foldlM (fun (dag : DAG) c => do
    let main ← dag.getMain
    let cc ← c.applyCorrespondence main.correspondence
    some (dag.addConstraint cc)) dag
  self.underscoredSignals.foldlM (fun (dag : DAG) s => do
    let main ← dag.getMain
    let newS ← main.correspondence.lookup s
    some (dag.addUnderscoredSignal newS)) dag

/-- The parameters that are numbers. -/
def asBigInt (exprs : List (ArithmeticExpression String)) : List ℤ :=
  exprs.filterMap fun
    | .number value => some value
    | _ => none

def insertInDag (self : ExecutedTemplate) (dag : DAG) (busesInfo : ModelBuses) :
    Option (ExecutedTemplate × DAG) := do
  let parameters := self.parameterInstances.flatMap fun e => asBigInt e.2
  let (dag, _) := dag.addNode self.reportName parameters self.isParallel self.isCustomGate
  let dag ← self.buildWires busesInfo.buses dag
  let dag ← self.buildOrderedSignals busesInfo.buses dag
  let (self, dag) ← self.buildConnexions dag
  let dag ← self.buildConstraints dag
  some (self, dag)

end ExecutedTemplate

/-! ## The wires of the circuit -/

inductive SignalType where
  | output
  | input
  | intermediate
  deriving DecidableEq

structure Signal where
  name : String
  lengths : List ℕ
  xtype : SignalType
  localId : ℕ
  dagLocalId : ℕ
  size : ℕ

structure Bus where
  name : String
  lengths : List ℕ
  xtype : SignalType
  localId : ℕ
  dagLocalId : ℕ
  busId : ℕ
  size : ℕ

inductive Wire where
  | tSignal (signal : Signal)
  | tBus (bus : Bus)

namespace Wire

def name : Wire → String
  | .tSignal s => s.name
  | .tBus b => b.name

def localId : Wire → ℕ
  | .tSignal s => s.localId
  | .tBus b => b.localId

def dagLocalId : Wire → ℕ
  | .tSignal s => s.dagLocalId
  | .tBus b => b.dagLocalId

def size : Wire → ℕ
  | .tSignal s => s.size
  | .tBus b => b.size

end Wire

namespace ExecutedTemplate

/-- The counters of `export_to_circuit` with the wires so far. -/
structure Exported where
  localId : ℕ := 0
  dagLocalId : ℕ := 1
  wires : List Wire := []

/-- Panics when a bus is not connected or not in the table. -/
def exportWire (self : ExecutedTemplate) (busesInfo : List BusInstance) (xtype : SignalType)
    (acc : Exported) (s : WireData) : Option Exported :=
  if s.isBus then do
    let busConnexion ← self.busConnexions.lookup s.name
    let busNode := busConnexion.inspect.goesTo
    let infoBus ← busesInfo[busNode]?
    let size := s.length.foldl (fun p c => p * c) infoBus.size
    some
      { localId := acc.localId + size
        dagLocalId := acc.dagLocalId + size
        wires := acc.wires ++ [.tBus
          { name := s.name, lengths := s.length, localId := acc.localId,
            dagLocalId := acc.dagLocalId, busId := busNode, size := size, xtype := xtype }] }
  else
    let size := s.length.foldl (fun p c => p * c) 1
    some
      { localId := acc.localId + size
        dagLocalId := acc.dagLocalId + size
        wires := acc.wires ++ [.tSignal
          { name := s.name, lengths := s.length, localId := acc.localId,
            dagLocalId := acc.dagLocalId, xtype := xtype, size := size }] }

/-- The wires of the instance that `export_to_circuit` returns. -/
def exportToCircuit (self : ExecutedTemplate) (busesInfo : List BusInstance) : Option (List Wire) := do
  let isPublic := self.inputs.filter self.isPublicInput
  let notPublic := self.inputs.filter (!self.isPublicInput ·)
  let acc ← self.outputs.foldlM (self.exportWire busesInfo .output) {}
  let acc ← isPublic.foldlM (self.exportWire busesInfo .input) acc
  let acc ← notPublic.foldlM (self.exportWire busesInfo .input) acc
  let acc ← self.intermediates.foldlM (self.exportWire busesInfo .intermediate) acc
  some acc.wires

end ExecutedTemplate

end Circom.ConstraintGeneration
