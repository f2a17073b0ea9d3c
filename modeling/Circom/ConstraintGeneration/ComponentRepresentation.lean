import Circom.ConstraintGeneration.BusRepresentation

/-!
# Components that are assigned

`component_representation` of the crate `constraint_generation`: the inputs of a component, with the number of
cells or buses of each one that are still to be assigned. What is assigned before the component is initialised is
kept, and assigned then. The tags of the inputs are no part of the counters; their checks are functions of
`TagChecks`.
-/

namespace Circom.ConstraintGeneration.EnvironmentUtils

open Circom.Lib (HashMap)
open Circom.ProgramStructure (MemorySlice)

/-- What is done with the tags `I` of the inputs and the tags `W` of an assigned value; `none` is a panic. -/
structure TagChecks (I W : Type) where
  handleTagAssignmentNoInit : List String → W → I → Option (Except AssignmentError I)
  handleTagAssignmentInit : List String → W → I → Option (Except AssignmentError Unit)
  /-- The tags that an input or a field has got. -/
  tagsOf : List String → I → Option W

/-- The wires of an executed template. No name is declared twice. -/
structure ComponentNode where
  inputs : List WireData
  outputs : List WireData
  busConnexions : HashMap String BusConnexion
  names : (inputs.map WireData.name).Nodup

structure ComponentRepresentation (I : Type) where
  nodePointer : Option ℕ
  unassignedInputs : HashMap String ℕ := ∅
  toAssignInputs : List (String × List ℕ × List ℕ × AssignmentState) := []
  toAssignInputBuses : List (String × List ℕ × BusSlice × AssignmentState) := []
  toAssignInputBusFields : List (String × AccessingInformationBus × FoldedArgument × AssignmentState) := []
  inputs : HashMap String SignalSlice := ∅
  inputBuses : HashMap String BusSlice := ∅
  inputsTags : I
  /-- The names of the output signals and buses, whose cells count as assigned. -/
  outputs : List String := []
  isInitialized : Bool := false

/-- Why an input or output cannot be read. -/
inductive ReadError where
  | noInitializedComponent
  | missingInputs (name : String)
  | missingInputTags
  deriving DecidableEq, Repr

namespace ComponentRepresentation

variable {I W : Type} (checks : TagChecks I W)

/-- The component has no counters before it is initialised. -/
def preinitializeComponent (prenodePointer : ℕ) (inputsTags : I) : ComponentRepresentation I :=
  { nodePointer := some prenodePointer, inputsTags }

def isPreinitialized (component : ComponentRepresentation I) : Bool := component.nodePointer.isSome

/-! ## Signals -/

def assignValueToSignalInit (component : ComponentRepresentation I) (signalName : String)
    (access sliceRoute : List ℕ) (tags : W) (conditionsAssignment : AssignmentState) :
    Except Stop (ComponentRepresentation I) :=
  if !component.isPreinitialized then .error (.error .noInitializedComponent)
  else
    match component.inputs.lookup signalName with
    | none => .error (.error .assignmentOutput)
    | some slice => do
      orStop (checks.handleTagAssignmentInit [signalName] tags component.inputsTags)
      let slice ← assignSignals slice access sliceRoute conditionsAssignment
      let unassignedInputs ← subtractUnassigned component.unassignedInputs signalName sliceRoute.prod
      pure { component with inputs := component.inputs.insert signalName slice, unassignedInputs }

def assignValueToSignal (component : ComponentRepresentation I) (signalName : String)
    (access sliceRoute : List ℕ) (tags : W) (conditionsAssignment : AssignmentState) :
    Except Stop (ComponentRepresentation I) :=
  if !component.isInitialized then do
    let inputsTags ← orStop (checks.handleTagAssignmentNoInit [signalName] tags component.inputsTags)
    pure { component with
      inputsTags
      toAssignInputs := component.toAssignInputs ++ [(signalName, access, sliceRoute, conditionsAssignment)] }
  else assignValueToSignalInit checks component signalName access sliceRoute tags conditionsAssignment

/-! ## Buses -/

def assignValueToBusInit (fuel : ℕ) (component : ComponentRepresentation I) (busName : String) (access : List ℕ)
    (busSlice : BusSlice) (tags : W) (conditionsAssignment : AssignmentState) :
    Except Stop (ComponentRepresentation I) :=
  if !component.isPreinitialized then .error (.error .noInitializedComponent)
  else
    match component.inputBuses.lookup busName with
    | none => .error (.error .assignmentOutput)
    | some slice => do
      orStop (checks.handleTagAssignmentInit [busName] tags component.inputsTags)
      let values ← performBusAssignment (completelyAssignBus conditionsAssignment fuel) slice access busSlice
      let unassignedInputs ← subtractUnassigned component.unassignedInputs busName busSlice.route.prod
      pure { component with
        inputBuses := component.inputBuses.insert busName { slice with values }
        unassignedInputs }

def assignValueToBus (fuel : ℕ) (component : ComponentRepresentation I) (busName : String) (access : List ℕ)
    (busSlice : BusSlice) (tags : W) (conditionsAssignment : AssignmentState) :
    Except Stop (ComponentRepresentation I) :=
  if !component.isInitialized then do
    let inputsTags ← orStop (checks.handleTagAssignmentNoInit [busName] tags component.inputsTags)
    pure { component with
      inputsTags
      toAssignInputBuses := component.toAssignInputBuses ++ [(busName, access, busSlice, conditionsAssignment)] }
  else assignValueToBusInit checks fuel component busName access busSlice tags conditionsAssignment

/-! ## Fields of buses -/

/-- The name of a field, with the fields before it. -/
def buildName : AccessingInformationBus → List String
  | .last _ => []
  | .field _ name remaining => name :: buildName remaining

def assignValueToBusFieldInit (fuel : ℕ) (component : ComponentRepresentation I) (busName : String)
    (access : AccessingInformationBus) (fieldValue : FoldedArgument) (tags : W)
    (conditionsAssignment : AssignmentState) : Except Stop (ComponentRepresentation I) :=
  if !component.isPreinitialized then .error (.error .noInitializedComponent)
  else
    match component.inputBuses.lookup busName with
    | none => .error (.error .assignmentOutput)
    | some slice => do
      orStop (checks.handleTagAssignmentInit (busName :: buildName access) tags component.inputsTags)
      match access with
      | .last _ => .error .panicked
      | .field arrayAccess fieldAccess remainingAccess => do
        let (cell, singleBus) ← accessSingleBus slice arrayAccess
        let bus ← assignValueToField fuel conditionsAssignment fieldValue remainingAccess singleBus fieldAccess
        let unassignedInputs ← updateUnassigned component.unassignedInputs busName bus
        pure { component with
          inputBuses := component.inputBuses.insert busName { slice with values := slice.values.set cell bus }
          unassignedInputs }

def assignValueToBusField (fuel : ℕ) (component : ComponentRepresentation I) (busName : String)
    (access : AccessingInformationBus) (fieldValue : FoldedArgument) (tags : W)
    (conditionsAssignment : AssignmentState) : Except Stop (ComponentRepresentation I) :=
  if !component.isInitialized then do
    let inputsTags ← orStop (checks.handleTagAssignmentNoInit (busName :: buildName access) tags component.inputsTags)
    pure { component with
      inputsTags
      toAssignInputBusFields :=
        component.toAssignInputBusFields ++ [(busName, access, fieldValue, conditionsAssignment)] }
  else assignValueToBusFieldInit checks fuel component busName access fieldValue tags conditionsAssignment

/-! ## The initialisation -/

/-- The loop over the inputs. -/
def initializeInputs (busesInfo : List ExecutedBus) (fuel : ℕ) (busConnexions : HashMap String BusConnexion) :
    ComponentRepresentation I → List WireData → Except Stop (ComponentRepresentation I)
  | component, [] => .ok component
  | component, info :: inputs =>
    if info.isBus then do
      let connexion ← orPanic (busConnexions.lookup info.name)
      let initialValueBus ← initializeBus busesInfo fuel connexion.inspect.goesTo
      let busSlice := MemorySlice.newWithRoute info.length initialValueBus
      initializeInputs busesInfo fuel busConnexions
        { component with
          inputBuses := component.inputBuses.insert info.name busSlice
          unassignedInputs := insertUnassigned component.unassignedInputs info.name busSlice.getNumberOfCells }
        inputs
    else
      let signalSlice := MemorySlice.newWithRoute info.length AssignmentState.noAssigned
      initializeInputs busesInfo fuel busConnexions
        { component with
          inputs := component.inputs.insert info.name signalSlice
          unassignedInputs := insertUnassigned component.unassignedInputs info.name signalSlice.getNumberOfCells }
        inputs

/-- The names of the outputs; nothing is assigned to them. -/
def initializeOutputs (component : ComponentRepresentation I) : List WireData → ComponentRepresentation I
  | [] => component
  | info :: outputs => initializeOutputs { component with outputs := info.name :: component.outputs } outputs

/-- An assignment that has been kept. -/
inductive ToAssign where
  | signal (signalName : String) (access sliceRoute : List ℕ)
  | bus (busName : String) (access : List ℕ) (busSlice : BusSlice)
  | busField (busName : String) (access : AccessingInformationBus) (fieldValue : FoldedArgument)

/-- The name of what is assigned, with the fields before it. -/
def ToAssign.name : ToAssign → List String
  | .signal signalName _ _ => [signalName]
  | .bus busName _ _ => [busName]
  | .busField busName access _ => busName :: buildName access

/-- The three kinds of assignments to an initialised component. -/
def assignInit (fuel : ℕ) (component : ComponentRepresentation I) (tags : W) (conditionsAssignment : AssignmentState) :
    ToAssign → Except Stop (ComponentRepresentation I)
  | .signal signalName access sliceRoute =>
    assignValueToSignalInit checks component signalName access sliceRoute tags conditionsAssignment
  | .bus busName access busSlice =>
    assignValueToBusInit checks fuel component busName access busSlice tags conditionsAssignment
  | .busField busName access fieldValue =>
    assignValueToBusFieldInit checks fuel component busName access fieldValue tags conditionsAssignment

/-- The three kinds of assignments to any component. -/
def assign (fuel : ℕ) (component : ComponentRepresentation I) (tags : W) (conditionsAssignment : AssignmentState) :
    ToAssign → Except Stop (ComponentRepresentation I)
  | .signal signalName access sliceRoute =>
    assignValueToSignal checks component signalName access sliceRoute tags conditionsAssignment
  | .bus busName access busSlice =>
    assignValueToBus checks fuel component busName access busSlice tags conditionsAssignment
  | .busField busName access fieldValue =>
    assignValueToBusField checks fuel component busName access fieldValue tags conditionsAssignment

/-- What has been kept, in the order in which it is assigned. -/
def toAssign (component : ComponentRepresentation I) : List (ToAssign × AssignmentState) :=
  component.toAssignInputs.map (fun (name, access, route, state) => (.signal name access route, state)) ++
    component.toAssignInputBuses.map (fun (name, access, slice, state) => (.bus name access slice, state)) ++
    component.toAssignInputBusFields.map (fun (name, access, value, state) => (.busField name access value, state))

/-- One round of the loops over what has been kept. -/
def assignKeptOne (fuel : ℕ) (component : ComponentRepresentation I) (kept : ToAssign × AssignmentState) :
    Except Stop (ComponentRepresentation I) := do
  let tags ← orPanic (checks.tagsOf kept.1.name component.inputsTags)
  assignInit checks fuel component tags kept.2 kept.1

def assignKept (fuel : ℕ) :
    ComponentRepresentation I → List (ToAssign × AssignmentState) → Except Stop (ComponentRepresentation I)
  | component, [] => .ok component
  | component, kept :: rest => do
    let component ← assignKeptOne checks fuel component kept
    assignKept fuel component rest

/-- The component with its inputs and outputs, before anything kept is assigned. -/
def initializeWires (busesInfo : List ExecutedBus) (fuel nodePointer : ℕ) (node : ComponentNode)
    (component : ComponentRepresentation I) : Except Stop (ComponentRepresentation I) := do
  let component ← initializeInputs busesInfo fuel node.busConnexions component node.inputs
  pure { initializeOutputs component node.outputs with
    isInitialized := true
    nodePointer := some nodePointer
    toAssignInputs := []
    toAssignInputBuses := []
    toAssignInputBusFields := [] }

def initializeComponent (busesInfo : List ExecutedBus) (fuel nodePointer : ℕ) (node : ComponentNode)
    (component : ComponentRepresentation I) : Except Stop (ComponentRepresentation I) := do
  let initialized ← initializeWires busesInfo fuel nodePointer node component
  assignKept checks fuel initialized component.toAssign

/-! ## Reading -/

/-- The test before an input or output is read. The missing input named in an error is one of those with a counter. -/
def checkInitializedInputs (component : ComponentRepresentation I) (name : String) : Except ReadError Unit :=
  if !component.isPreinitialized then .error .noInitializedComponent
  else
    match component.unassignedInputs.pairs with
    | (missing, _) :: _ =>
      if name ∈ component.outputs then .error (.missingInputs missing)
      else if !component.isInitialized then .error .missingInputTags
      else .ok ()
    | [] => if !component.isInitialized then .error .missingInputTags else .ok ()

end ComponentRepresentation

end Circom.ConstraintGeneration.EnvironmentUtils
