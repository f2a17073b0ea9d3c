import Circom.ConstraintGeneration.AssignmentUtils
import Circom.ConstraintGeneration.ExecutedBus

/-!
# Buses that are assigned

`bus_representation` of the crate `constraint_generation`, with `perform_bus_assignment`: the cells of a bus, and
for each field the number of its cells, or of its buses, that are still to be assigned. Only what assigns is
modelled. The first error ends the execution, so that the state behind an error is left out. Buses are nested at
most as deep as the fuel.
-/

namespace Circom.ConstraintGeneration.EnvironmentUtils

open Circom.Lib (HashMap)
open Circom.ProgramStructure (MemorySlice)

/-- What ends an assignment: an error, the subtraction of too much from a counter, another panic. -/
inductive Stop where
  | error (error : AssignmentError)
  | underflow
  | panicked
  | outOfFuel
  deriving DecidableEq, Repr

variable {α : Type}

def orPanic : Option α → Except Stop α
  | some a => .ok a
  | none => .error .panicked

def orError : Except AssignmentError α → Except Stop α
  | .ok a => .ok a
  | .error e => .error (.error e)

/-- The result of what may panic. -/
def orStop (x : Option (Except AssignmentError α)) : Except Stop α := do
  let result ← orPanic x
  orError result

/-- What `perform_signal_assignment` leaves behind when it succeeds. -/
def assignSignals (signalSlice : SignalSlice) (arrayAccess newRoute : List ℕ)
    (conditionsAssignment : AssignmentState) : Except Stop SignalSlice := do
  let (signalSlice, result) ←
    orPanic (performSignalAssignment signalSlice arrayAccess newRoute conditionsAssignment)
  orError result
  pure signalSlice

/-! ## Counters -/

/-- The counter of a name; a name without a counter has none left. -/
def unassignedOf (unassigned : HashMap String ℕ) (name : String) : ℕ := (unassigned.lookup name).getD 0

/-- A counter goes down, and is removed at zero. -/
def subtractUnassigned (unassigned : HashMap String ℕ) (name : String) (amount : ℕ) :
    Except Stop (HashMap String ℕ) :=
  match unassigned.lookup name with
  | none => .ok unassigned
  | some left =>
    if left < amount then .error .underflow
    else if left - amount = 0 then .ok (unassigned.erase name)
    else .ok (unassigned.insert name (left - amount))

/-- A counter is only made for a name with cells. -/
def insertUnassigned (unassigned : HashMap String ℕ) (name : String) (size : ℕ) : HashMap String ℕ :=
  if 0 < size then unassigned.insert name size else unassigned

/-! ## The data -/

mutual

inductive BusRepresentation where
  | mk (nodePointer : Option ℕ) (fields : List Field) (unassignedFields : HashMap String ℕ) (hasAssignment : Bool)

/-- A field with its name: signals, or the dimensions and the cells of a slice of buses. -/
inductive Field where
  | signal (name : String) (slice : SignalSlice)
  | bus (name : String) (route : List ℕ) (values : List BusRepresentation)

end

abbrev BusSlice := MemorySlice BusRepresentation

namespace BusRepresentation

def nodePointer : BusRepresentation → Option ℕ
  | mk nodePointer _ _ _ => nodePointer

def fields : BusRepresentation → List Field
  | mk _ fields _ _ => fields

def unassignedFields : BusRepresentation → HashMap String ℕ
  | mk _ _ unassignedFields _ => unassignedFields

def hasAssignment : BusRepresentation → Bool
  | mk _ _ _ hasAssignment => hasAssignment

def hasUnassignedFields (self : BusRepresentation) : Bool :=
  self.nodePointer.isNone || !self.unassignedFields.entries.isEmpty

end BusRepresentation

def Field.name : Field → String
  | .signal name _ => name
  | .bus name _ _ => name

def findField (fields : List Field) (name : String) : Option Field := fields.find? fun field => field.name = name

/-- A field is replaced by one with the same name. -/
def replaceField (fields : List Field) (field : Field) : List Field :=
  fields.map fun old => if old.name = field.name then field else old

/-- Fields are ordered by their names. -/
def insertField (field : Field) : List Field → List Field
  | [] => [field]
  | other :: fields =>
    if field.name < other.name then field :: other :: fields
    else if field.name = other.name then field :: fields
    else other :: insertField field fields

/-! ## The initialisation -/

/-- The loop over the fields of a bus; `initializeBus` is the recursive call. -/
def initializeFields (initializeBus : ℕ → Except Stop BusRepresentation) (busConnexions : HashMap String BusConnexion) :
    List Field → HashMap String ℕ → List WireData → Except Stop (List Field × HashMap String ℕ)
  | fields, unassigned, [] => .ok (fields, unassigned)
  | fields, unassigned, info :: infos =>
    if info.isBus then do
      let connexion ← orPanic (busConnexions.lookup info.name)
      let busField ← initializeBus connexion.inspect.goesTo
      let busSlice := MemorySlice.newWithRoute info.length busField
      initializeFields initializeBus busConnexions (insertField (.bus info.name busSlice.route busSlice.values) fields)
        (insertUnassigned unassigned info.name busSlice.getNumberOfCells) infos
    else
      let signalSlice := MemorySlice.newWithRoute info.length AssignmentState.noAssigned
      initializeFields initializeBus busConnexions (insertField (.signal info.name signalSlice) fields)
        (insertUnassigned unassigned info.name signalSlice.getNumberOfCells) infos

/-- `initialize_bus` for a bus that is not assigned. -/
def initializeBus (busesInfo : List ExecutedBus) : ℕ → ℕ → Except Stop BusRepresentation
  | 0, _ => .error .outOfFuel
  | fuel + 1, node => do
    let bus ← orPanic busesInfo[node]?
    let (fields, unassigned) ←
      initializeFields (initializeBus busesInfo fuel) bus.busConnexions [] ∅ bus.fields
    pure (.mk (some node) fields unassigned false)

/-! ## Assignments -/

def isAssigned : AssignmentState → Bool
  | .assigned _ => true
  | _ => false

/-- The indices before each field, and what is behind the field. -/
inductive AccessingInformationBus where
  | last (arrayAccess : List ℕ)
  | field (arrayAccess : List ℕ) (fieldAccess : String) (remainingAccess : AccessingInformationBus)

inductive FoldedArgument where
  | signal (route : List ℕ)
  | bus (slice : BusSlice)

def FoldedArgument.route : FoldedArgument → List ℕ
  | .signal route => route
  | .bus slice => slice.route

/-- The loop over the references to the buses. -/
def assignBuses (completelyAssign : BusRepresentation → BusRepresentation → Except Stop BusRepresentation)
    (assignedBusSlice : BusSlice) : ℕ → List BusRepresentation → List ℕ → Except Stop (List BusRepresentation)
  | _, values, [] => .ok values
  | index, values, cell :: cells => do
    let result ← orPanic (assignedBusSlice.getReferenceToSingleValueByIndex index)
    let assignedBus ← orError (result.mapError .memory)
    let accessedBus ← orPanic values[cell]?
    let bus ← completelyAssign accessedBus assignedBus
    assignBuses completelyAssign assignedBusSlice (index + 1) (values.set cell bus) cells

/-- The values of the slice after the assignment. -/
def performBusAssignment (completelyAssign : BusRepresentation → BusRepresentation → Except Stop BusRepresentation)
    (busSlice : BusSlice) (arrayAccess : List ℕ) (assignedBusSlice : BusSlice) :
    Except Stop (List BusRepresentation) := do
  orError ((busSlice.checkCorrectDims arrayAccess assignedBusSlice true).mapError .memory)
  let cells ← orError ((busSlice.accessValuesByMutReference arrayAccess).mapError .memory)
  assignBuses completelyAssign assignedBusSlice 0 busSlice.values cells

/-- One field of `completely_assign_bus`, whose counter is removed. -/
def completelyAssignField
    (completelyAssign : BusRepresentation → BusRepresentation → Except Stop BusRepresentation)
    (assignedFields : List Field) (conditionsAssignment : AssignmentState) : Field → Except Stop Field
  | .bus name route values => do
    match ← orPanic (findField assignedFields name) with
    | .bus _ assignedRoute assignedValues => do
      let values ← performBusAssignment completelyAssign ⟨route, values⟩ [] ⟨assignedRoute, assignedValues⟩
      pure (.bus name route values)
    | .signal .. => .error .panicked
  | .signal name slice => do
    let slice ← assignSignals slice [] slice.route conditionsAssignment
    pure (.signal name slice)

def completelyAssignBus (conditionsAssignment : AssignmentState) :
    ℕ → BusRepresentation → BusRepresentation → Except Stop BusRepresentation
  | 0, _, _ => .error .outOfFuel
  | fuel + 1, self, assignedBus =>
    if self.hasAssignment then .error (.error .multipleAssignmentsBus)
    else if self.nodePointer ≠ assignedBus.nodePointer then .error (.error .differentBusInstances)
    else do
      let fields ← self.fields.mapM
        (completelyAssignField (completelyAssignBus conditionsAssignment fuel) assignedBus.fields conditionsAssignment)
      let unassigned := self.fields.foldl (fun unassigned field => unassigned.erase field.name) self.unassignedFields
      pure (.mk self.nodePointer fields unassigned (self.hasAssignment || isAssigned conditionsAssignment))

/-- The only bus that an access gives. -/
def accessSingleBus (busSlice : BusSlice) (arrayAccess : List ℕ) : Except Stop (ℕ × BusRepresentation) := do
  match ← orError ((busSlice.accessValuesByMutReference arrayAccess).mapError .memory) with
  | [cell] => do
    let bus ← orPanic busSlice.values[cell]?
    pure (cell, bus)
  | _ => .error .panicked

/-- The counter of a slice of buses after an assignment inside one of them. -/
def updateUnassigned (unassigned : HashMap String ℕ) (name : String) (bus : BusRepresentation) :
    Except Stop (HashMap String ℕ) :=
  if bus.hasUnassignedFields then .ok unassigned else subtractUnassigned unassigned name 1

/-- The assignment of a signal or a slice of buses. -/
def assignLastField (completelyAssign : BusRepresentation → BusRepresentation → Except Stop BusRepresentation)
    (conditionsAssignment : AssignmentState) (arrayAccess : List ℕ) : Field → FoldedArgument → Except Stop Field
  | .signal name slice, .signal newRoute => do
    let slice ← assignSignals slice arrayAccess newRoute conditionsAssignment
    pure (.signal name slice)
  | .bus name route values, .bus assignedBusSlice => do
    let values ← performBusAssignment completelyAssign ⟨route, values⟩ arrayAccess assignedBusSlice
    pure (.bus name route values)
  | _, _ => .error .panicked

/-- A bus is marked as assigned by what is not empty and has no conditions. -/
def marksAssignment (assignedValue : FoldedArgument) (conditionsAssignment : AssignmentState) : Bool :=
  0 < assignedValue.route.prod && isAssigned conditionsAssignment

def assignValueToField (fuel : ℕ) (conditionsAssignment : AssignmentState) (assignedValue : FoldedArgument) :
    AccessingInformationBus → BusRepresentation → String → Except Stop BusRepresentation
  | .field arrayAccess fieldAccess remainingAccess, self, fieldName => do
    match ← orPanic (findField self.fields fieldName) with
    | .bus name route values => do
      let (cell, bus) ← accessSingleBus ⟨route, values⟩ arrayAccess
      let bus ← assignValueToField fuel conditionsAssignment assignedValue remainingAccess bus fieldAccess
      let unassigned ← updateUnassigned self.unassignedFields fieldName bus
      pure (.mk self.nodePointer (replaceField self.fields (.bus name route (values.set cell bus))) unassigned
        (self.hasAssignment || marksAssignment assignedValue conditionsAssignment))
    | .signal .. => .error .panicked
  | .last arrayAccess, self, fieldName => do
    let field ← orPanic (findField self.fields fieldName)
    let field ← assignLastField (completelyAssignBus conditionsAssignment fuel) conditionsAssignment arrayAccess field
      assignedValue
    let unassigned ← subtractUnassigned self.unassignedFields fieldName assignedValue.route.prod
    pure (.mk self.nodePointer (replaceField self.fields field) unassigned
      (self.hasAssignment || marksAssignment assignedValue conditionsAssignment))

end Circom.ConstraintGeneration.EnvironmentUtils
