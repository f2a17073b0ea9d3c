import Circom.Ast.Ast
import Circom.Lib.HashMap
import Circom.ProgramStructure.MemorySlice

/-!
# Assigning tags and signals

`assignment_utils` of the crate `constraint_generation`: what the tags of an array become when one of its
positions is assigned, and how a signal records under which conditions it was assigned. A function that can
panic returns an `Option` whose `none` is the panic.
-/

namespace Circom.ConstraintGeneration

open Circom.Ast (Meta)
open Circom.Lib (HashMap)
open Circom.ProgramStructure (MemoryError MemorySlice)

/-! ## Tags -/

structure TagState where
  /-- The tag appears in the definition of the signal. -/
  defined : Bool
  /-- The value is given by the user. -/
  valueDefined : Bool
  deriving DecidableEq, Repr

abbrev TagInfo := HashMap String (Option ℤ)

/-- The tags of a signal and where they come from. -/
abbrev TagDefinitions := HashMap String TagState

/-- What remains of a tag that was there before the assignment. -/
def keptValue (state : TagState) (value : Option ℤ) (assigned : Option (Option ℤ)) (isInit : Bool) :
    Option (Option ℤ) :=
  if state.defined then
    if state.valueDefined then some value
    else if isInit then
      match assigned with
      | some valueNew => if value ≠ valueNew then some none else some value
      | none => some none
    else
      match assigned with
      | some valueNew => some valueNew
      | none => some none
  else
    match assigned with
    | some valueNew => if value = valueNew then some value else none
    | none => none

/-- The first loop of `perform_tag_propagation`; panics at a tag without a definition. -/
def keepTags (tagsDefinitions : TagDefinitions) (assignedTags : TagInfo) (isInit : Bool) :
    TagInfo → List (String × Option ℤ) → Option TagInfo
  | tagsValues, [] => some tagsValues
  | tagsValues, (tag, value) :: previousTags => do
    let tagState ← tagsDefinitions.lookup tag
    let tagsValues :=
      match keptValue tagState value (assignedTags.lookup tag) isInit with
      | some toStoreValue => tagsValues.insert tag toStoreValue
      | none => tagsValues.erase tag
    keepTags tagsDefinitions assignedTags isInit tagsValues previousTags

/-- The second loop: the tags that the user has not defined are added. -/
def addTags : TagInfo × TagDefinitions → List (String × Option ℤ) → TagInfo × TagDefinitions
  | (tagsValues, tagsDefinitions), [] => (tagsValues, tagsDefinitions)
  | (tagsValues, tagsDefinitions), (tag, value) :: assignedTags =>
    if tag ∈ tagsValues then addTags (tagsValues, tagsDefinitions) assignedTags
    else addTags (tagsValues.insert tag value, tagsDefinitions.insert tag ⟨false, false⟩) assignedTags

def performTagPropagation (tagsValues : TagInfo) (tagsDefinitions : TagDefinitions)
    (assignedTags : TagInfo) (isInit : Bool) : Option (TagInfo × TagDefinitions) := do
  let tagsValues ← keepTags tagsDefinitions assignedTags isInit ∅ tagsValues.pairs
  if isInit then some (tagsValues, tagsDefinitions)
  else some (addTags (tagsValues, tagsDefinitions) assignedTags.pairs)

/-! ## Signals -/

inductive AssignmentState where
  /-- With the location of the assignment. -/
  | assigned (info : Option Meta)
  /-- With the numbers of the conditionals and the branches. -/
  | mightAssigned (conditions : List (ℕ × Bool)) (info : Option Meta)
  | noAssigned
  deriving DecidableEq, Repr

/-- The errors of an assignment: those of `MemorySlice` and the cases of `TypeAssignmentError`. -/
inductive AssignmentError where
  | memory (error : MemoryError)
  | multipleAssignments (info : Meta)
  | multipleAssignmentsBus
  | assignmentOutput
  | noInitializedComponent
  | differentBusInstances
  deriving DecidableEq, Repr

abbrev SignalSlice := MemorySlice AssignmentState

/-- The flags of the loop that compares two lists of conditions. -/
structure Comparison where
  isSubset : Bool := true
  eqUntilLast : Bool := false
  differentBranches : Bool := false
  deriving DecidableEq, Repr

/-- The loop over the common positions; `sameLength` compares the lengths of the whole lists. -/
def compareConditions (sameLength : Bool) : List (ℕ × Bool) → List (ℕ × Bool) → Comparison
  | old :: condOld, new :: condNew =>
    if old ≠ new then
      { isSubset := false
        differentBranches := old.1 = new.1
        -- the last common position, in lists of the same length
        eqUntilLast := old.1 = new.1 ∧ (condOld = [] ∨ condNew = []) ∧ sameLength = true }
    else compareConditions sameLength condOld condNew
  | _, _ => {}

/-- The error for a signal that is assigned again; there is a panic if the first location is not known. -/
def multipleAssignments (info : Option Meta) : Option (Except AssignmentError AssignmentState) :=
  info.map fun info => .error (.multipleAssignments info)

/-- What becomes of the state of a cell. -/
def assignCell (conditionsAssignment : AssignmentState) :
    AssignmentState → Option (Except AssignmentError AssignmentState)
  | .noAssigned => some (.ok conditionsAssignment)
  | .assigned info => multipleAssignments info
  | .mightAssigned condOld info =>
    match conditionsAssignment with
    | .assigned _ => multipleAssignments info
    | .mightAssigned condNew infoNew =>
      let comparison := compareConditions (condOld.length = condNew.length) condOld condNew
      if comparison.isSubset then multipleAssignments info
      else if comparison.eqUntilLast then
        if condNew.length = 1 then some (.ok (.assigned infoNew))
        else some (.ok (.mightAssigned (condNew.take (min condOld.length condNew.length - 1)) infoNew))
      else if comparison.differentBranches then some (.ok (.mightAssigned condNew infoNew))
      else multipleAssignments info
    | .noAssigned => none

/-- The loop over the references to the cells. -/
def assignCells (conditionsAssignment : AssignmentState) :
    SignalSlice → List ℕ → Option (SignalSlice × Except AssignmentError Unit)
  | signalSlice, [] => some (signalSlice, .ok ())
  | signalSlice, cell :: cells => do
    let signalWasAssigned ← signalSlice.values[cell]?
    match ← assignCell conditionsAssignment signalWasAssigned with
    | .error e => some (signalSlice, .error e)
    | .ok state =>
      assignCells conditionsAssignment { signalSlice with values := signalSlice.values.set cell state }
        cells

def performSignalAssignment (signalSlice : SignalSlice) (arrayAccess newRoute : List ℕ)
    (conditionsAssignment : AssignmentState) : Option (SignalSlice × Except AssignmentError Unit) := do
  match ← signalSlice.accessValues arrayAccess with
  | .error e => some (signalSlice, .error (.memory e))
  | .ok signalPreviousValue =>
    let newValueSlice := MemorySlice.newWithRoute newRoute conditionsAssignment
    match signalPreviousValue.checkCorrectDims [] newValueSlice true with
    | .error e => some (signalSlice, .error (.memory e))
    | .ok () =>
      match signalSlice.accessValuesByMutReference arrayAccess with
      | .error e => some (signalSlice, .error (.memory e))
      | .ok cells => assignCells conditionsAssignment signalSlice cells

end Circom.ConstraintGeneration
