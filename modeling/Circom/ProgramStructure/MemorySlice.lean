import Circom.Lib.RowMajor

/-!
# Memory slices

The arrays of `program_structure::memory_slice`: the dimensions of an array and its cells in one vector.
A function that can panic returns an `Option` whose `none` is the panic, a function with a `Result` an
`Except`. A function that changes the slice returns the slice it leaves behind, also with an error. A
mutable reference is the position of its cell.
-/

namespace Circom.ProgramStructure

/-- The errors of the operations below. -/
inductive MemoryError where
  | outOfBoundsError
  | mismatchedDimensions (given original : ℕ)
  | mismatchedDimensionsWeak (given original : ℕ)
  deriving DecidableEq, Repr

/-- The length of `values` should be the product of the dimensions in `route`. -/
structure MemorySlice (C : Type) where
  route : List ℕ
  values : List C
  deriving DecidableEq, Repr

namespace MemorySlice

variable {C : Type}

/-! ## Raw manipulations -/

/-- The walk of `get_initial_cell` over the dimensions and the access. No dimension that it divides by
is zero, an index of the access is below it. -/
def initialCellLoop : List ℕ → List ℕ → ℕ → ℕ → Except MemoryError ℕ
  | _, [], _, cell => .ok cell
  | dim :: route, index :: access, cellJump, cell =>
    if dim ≤ index then .error .outOfBoundsError
    else initialCellLoop route access (cellJump / dim) (cell + cellJump / dim * index)
  | [], _ :: _, _, _ => .error .outOfBoundsError

def getInitialCell (memorySlice : MemorySlice C) (access : List ℕ) : Except MemoryError ℕ :=
  if memorySlice.route.length < access.length then .error .outOfBoundsError
  else initialCellLoop memorySlice.route access memorySlice.values.length 0

/-- The first loop of `check_correct_dims`. -/
def checkAccess : List ℕ → List ℕ → Except MemoryError Unit
  | _, [] => .ok ()
  | dim :: route, index :: access =>
    if dim ≤ index then .error .outOfBoundsError else checkAccess route access
  | [], _ :: _ => .error .outOfBoundsError

/-- The second loop: the dimensions of the new values against those below the access. -/
def checkDims (isStrict : Bool) : List ℕ → List ℕ → Except MemoryError Unit
  | [], _ => .ok ()
  | new :: newRoute, dim :: route =>
    if new < dim then
      if isStrict then .error (.mismatchedDimensions new dim)
      else .error (.mismatchedDimensionsWeak new dim)
    else if dim < new then
      if isStrict then .error (.mismatchedDimensions new dim)
      else .error (.mismatchedDimensionsWeak new dim)
    else checkDims isStrict newRoute route
  | _ :: _, [] => .error .outOfBoundsError

def checkCorrectDims (memorySlice : MemorySlice C) (access : List ℕ) (newValues : MemorySlice C)
    (isStrict : Bool) : Except MemoryError Unit :=
  if memorySlice.route.length < access.length + newValues.route.length then .error .outOfBoundsError
  else do
    checkAccess memorySlice.route access
    checkDims isStrict newValues.route (memorySlice.route.drop access.length)

/-- The dimensions below the access and the number of their cells. -/
def generateNewRouteFromAccess (memorySlice : MemorySlice C) (access : List ℕ) :
    Except MemoryError (List ℕ × ℕ) :=
  if memorySlice.route.length < access.length then .error .outOfBoundsError
  else
    let size := memorySlice.route.drop access.length
    .ok (size, size.foldl (fun numberOfCells dim => numberOfCells * dim) 1)

/-- The copy of the cells below the access; panics when there is no such cell. -/
def generateSliceFromAccess (memorySlice : MemorySlice C) (access : List ℕ) :
    Option (Except MemoryError (MemorySlice C)) :=
  if access.isEmpty then some (.ok memorySlice)
  else
    match generateNewRouteFromAccess memorySlice access with
    | .error e => some (.error e)
    | .ok (size, numberOfCells) =>
      match getInitialCell memorySlice access with
      | .error e => some (.error e)
      | .ok initialCell => do
        let values ← (List.range numberOfCells).mapM fun offset =>
          memorySlice.values[initialCell + offset]?
        some (.ok ⟨size, values⟩)

/-- The positions of the cells below the access. -/
def generateMutReferencesFromAccess (memorySlice : MemorySlice C) (access : List ℕ) :
    Except MemoryError (List ℕ) :=
  if access.isEmpty then .ok (List.range memorySlice.values.length)
  else do
    let (_, numberOfCells) ← generateNewRouteFromAccess memorySlice access
    let initialCell ← getInitialCell memorySlice access
    .ok ((List.range memorySlice.values.length).filter fun index =>
      initialCell ≤ index ∧ index < initialCell + numberOfCells)

/-! ## User operations -/

def newWithRoute (route : List ℕ) (initialValue : C) : MemorySlice C :=
  ⟨route, List.replicate (route.foldl (fun length i => length * i) 1) initialValue⟩

def accessValues (memorySlice : MemorySlice C) (access : List ℕ) :
    Option (Except MemoryError (MemorySlice C)) :=
  generateSliceFromAccess memorySlice access

def accessValuesByMutReference (memorySlice : MemorySlice C) (access : List ℕ) :
    Except MemoryError (List ℕ) :=
  generateMutReferencesFromAccess memorySlice access

/-- Writes values to consecutive cells; panics past the last cell. -/
def writeCells : List C → ℕ → List C → Option (List C)
  | values, _, [] => some values
  | values, cell, value :: newValues =>
    if cell < values.length then writeCells (values.set cell value) (cell + 1) newValues else none

/-- The loop of `insert_values` over the outer indices of the new values. Only the copy of a row can
end it, the result of the insertion of a row is not looked at. -/
def insertRows (insertRow : MemorySlice C → ℕ → MemorySlice C → Option (MemorySlice C))
    (newValues : MemorySlice C) : MemorySlice C → List ℕ →
    Option (MemorySlice C × Except MemoryError Unit)
  | memorySlice, [] => some (memorySlice, .ok ())
  | memorySlice, index :: indices => do
    match ← accessValues newValues [index] with
    | .error e => some (memorySlice, .error e)
    | .ok row =>
      let memorySlice ← insertRow memorySlice index row
      insertRows insertRow newValues memorySlice indices

/-- `insert_values` for new values with at most `depth` dimensions. -/
def insertValuesUpTo (isStrict : Bool) : ℕ → MemorySlice C → List ℕ → MemorySlice C →
    Option (MemorySlice C × Except MemoryError Unit)
  | depth, memorySlice, access, newValues =>
    match checkCorrectDims memorySlice access newValues isStrict with
    | .ok () =>
      match getInitialCell memorySlice access with
      | .error e => some (memorySlice, .error e)
      | .ok cell => do
        let values ← writeCells memorySlice.values cell newValues.values
        some ({ memorySlice with values }, .ok ())
    | .error (.mismatchedDimensionsWeak dim1 dim2) =>
      match depth with
      | 0 => none
      | depth + 1 => do
        let outer ← newValues.route.head?
        let (memorySlice, result) ← insertRows
          (fun memorySlice index row =>
            (insertValuesUpTo isStrict depth memorySlice (access ++ [index]) row).map Prod.fst)
          newValues memorySlice (List.range outer)
        match result with
        | .error e => some (memorySlice, .error e)
        | .ok () => some (memorySlice, .error (.mismatchedDimensionsWeak dim1 dim2))
    | .error e => some (memorySlice, .error e)

/-- The rows of the new values have one dimension less, so their number bounds the recursion. -/
def insertValues (memorySlice : MemorySlice C) (access : List ℕ) (newValues : MemorySlice C)
    (isStrict : Bool) : Option (MemorySlice C × Except MemoryError Unit) :=
  insertValuesUpTo isStrict newValues.route.length memorySlice access newValues

def getNumberOfCells (memorySlice : MemorySlice C) : ℕ := memorySlice.values.length

/-! ## Access by index -/

def insertValueByIndex (memorySlice : MemorySlice C) (index : ℕ) (newValue : C) :
    Option (MemorySlice C × Except MemoryError Unit) :=
  if memorySlice.getNumberOfCells < index then some (memorySlice, .error .outOfBoundsError)
  else if index < memorySlice.values.length then
    some ({ memorySlice with values := memorySlice.values.set index newValue }, .ok ())
  else none

/-- The walk of `get_access_index`; the number of cells is divided by each dimension, and panics at a
division by zero. -/
def accessIndexLoop : List ℕ → ℕ → ℕ → Option (List ℕ)
  | [], _, _ => some []
  | pos :: route, numberCells, indexAux =>
    if pos = 0 then none
    else if numberCells / pos = 0 then none
    else do
      let access ← accessIndexLoop route (numberCells / pos) (indexAux % (numberCells / pos))
      some (indexAux / (numberCells / pos) :: access)

def getAccessIndex (memorySlice : MemorySlice C) (index : ℕ) :
    Option (Except MemoryError (List ℕ)) :=
  if memorySlice.getNumberOfCells < index then some (.error .outOfBoundsError)
  else (accessIndexLoop memorySlice.route memorySlice.getNumberOfCells index).map .ok

/-- The bound test and the access that the functions by index share. -/
def cellByIndex (memorySlice : MemorySlice C) (index : ℕ) : Option (Except MemoryError C) :=
  if memorySlice.getNumberOfCells < index then some (.error .outOfBoundsError)
  else memorySlice.values[index]?.map .ok

def accessValueByIndex (memorySlice : MemorySlice C) (index : ℕ) : Option (Except MemoryError C) :=
  memorySlice.cellByIndex index

def getReferenceToSingleValueByIndex (memorySlice : MemorySlice C) (index : ℕ) :
    Option (Except MemoryError C) :=
  memorySlice.cellByIndex index

/-- The same for a reference that can be written through. -/
def positionByIndex (memorySlice : MemorySlice C) (index : ℕ) : Option (Except MemoryError ℕ) :=
  if memorySlice.getNumberOfCells < index then some (.error .outOfBoundsError)
  else if index < memorySlice.values.length then some (.ok index)
  else none

def accessValuesByIndexMutReference (memorySlice : MemorySlice C) (index : ℕ) :
    Option (Except MemoryError ℕ) :=
  memorySlice.positionByIndex index

def getMutReferenceToSingleValueByIndex (memorySlice : MemorySlice C) (index : ℕ) :
    Option (Except MemoryError ℕ) :=
  memorySlice.positionByIndex index

end MemorySlice

end Circom.ProgramStructure
