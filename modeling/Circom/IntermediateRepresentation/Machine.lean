import Circom.IntermediateRepresentation.Instruction

/-!
# The values of instructions

A machine has two kinds of values, the elements of a field and the words that are used as addresses. An element
is given by its canonical representative. An instruction without a value of a kind, and one that fails, has the
value `none`.
-/

namespace Circom.IntermediateRepresentation

/-- A region of the memory. -/
inductive Region where
  | var
  | signal
  | subcmp (cmpAddress : ℕ)
  deriving DecidableEq, Repr

/-- An access within a mapped signal, with its indices evaluated. -/
inductive MappedAccess where
  | indexed (indexes : List ℕ) (symbolDim : ℕ)
  | qualified (fieldNo : ℕ)
  deriving DecidableEq, Repr

inductive Position where
  | indexed (location : ℕ) (templateHeader : Option String)
  | mapped (signalCode : ℕ) (indexes : List MappedAccess)
  deriving DecidableEq, Repr

/-- What a load reads. -/
structure Place where
  region : Region
  position : Position
  deriving DecidableEq, Repr

/-- The state of a machine on which instructions are evaluated. -/
structure Machine where
  prime : ℕ
  /-- The number of machine words. -/
  words : ℕ
  /-- The constants of the field tracker. -/
  constants : ℕ → ℕ
  /-- The elements in the memory; a place outside of the memory has none. -/
  memory : Place → Option ℕ
  /-- The operations of the field other than additions and multiplications. -/
  operation : OperatorType → List ℕ → Option ℕ
  prime_pos : 0 < prime
  memory_lt : ∀ place value, memory place = some value → value < prime
  words_le : words ≤ 2 ^ 64

namespace OperatorType

/-- `is_address_op` -/
def isAddressOp : OperatorType → Bool
  | toAddress => true
  | mulAddress => true
  | addAddress => true
  | _ => false

end OperatorType

namespace Machine

variable (m : Machine)

/-- An operation of the field. -/
def compute : OperatorType → List ℕ → Option ℕ
  | .add, [a, b] => some ((a + b) % m.prime)
  | .add, _ => none
  | .mul, [a, b] => some ((a * b) % m.prime)
  | .mul, _ => none
  | op, values => m.operation op values

/-- A number as a word. -/
def word (n : ℕ) : Option ℕ := if n < m.words then some n else none

/-- An operation on words: it fails on an overflow. -/
def computeAddress : OperatorType → List ℕ → Option ℕ
  | .mulAddress, [a, b] => m.word (a * b)
  | .addAddress, [a, b] => m.word (a + b)
  | _, _ => none

mutual

/-- The value of an instruction in the field. -/
def element : Instruction → Option ℕ
  | .value .bigInt value => some (m.constants value % m.prime)
  | .load addressType src _ => do
    let region ← region addressType
    let position ← position src
    m.memory ⟨region, position⟩
  | .compute op stack =>
    if op.isAddressOp then none
    else do
      let values ← elements stack
      m.compute op values
  | _ => none

def elements : List Instruction → Option (List ℕ)
  | [] => some []
  | i :: stack => do
    let value ← element i
    let values ← elements stack
    some (value :: values)

/-- The value of an instruction as a word. -/
def address : Instruction → Option ℕ
  | .value .u32 value => m.word value
  | .compute .toAddress stack => do
    let values ← elements stack
    match values with
    | [value] => m.word value
    | _ => none
  | .compute op stack => do
    let values ← addresses stack
    m.computeAddress op values
  | _ => none

def addresses : List Instruction → Option (List ℕ)
  | [] => some []
  | i :: stack => do
    let value ← address i
    let values ← addresses stack
    some (value :: values)

def region : AddressType → Option Region
  | .var => some .var
  | .signal => some .signal
  | .subcmpSignal cmpAddress _ _ _ _ => do
    let value ← address cmpAddress
    some (.subcmp value)

def position : LocationRule → Option Position
  | .indexed location templateHeader => do
    let value ← address location
    some (.indexed value templateHeader)
  | .mapped signalCode indexes => do
    let indexes ← mappedAccesses indexes
    some (.mapped signalCode indexes)

def mappedAccess : AccessType → Option MappedAccess
  | .indexed indexes symbolDim => do
    let values ← addresses indexes
    some (.indexed values symbolDim)
  | .qualified fieldNo => some (.qualified fieldNo)

def mappedAccesses : List AccessType → Option (List MappedAccess)
  | [] => some []
  | access :: accesses => do
    let first ← mappedAccess access
    let rest ← mappedAccesses accesses
    some (first :: rest)

end

end Machine

end Circom.IntermediateRepresentation
