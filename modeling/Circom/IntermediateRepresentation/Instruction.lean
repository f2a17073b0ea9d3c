import Mathlib.Data.Nat.Notation
import Mathlib.Algebra.Group.Nat.Defs

/-!
# The intermediate representation

The instructions that templates and functions are translated to. Lines and messages are left out.
-/

namespace Circom.IntermediateRepresentation

/-- Whether a value is a number or the position of a constant of the field. -/
inductive ValueType where
  | bigInt
  | u32
  deriving DecidableEq, Repr

/-- The number of cells, where it differs with the identifier of the component. -/
inductive SizeOption where
  | single (value : ℕ)
  | multiple (values : List (ℕ × ℕ))
  deriving DecidableEq, Repr

inductive OperatorType where
  | mul
  | div
  | add
  | sub
  | pow
  | intDiv
  | mod
  | shiftL
  | shiftR
  | lesserEq
  | greaterEq
  | lesser
  | greater
  | eq (size : SizeOption)
  | notEq
  | boolOr
  | boolAnd
  | bitOr
  | bitAnd
  | bitXor
  | prefixSub
  | boolNot
  | complement
  | toAddress
  | mulAddress
  | addAddress
  deriving DecidableEq, Repr

/-- Whether a store of an input runs the component. -/
inductive StatusInput where
  | last
  | noLast
  | unknown
  | sizeZero
  deriving DecidableEq, Repr

inductive InputInformation where
  | noInput
  | input (status : StatusInput) (needsDecrement : Bool)
  deriving DecidableEq, Repr

mutual

inductive Instruction where
  | value (parseAs : ValueType) (value : ℕ)
  | load (addressType : AddressType) (src : LocationRule) (context : SizeOption)
  | store (context srcContext : SizeOption) (destAddressType : AddressType) (dest : LocationRule)
      (src : Instruction)
  | compute (op : OperatorType) (stack : List Instruction)
  | call (symbol : String) (arguments : List Instruction) (returnInfo : ReturnType)
  | branch (cond : Instruction) (ifBranch elseBranch : List Instruction)
  | ret (withSize : ℕ) (value : Instruction)
  | assert (evaluate : Instruction)
  | log (argsprint : List Instruction)
  | loop (continueCondition : Instruction) (body : List Instruction)
  | createCmp (symbol : String) (subCmpId : Instruction)

inductive AddressType where
  | var
  | signal
  | subcmpSignal (cmpAddress : Instruction) (isOutput : Bool) (inputInformation : InputInformation)
      (isAnonymous : Bool) (cmpName : String)

inductive LocationRule where
  | indexed (location : Instruction) (templateHeader : Option String)
  | mapped (signalCode : ℕ) (indexes : List AccessType)

inductive AccessType where
  | indexed (indexes : List Instruction) (symbolDim : ℕ)
  | qualified (fieldNo : ℕ)

inductive ReturnType where
  | intermediate
  | final (context : SizeOption) (destAddressType : AddressType) (dest : LocationRule)

end

/-!
## Indices as addresses

`indexing_instructions_filter` of `translate.rs` and the functions it calls. An index that seems to be small is
computed with machine words instead of elements of the field. The table of the field tracker gives the numbers
of the constants, so that a constant is parsed if it is smaller than `2 ^ 64`; `none` is an `unreachable!`.
-/

mutual

/-- Whether it is possible to convert the index to `usize`, and whether it is a small `usize`: a number < 100. -/
def checkIfPossibleToUsizeSingle (constants : ℕ → ℕ) : Instruction → Bool × Bool
  | .value .u32 value => (true, value < 100)
  | .value .bigInt value =>
    if constants value < 2 ^ 64 then (true, constants value < 100) else (false, false)
  | .compute .add stack => ((checkIfPossibleToUsizeMultiple constants true 0 stack).1, false)
  | .compute .mul stack =>
    let (areUsize, areSmall) := checkIfPossibleToUsizeMultiple constants true 0 stack
    (areUsize && areSmall, false)
  | .compute _ _ => (false, false)
  -- Case variable
  | _ => (true, false)

/-- Whether all of them are `usize`, and whether the number of non small `usize`s is at most one. -/
def checkIfPossibleToUsizeMultiple (constants : ℕ → ℕ) (isUsize : Bool) (numberNonSmall : ℕ) :
    List Instruction → Bool × Bool
  | [] => (isUsize, numberNonSmall ≤ 1)
  | i :: indexing =>
    let (isUsizeI, isSmallI) := checkIfPossibleToUsizeSingle constants i
    checkIfPossibleToUsizeMultiple constants (isUsize && isUsizeI)
      (if isSmallI then numberNonSmall else numberNonSmall + 1) indexing

end

mutual

def convertToUsizeSingle (constants : ℕ → ℕ) : Instruction → Option Instruction
  | .value .u32 value => some (.value .u32 value)
  | .value .bigInt value =>
    if constants value < 2 ^ 64 then some (.value .u32 (constants value)) else none
  | .compute .add stack => do
    let stack ← convertToUsizeMultiple constants stack
    some (.compute .addAddress stack)
  | .compute .mul stack => do
    let stack ← convertToUsizeMultiple constants stack
    some (.compute .mulAddress stack)
  | .compute _ _ => none
  -- Case variable
  | index => some (.compute .toAddress [index])

def convertToUsizeMultiple (constants : ℕ → ℕ) : List Instruction → Option (List Instruction)
  | [] => some []
  | i :: indexing => do
    let newIndex ← convertToUsizeSingle constants i
    let indexStack ← convertToUsizeMultiple constants indexing
    some (newIndex :: indexStack)

end

/-- The address of one index. -/
def indexingInstruction (constants : ℕ → ℕ) (i : Instruction) : Option Instruction :=
  if (checkIfPossibleToUsizeSingle constants i).1 then convertToUsizeSingle constants i
  else some (.compute .toAddress [i])

def indexingInstructionsFilter (constants : ℕ → ℕ) (indexing : List Instruction) :
    Option (List Instruction) :=
  indexing.mapM (indexingInstruction constants)

end Circom.IntermediateRepresentation
