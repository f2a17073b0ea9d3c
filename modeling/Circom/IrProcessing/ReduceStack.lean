import Circom.IntermediateRepresentation.Machine

/-!
# Constant addresses

`reduce_stack.rs`: operations on addresses are carried out where both operands are numbers. An address operation
with fewer than two operands stops with a panic, here `none`.
-/

namespace Circom.IrProcessing

open Circom.IntermediateRepresentation

def reduceOperands : Instruction → Instruction → Option (ℕ × ℕ)
  | .value .u32 v0, .value .u32 v1 => some (v0, v1)
  | _, _ => none

/-- An operation on `usize`. -/
def usizeOperation : OperatorType → ℕ × ℕ → Option ℕ
  | .mulAddress, (a, b) => some (a * b % 2 ^ 64)
  | .addAddress, (a, b) => some ((a + b) % 2 ^ 64)
  | _, _ => none

/-- `reduce_compute` once the operands are reduced. -/
def reduceCompute (op : OperatorType) (stack : List Instruction) : Option Instruction :=
  if !op.isAddressOp || op = .toAddress then some (.compute op stack)
  else
    match stack with
    | op0 :: op1 :: _ =>
      match reduceOperands op0 op1 with
      | some operands => do
        let value ← usizeOperation op operands
        some (.value .u32 value)
      | none => some (.compute op stack)
    | _ => none

mutual

def reduceInstruction : Instruction → Option Instruction
  | .value parseAs value => some (.value parseAs value)
  | .load addressType src context => do
    let addressType ← reduceAddressType addressType
    let src ← reduceLocationRule src
    some (.load addressType src context)
  | .store context srcContext destAddressType dest src => do
    let destAddressType ← reduceAddressType destAddressType
    let dest ← reduceLocationRule dest
    let src ← reduceInstruction src
    some (.store context srcContext destAddressType dest src)
  | .call symbol arguments returnInfo => do
    let arguments ← reduceList arguments
    let returnInfo ← reduceReturnInfo returnInfo
    some (.call symbol arguments returnInfo)
  | .branch cond ifBranch elseBranch => do
    let cond ← reduceInstruction cond
    let ifBranch ← reduceList ifBranch
    let elseBranch ← reduceList elseBranch
    some (.branch cond ifBranch elseBranch)
  | .ret withSize value => do
    let value ← reduceInstruction value
    some (.ret withSize value)
  | .assert evaluate => do
    let evaluate ← reduceInstruction evaluate
    some (.assert evaluate)
  | .log argsprint => do
    let argsprint ← reduceList argsprint
    some (.log argsprint)
  | .loop continueCondition body => do
    let continueCondition ← reduceInstruction continueCondition
    let body ← reduceList body
    some (.loop continueCondition body)
  | .createCmp symbol subCmpId => do
    let subCmpId ← reduceInstruction subCmpId
    some (.createCmp symbol subCmpId)
  | .compute op stack => do
    let stack ← reduceList stack
    reduceCompute op stack

def reduceList : List Instruction → Option (List Instruction)
  | [] => some []
  | instr :: list => do
    let instr ← reduceInstruction instr
    let reduced ← reduceList list
    some (instr :: reduced)

def reduceReturnInfo : ReturnType → Option ReturnType
  | .intermediate => some .intermediate
  | .final context destAddressType dest => do
    let dest ← reduceLocationRule dest
    let destAddressType ← reduceAddressType destAddressType
    some (.final context destAddressType dest)

def reduceAddressType : AddressType → Option AddressType
  | .var => some .var
  | .signal => some .signal
  | .subcmpSignal cmpAddress isOutput inputInformation isAnonymous cmpName => do
    let cmpAddress ← reduceInstruction cmpAddress
    some (.subcmpSignal cmpAddress isOutput inputInformation isAnonymous cmpName)

def reduceLocationRule : LocationRule → Option LocationRule
  | .indexed location templateHeader => do
    let location ← reduceInstruction location
    some (.indexed location templateHeader)
  | .mapped signalCode indexes => do
    let accesses ← reduceAccesses indexes
    some (.mapped signalCode accesses)

def reduceAccess : AccessType → Option AccessType
  | .indexed indexes symbolDim => do
    let indexes ← reduceList indexes
    some (.indexed indexes symbolDim)
  | .qualified fieldNo => some (.qualified fieldNo)

def reduceAccesses : List AccessType → Option (List AccessType)
  | [] => some []
  | acc :: accesses => do
    let acc ← reduceAccess acc
    let accesses ← reduceAccesses accesses
    some (acc :: accesses)

end

end Circom.IrProcessing
