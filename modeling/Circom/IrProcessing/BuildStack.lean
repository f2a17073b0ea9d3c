import Circom.IntermediateRepresentation.Machine

/-!
# The auxiliary slots of a program

`build_stack.rs` gives the instructions whose values are elements of the field a slot of the array `expaux`, and
computes the size of the array. The instructions are those of the intermediate representation with these slots;
what neither the pass nor the slots need is left out. The address of the component that a source is read from, which
a store of a size known at run time only has, and the checks of indices keep the slots that they have. `none` is an
`unreachable!`.
-/

namespace Circom.IrProcessing.BuildStack

open Circom.IntermediateRepresentation (OperatorType ValueType)

mutual

inductive Instruction where
  | value (parseAs : ValueType) (value opAuxNo : ℕ)
  | load (addressType : AddressType) (src : LocationRule) (checks : List OutBoundsCheck)
  | store (destIsOutput : Bool) (destAddressType : AddressType) (srcAddressType : Option Instruction)
    (dest : LocationRule) (src : Instruction) (checks : List OutBoundsCheck)
  | compute (op : OperatorType) (opAuxNo : ℕ) (stack : List Instruction)
  | call (symbol : String) (arguments : List Instruction) (returnInfo : ReturnType) (checks : List OutBoundsCheck)
  | branch (cond : Instruction) (ifBranch elseBranch : List Instruction)
  | ret (value : Instruction)
  | assert (evaluate : Instruction)
  | log (argsprint : List Instruction)
  | loop (continueCondition : Instruction) (body : List Instruction)
  | createCmp (symbol : String) (subCmpId : Instruction)

inductive AddressType where
  | var
  | signal
  | subcmpSignal (cmpAddress : Instruction)

inductive LocationRule where
  | indexed (location : Instruction)
  | mapped (signalCode : ℕ) (indexes : List AccessType)

inductive AccessType where
  | indexed (indexes : List Instruction) (symbolDim : ℕ)
  | qualified (fieldNo : ℕ)

inductive ReturnType where
  | intermediate (opAuxNo : ℕ)
  | final (destAddressType : AddressType) (dest : LocationRule)

inductive OutBoundsCheck where
  | mk (access : Instruction) (size : ℕ)

end

/-- `build_compute` once the operands are built. -/
def buildCompute (op : OperatorType) (fresh : ℕ) (operands : Option (List Instruction × ℕ × ℕ)) :
    Option (Instruction × ℕ) :=
  if op.isAddressOp then none
  else do
    let (stack, maxStack, _) ← operands
    some (.compute op fresh stack, max (fresh + 1) maxStack)

/-- `build_compute_address` once the operands are built. -/
def buildComputeAddress (op : OperatorType) (opAuxNo fresh : ℕ)
    (operands : Option (List Instruction × ℕ × ℕ)) : Option (Instruction × ℕ × ℕ) := do
  let (stack, maxStack, fresh') ← operands
  some (.compute op opAuxNo stack, max fresh maxStack, fresh')

mutual

/-- The instruction with its slots, and its depth. -/
def buildInstruction (fresh : ℕ) : Instruction → Option (Instruction × ℕ)
  | .branch cond ifBranch elseBranch => do
    let (cond, inCond) ← buildInstruction fresh cond
    let (ifBranch, inIf) ← buildList fresh ifBranch
    let (elseBranch, inElse) ← buildList fresh elseBranch
    some (.branch cond ifBranch elseBranch, max inCond (max inIf inElse))
  | .call symbol arguments (.intermediate _) checks => do
    let (arguments, depth) ← buildArguments (fresh + 1) arguments
    some (.call symbol arguments (.intermediate fresh) checks, max fresh depth)
  | .call symbol arguments (.final destAddressType dest) checks => do
    let (destAddressType, v0, _) ← buildAddressType fresh destAddressType
    let (dest, v1, _) ← buildLocation fresh dest
    let (arguments, depth) ← buildArguments fresh arguments
    some (.call symbol arguments (.final destAddressType dest) checks, max (max v0 v1) depth)
  | .compute op _ stack => buildCompute op fresh (buildOperands (fresh + 1) stack)
  | .load addressType src checks => do
    let (addressType, v0, f0) ← buildAddressType fresh addressType
    let (src, v1, _) ← buildLocation f0 src
    some (.load addressType src checks, max v0 v1)
  | .loop continueCondition body => do
    let (continueCondition, inCond) ← buildInstruction fresh continueCondition
    let (body, inBody) ← buildList fresh body
    some (.loop continueCondition body, max inCond inBody)
  | .ret value => do
    let (value, depth) ← buildInstruction fresh value
    some (.ret value, depth)
  | .store destIsOutput destAddressType srcAddressType dest src checks => do
    let (src, f0) ← buildInstruction fresh src
    let (dest, f1, _) ← buildLocation fresh dest
    let (destAddressType, f2, _) ← buildAddressType fresh destAddressType
    some (.store destIsOutput destAddressType srcAddressType dest src checks, max (max f0 f1) f2)
  | .value parseAs value _ => some (.value parseAs value fresh, fresh + 1)
  | .assert evaluate => do
    let (evaluate, depth) ← buildInstruction fresh evaluate
    some (.assert evaluate, depth)
  | .createCmp symbol subCmpId => do
    let (subCmpId, depth) ← buildInstruction fresh subCmpId
    some (.createCmp symbol subCmpId, depth)
  | .log argsprint => do
    let (argsprint, inLog) ← buildList fresh argsprint
    some (.log argsprint, inLog)

/-- The loop of `build_list`, and that of `build_log`. -/
def buildList (fresh : ℕ) : List Instruction → Option (List Instruction × ℕ)
  | [] => some ([], 0)
  | i :: instructions => do
    let (i, depth) ← buildInstruction fresh i
    let (instructions, maxDepth) ← buildList fresh instructions
    some (i :: instructions, max depth maxDepth)

/-- The loop of `build_call`. -/
def buildArguments (fresh : ℕ) : List Instruction → Option (List Instruction × ℕ)
  | [] => some ([], 0)
  | i :: arguments => do
    let (i, depth) ← buildInstruction (fresh + 1) i
    let (arguments, maxStack) ← buildArguments (fresh + 1) arguments
    some (i :: arguments, max depth maxStack)

/-- The operand of a computation, its depth and the next slot for the rest of the expression. -/
def buildInstructionCompute (fresh : ℕ) : Instruction → Option (Instruction × ℕ × ℕ)
  | .compute op _ stack => do
    let (i, depth) ← buildCompute op fresh (buildOperands (fresh + 1) stack)
    some (i, depth, fresh + 1)
  | .load addressType src checks => do
    let (addressType, v0, f0) ← buildAddressType fresh addressType
    let (src, v1, f1) ← buildLocation f0 src
    some (.load addressType src checks, max v0 v1, f1)
  | .value parseAs value _ => some (.value parseAs value fresh, fresh + 1, fresh + 1)
  | _ => none

/-- The loop of `build_compute`. -/
def buildOperands (fresh : ℕ) : List Instruction → Option (List Instruction × ℕ × ℕ)
  | [] => some ([], 0, fresh)
  | i :: stack => do
    let (i, depth, fresh) ← buildInstructionCompute fresh i
    let (stack, maxStack, fresh) ← buildOperands fresh stack
    some (i :: stack, max depth maxStack, fresh)

/-- An address. Its operations do not write to slots. -/
def buildInstructionAddress (fresh : ℕ) : Instruction → Option (Instruction × ℕ × ℕ)
  | .compute .addAddress opAuxNo stack =>
    buildComputeAddress .addAddress opAuxNo fresh (buildAddresses fresh stack)
  | .compute .mulAddress opAuxNo stack =>
    buildComputeAddress .mulAddress opAuxNo fresh (buildAddresses fresh stack)
  | .compute .toAddress opAuxNo stack =>
    buildComputeAddress .toAddress opAuxNo fresh (buildOperands fresh stack)
  | .value parseAs value opAuxNo => some (.value parseAs value opAuxNo, 0, fresh)
  | _ => none

def buildAddresses (fresh : ℕ) : List Instruction → Option (List Instruction × ℕ × ℕ)
  | [] => some ([], 0, fresh)
  | i :: stack => do
    let (i, depth, fresh) ← buildInstructionAddress fresh i
    let (stack, maxStack, fresh) ← buildAddresses fresh stack
    some (i :: stack, max depth maxStack, fresh)

def buildLocation (fresh : ℕ) : LocationRule → Option (LocationRule × ℕ × ℕ)
  | .indexed location => do
    let (location, depth, fresh) ← buildInstructionAddress fresh location
    some (.indexed location, depth, fresh)
  | .mapped signalCode indexes => do
    let (indexes, maxStack, fresh') ← buildAccesses fresh indexes
    some (.mapped signalCode indexes, max fresh maxStack, fresh')

def buildAccess (fresh : ℕ) : AccessType → Option (AccessType × ℕ × ℕ)
  | .indexed indexes symbolDim => do
    let (indexes, maxStack, fresh) ← buildAddresses fresh indexes
    some (.indexed indexes symbolDim, maxStack, fresh)
  | .qualified fieldNo => some (.qualified fieldNo, 0, fresh)

def buildAccesses (fresh : ℕ) : List AccessType → Option (List AccessType × ℕ × ℕ)
  | [] => some ([], 0, fresh)
  | acc :: indexes => do
    let (acc, depth, fresh) ← buildAccess fresh acc
    let (indexes, maxStack, fresh) ← buildAccesses fresh indexes
    some (acc :: indexes, max depth maxStack, fresh)

def buildAddressType (fresh : ℕ) : AddressType → Option (AddressType × ℕ × ℕ)
  | .subcmpSignal cmpAddress => do
    let (cmpAddress, cmpStack, newFresh) ← buildInstructionAddress fresh cmpAddress
    some (.subcmpSignal cmpAddress, max fresh cmpStack, newFresh)
  | xtype => some (xtype, fresh, fresh)

end

end Circom.IrProcessing.BuildStack
