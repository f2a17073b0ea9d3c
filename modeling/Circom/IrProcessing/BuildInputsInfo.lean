import Circom.IntermediateRepresentation.Instruction
import Circom.Lib.HashMap
import Mathlib.Data.Finset.Insert

/-!
# The last store of every component

`build_inputs_info` walks over the instructions from the last one to the first one and marks the stores of
inputs: the one that runs a component, those that do not, and those that run it when no input is missing.
`none` is the failure of the assertion.
-/

namespace Circom.IrProcessing

open Circom.IntermediateRepresentation
open Circom.Lib (HashMap)

structure LastInfo where
  needsDecrement : Bool
  foundLast : Bool
  deriving DecidableEq, Repr

/-- What is known about the components of the instructions that have been visited. -/
structure Tables where
  assignmentStatus : HashMap String LastInfo := ∅
  unknownComponentNames : Finset String := ∅

/-- The name of a component with a known address in the table. -/
def cmpKey (value : ℕ) : String := "cmp_" ++ toString value

/-- The status and the decrement of a store, and the tables with it. -/
structure Visited where
  status : StatusInput
  needsDecrement : Bool
  tables : Tables
  assignmentsLevel : Finset String

/-- The stores of an anonymous component are all known. -/
def visitAnonymous (tables : Tables) (level : Finset String) (cmpName : String) : Option Visited :=
  match tables.assignmentStatus.lookup cmpName with
  | some lastInfo => if lastInfo.foundLast then some ⟨.noLast, false, tables, level⟩ else none
  | none => some ⟨.last, false, { tables with
      assignmentStatus := tables.assignmentStatus.insert cmpName ⟨false, true⟩ }, level⟩

def visitKnown (insideLoop : Bool) (tables : Tables) (level : Finset String) (cmpName : String)
    (value : String) : Visited :=
  match tables.assignmentStatus.lookup value with
  | some lastInfo =>
    if lastInfo.foundLast then ⟨.noLast, lastInfo.needsDecrement, tables, level⟩
    else if value ∈ level then ⟨.noLast, true, tables, level⟩
    else if !insideLoop then
      ⟨.unknown, true, { tables with
        assignmentStatus :=
          tables.assignmentStatus.insert value { lastInfo with foundLast := true } }, level⟩
    else ⟨.unknown, true, tables, insert value level⟩
  | none =>
    if insideLoop then
      ⟨.unknown, true, { tables with
        assignmentStatus := tables.assignmentStatus.insert value ⟨true, false⟩ }, insert value level⟩
    else if cmpName ∉ tables.unknownComponentNames then
      ⟨.last, false, { tables with
        assignmentStatus := tables.assignmentStatus.insert value ⟨false, true⟩ }, level⟩
    else
      -- other stores may be to this component
      ⟨.unknown, true, { tables with
        assignmentStatus := tables.assignmentStatus.insert value ⟨true, true⟩ }, level⟩

def visitUnknown (tables : Tables) (level : Finset String) (cmpName : String) : Visited :=
  ⟨.unknown, true, { tables with
    unknownComponentNames := insert cmpName tables.unknownComponentNames }, level⟩

def visitInput (insideLoop : Bool) (tables : Tables) (level : Finset String)
    (cmpAddress : Instruction) (isAnonymous : Bool) (cmpName : String) : Option Visited :=
  if isAnonymous then visitAnonymous tables level cmpName
  else
    match cmpAddress with
    | .value _ value => some (visitKnown insideLoop tables level cmpName (cmpKey value))
    | _ => some (visitUnknown tables level cmpName)

/-- A store that is always empty is marked without a change of the tables. -/
def visitAddressType (insideLoop alwaysEmpty : Bool) (tables : Tables) (level : Finset String) :
    AddressType → Option (AddressType × Tables × Finset String)
  | .subcmpSignal cmpAddress isOutput (.input _ needsDecrement) isAnonymous cmpName =>
    if alwaysEmpty then
      some (.subcmpSignal cmpAddress isOutput (.input .sizeZero needsDecrement) isAnonymous cmpName,
        tables, level)
    else do
      let visited ← visitInput insideLoop tables level cmpAddress isAnonymous cmpName
      some (.subcmpSignal cmpAddress isOutput (.input visited.status visited.needsDecrement)
        isAnonymous cmpName, visited.tables, visited.assignmentsLevel)
  | xtype => some (xtype, tables, level)

def alwaysEmpty : SizeOption → Bool
  | .single value => value = 0
  | .multiple _ => false

mutual

def visitInstruction (insideLoop : Bool) (tables : Tables) (level : Finset String) :
    Instruction → Option (Instruction × Tables × Finset String)
  | .branch cond ifBranch elseBranch => do
    let (ifBranch, tables, _) ← visitFromEnd true tables ifBranch
    let (elseBranch, tables, _) ← visitFromEnd true tables elseBranch
    some (.branch cond ifBranch elseBranch, tables, level)
  | .call symbol arguments (.final context destAddressType dest) => do
    let (destAddressType, tables, level) ←
      visitAddressType insideLoop (alwaysEmpty context) tables level destAddressType
    some (.call symbol arguments (.final context destAddressType dest), tables, level)
  | .loop continueCondition body => do
    let (body, tables, _) ← visitFromEnd true tables body
    some (.loop continueCondition body, tables, level)
  | .store context srcContext destAddressType dest src => do
    let (destAddressType, tables, level) ←
      visitAddressType insideLoop (alwaysEmpty context) tables level destAddressType
    some (.store context srcContext destAddressType dest src, tables, level)
  | instruction => some (instruction, tables, level)

/-- The loop of `visit_list`, with the components that are assigned at this level. -/
def visitFromEnd (insideLoop : Bool) (tables : Tables) :
    List Instruction → Option (List Instruction × Tables × Finset String)
  | [] => some ([], tables, ∅)
  | instruction :: instructions => do
    let (instructions, tables, level) ← visitFromEnd insideLoop tables instructions
    let (instruction, tables, level) ← visitInstruction insideLoop tables level instruction
    some (instruction :: instructions, tables, level)

end

def visitList (insideLoop : Bool) (tables : Tables) (instructions : List Instruction) :
    Option (List Instruction × Tables) := do
  let (instructions, tables, _) ← visitFromEnd insideLoop tables instructions
  some (instructions, tables)

def buildInputsInfo (code : List Instruction) : Option (List Instruction) := do
  let (code, _) ← visitList false {} code
  some code

end Circom.IrProcessing
