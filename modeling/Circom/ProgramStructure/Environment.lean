import Circom.Lib.HashMap

/-!
# Environments

The variables of `RawEnvironment` of the crate `program_structure`: a stack of blocks, where a name means the
variable in the innermost block that has it.
-/

namespace Circom.ProgramStructure

open Circom.Lib (HashMap)

/-- The blocks of variables, the innermost one first. -/
abbrev Variables (VC : Type) := List (HashMap String VC)

def hashmapUnion {K V : Type} [DecidableEq K] (l r : HashMap K V) (mergeFunction : V → V → V) :
    HashMap K V :=
  let (result, r) := l.pairs.foldl (fun (acc : HashMap K V × HashMap K V) e =>
    match acc.2.lookup e.1 with
    | some rv => (acc.1.insert e.1 (mergeFunction e.2 rv), acc.2.erase e.1)
    | none => (acc.1.insert e.1 e.2, acc.2)) (∅, r)
  r.pairs.foldl (fun (result : HashMap K V) e =>
    if e.1 ∈ result then result else result.insert e.1 e.2) result

namespace Variables

variable {VC : Type}

/-- There always is a block. -/
def addVariable (blocks : Variables VC) (name : String) (content : VC) : Variables VC :=
  match blocks with
  | [] => []
  | block :: blocks => block.insert name content :: blocks

def hasVariable (blocks : Variables VC) (name : String) : Bool := blocks.any fun block => name ∈ block

def getVariable (blocks : Variables VC) (name : String) : Option VC :=
  blocks.findSome? fun block => block.lookup name

/-- An assignment to what `get_mut_variable` returns. -/
def setVariable (name : String) (content : VC) : Variables VC → Variables VC
  | [] => []
  | block :: blocks =>
    if name ∈ block then block.insert name content :: blocks
    else block :: setVariable name content blocks

def addVariableBlock (blocks : Variables VC) : Variables VC := ∅ :: blocks

def removeVariableBlock (blocks : Variables VC) : Variables VC := blocks.tail

def merge (left right : Variables VC) (mergeFunction : VC → VC → VC) : Variables VC :=
  List.zipWith (fun l r => hashmapUnion l r mergeFunction) left right

end Variables

end Circom.ProgramStructure
