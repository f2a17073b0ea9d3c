import Circom.TypeAnalysis.SymbolAnalysis

/-!
# The return dimension of a function

`type_given_function` of the crate `type_analysis` searches the body of a function for a return expression whose
dimension it can tell, and looks into the functions that are called there. It carries the set of the functions it
has explored.
-/

namespace Circom.TypeAnalysis.TypeGivenFunction

open Circom.Ast
open Circom.Lib (HashMap)

/-- Of a function the parts that the search reads. -/
structure FunctionData where
  nameOfParams : List String
  body : List Statement

/-- The dimensions of the variables, the last block first. -/
abbrev Environment := List (HashMap String ℕ)

/-- Panics without a block. -/
def addVariableToEnvironment (environment : Environment) (varName : String) (hasType : ℕ) : Option Environment :=
  match environment with
  | [] => none
  | block :: blocks => some (block.insert varName hasType :: blocks)

/-- The variable of the last block that has one with the name. Panics when there is none. -/
def getType (environment : Environment) (varName : String) : Option ℕ :=
  environment.findSome? fun block => block.lookup varName

section

variable (start : Finset String → String → List ℕ → Option (Option ℕ × Finset String))

mutual

/-- The result of the search, with the explored functions after it; `start` searches a called function. Array literals
without elements panic. -/
def lookForTypeInExpression (environment : Environment) (explored : Finset String) :
    Expression → Option (Option ℕ × Finset String)
  | .infixOp _ lhe _ rhe => do
    let (lheType, explored) ← lookForTypeInExpression environment explored lhe
    match lheType with
    | some t => some (some t, explored)
    | none => lookForTypeInExpression environment explored rhe
  | .prefixOp _ _ rhe => lookForTypeInExpression environment explored rhe
  | .parallelOp _ rhe => lookForTypeInExpression environment explored rhe
  | .inlineSwitchOp _ _ ifTrue ifFalse => do
    let (ifTrueType, explored) ← lookForTypeInExpression environment explored ifTrue
    match ifTrueType with
    | some t => some (some t, explored)
    | none => lookForTypeInExpression environment explored ifFalse
  | .var _ name access => do
    let varType ← getType environment name
    some (if access.length > varType then none else some (varType - access.length), explored)
  | .number .. => some (some 0, explored)
  | .arrayInLine _ [] => none
  | .arrayInLine _ (value :: _) => do
    let (valueType, explored) ← lookForTypeInExpression environment explored value
    some (valueType.map (· + 1), explored)
  | .uniformArray _ value _ => do
    let (valueType, explored) ← lookForTypeInExpression environment explored value
    some (valueType.map (· + 1), explored)
  | .call _ id args =>
    if id ∈ explored then some (none, explored)
    else do
      let (paramsTypes, explored) ← lookForTypesOfArguments environment explored args
      match paramsTypes with
      | some paramsTypes => start explored id paramsTypes
      | none => some (none, explored)
  | _ => none

/-- The loop over the arguments of a call. -/
def lookForTypesOfArguments (environment : Environment) (explored : Finset String) : List Expression →
    Option (Option (List ℕ) × Finset String)
  | [] => some (some [], explored)
  | arg :: args => do
    let (argType, explored) ← lookForTypeInExpression environment explored arg
    match argType with
    | some t => do
      let (types, explored) ← lookForTypesOfArguments environment explored args
      some (types.map (t :: ·), explored)
    | none => some (none, explored)

end

mutual

def lookForReturnInStatement (environment : Environment) (explored : Finset String) :
    Statement → Option (Option ℕ × Environment × Finset String)
  | .ifThenElse _ _ ifCase none => lookForReturnInStatement environment explored ifCase
  | .ifThenElse _ _ ifCase (some elseCase) => do
    let (ret1, environment, explored) ← lookForReturnInStatement environment explored ifCase
    match ret1 with
    | some t => some (some t, environment, explored)
    | none => lookForReturnInStatement environment explored elseCase
  | .whileStmt _ _ stmt => lookForReturnInStatement environment explored stmt
  | .returnStmt _ value => do
    let (ret, explored) ← lookForTypeInExpression start environment explored value
    some (ret, environment, explored)
  | .initializationBlock _ _ initializations => do
    let (environment, explored) ← lookInInitializations environment explored initializations
    some (none, environment, explored)
  | .declaration _ _ name dimensions _ _ => do
    let environment ← addVariableToEnvironment environment name dimensions.length
    some (none, environment, explored)
  | .block _ stmts => do
    let (ret, environment, explored) ← lookForReturnInBlock (∅ :: environment) explored stmts
    some (ret, environment.tail, explored)
  | _ => some (none, environment, explored)

/-- What an initialization returns is ignored. -/
def lookInInitializations (environment : Environment) (explored : Finset String) :
    List Statement → Option (Environment × Finset String)
  | [] => some (environment, explored)
  | initialization :: initializations => do
    let (_, environment, explored) ← lookForReturnInStatement environment explored initialization
    lookInInitializations environment explored initializations

/-- The loop of `look_for_return_in_block` and `look_for_return_value`. -/
def lookForReturnInBlock (environment : Environment) (explored : Finset String) :
    List Statement → Option (Option ℕ × Environment × Finset String)
  | [] => some (none, environment, explored)
  | stmt :: stmts => do
    let (ret, environment, explored) ← lookForReturnInStatement environment explored stmt
    match ret with
    | some t => some (some t, environment, explored)
    | none => lookForReturnInBlock environment explored stmts

end

end

/-- The parameters and their dimensions. -/
def initialBlock (data : FunctionData) (paramsTypes : List ℕ) : HashMap String ℕ :=
  (data.nameOfParams.zip paramsTypes).foldl (fun block (name, t) => block.insert name t) ∅

section

variable (functionInfo : HashMap String FunctionData)

/-- Functions are searched inside of each other at most `fuel` deep. Panics when there is no function with the name. -/
def start : ℕ → Finset String → String → List ℕ → Option (Option ℕ × Finset String)
  | 0, _, _, _ => none
  | fuel + 1, exploredFunctions, functionName, paramsTypes => do
    let functionData ← functionInfo.lookup functionName
    let (ret, _, explored) ← lookForReturnInBlock (start fuel) [initialBlock functionData paramsTypes]
      (insert functionName exploredFunctions) functionData.body
    some (ret, explored)

def typeGivenFunction (fuel : ℕ) (functionName : String) (paramsTypes : List ℕ) : Option (Option ℕ) :=
  (start functionInfo fuel ∅ functionName paramsTypes).map Prod.fst

end

/-! ## The checks before -/

/-- The reports of `functions_free_of_template_elements`; their code is `UndefinedFunction`. -/
structure Report where
  message : String
  label : String
  info : Meta
  deriving DecidableEq, Repr

def templateElement (info : Meta) : Report :=
  ⟨"Template elements declared inside the function", "Declaring template element", info⟩

def templateOperator (info : Meta) : Report := ⟨"Function uses template operators", "Template operator found", info⟩

def componentOperator (info : Meta) : Report := ⟨"Function uses component operators", "Template operator found", info⟩

def unknownCall (info : Meta) : Report := ⟨"Unknown call in function", "Is not a function call", info⟩

def isSignalOperator : AssignOp → Bool
  | .assignVar => false
  | .assignSignal => true
  | .assignConstraintSignal => true

section

variable (isFunction : String → Bool)

mutual

def analyseExpression : Expression → List Report
  | .infixOp _ lhe _ rhe => analyseExpression lhe ++ analyseExpression rhe
  | .prefixOp _ _ rhe => analyseExpression rhe
  | .parallelOp _ rhe => analyseExpression rhe
  | .inlineSwitchOp _ cond ifTrue ifFalse =>
    analyseExpression cond ++ analyseExpression ifTrue ++ analyseExpression ifFalse
  | .var info _ access => analyseAccess info access
  | .number .. => []
  | .call info id args => (if isFunction id then [] else [unknownCall info]) ++ analyseExpressions args
  | .arrayInLine _ values => analyseExpressions values
  | .uniformArray _ value dimension => analyseExpression value ++ analyseExpression dimension
  | .busCall info _ _ => [templateElement info]
  -- the parser leaves no tuples and anonymous components
  | _ => []

def analyseExpressions : List Expression → List Report
  | [] => []
  | expr :: exprs => analyseExpression expr ++ analyseExpressions exprs

def analyseAccess (info : Meta) : List Access → List Report
  | [] => []
  | .arrayAccess index :: access => analyseExpression index ++ analyseAccess info access
  | .componentAccess _ :: access => componentOperator info :: analyseAccess info access

end

def analyseLog : List LogArgument → List Report
  | [] => []
  | .logExp arg :: args => analyseExpression isFunction arg ++ analyseLog args
  | .logStr _ :: args => analyseLog args

mutual

/-- `analyse_statement` of `functions_free_of_template_elements`. -/
def analyseStatement : Statement → List Report
  | .ifThenElse _ cond ifCase none => analyseExpression isFunction cond ++ analyseStatement ifCase
  | .ifThenElse _ cond ifCase (some elseCase) =>
    analyseExpression isFunction cond ++ analyseStatement ifCase ++ analyseStatement elseCase
  | .whileStmt _ cond stmt => analyseExpression isFunction cond ++ analyseStatement stmt
  | .block _ stmts => analyseStatements stmts
  | .initializationBlock info xtype initializations =>
    match xtype with
    | .signal .. => [templateElement info]
    | _ => analyseStatements initializations
  | .declaration info xtype _ dimensions _ _ =>
    match xtype with
    | .var => analyseExpressions isFunction dimensions
    | _ => [templateElement info]
  | .substitution info _ access op rhe => (if isSignalOperator op then [templateOperator info] else []) ++
    analyseAccess isFunction info access ++ analyseExpression isFunction rhe
  | .constraintEquality info lhe rhe =>
    templateOperator info :: (analyseExpression isFunction lhe ++ analyseExpression isFunction rhe)
  | .logCall _ args => analyseLog isFunction args
  | .assert _ arg => analyseExpression isFunction arg
  | .returnStmt _ value => analyseExpression isFunction value
  | .underscoreSubstitution info op rhe =>
    (if isSignalOperator op then [templateOperator info] else []) ++ analyseExpression isFunction rhe
  | .multSubstitution .. => []

def analyseStatements : List Statement → List Report
  | [] => []
  | stmt :: stmts => analyseStatement stmt ++ analyseStatements stmts

end

end

mutual

/-- `analyse_statement` of `functions_all_paths_with_return_statement`. -/
def allPathsReturn : Statement → Bool
  | .returnStmt .. => true
  | .whileStmt .. => false
  | .ifThenElse _ _ _ none => false
  | .ifThenElse _ _ ifCase (some elseCase) => allPathsReturn elseCase && allPathsReturn ifCase
  | .block _ stmts => somePathReturns stmts
  | _ => false

def somePathReturns : List Statement → Bool
  | [] => false
  | stmt :: stmts => allPathsReturn stmt || somePathReturns stmts

end

/-- The structural checks accept the functions of a program without templates and buses that are called. -/
def Accepted (functionInfo : HashMap String FunctionData) : Prop :=
  ∀ e ∈ functionInfo.pairs,
    SymbolAnalysis.analyzeSymbols
      ⟨fun name => (functionInfo.lookup name).map fun data => data.nameOfParams.length, fun _ => none, fun _ => none⟩
      e.2.nameOfParams e.2.body = [] ∧
    analyseStatements (fun name => (functionInfo.lookup name).isSome) e.2.body = [] ∧ somePathReturns e.2.body = true

/-! ## What the dimension is -/

/-- The environment in which the declarations of a body stand. -/
def declare (environment : Environment) (name : String) (hasType : ℕ) : Environment :=
  match environment with
  | [] => []
  | block :: blocks => block.insert name hasType :: blocks

mutual

/-- The return expressions of a statement with their environments, and the environment after the statement. -/
def returns (environment : Environment) : Statement → List (Environment × Expression) × Environment
  | .ifThenElse _ _ ifCase none => returns environment ifCase
  | .ifThenElse _ _ ifCase (some elseCase) =>
    let (exprs, environment) := returns environment ifCase
    let (exprs', environment) := returns environment elseCase
    (exprs ++ exprs', environment)
  | .whileStmt _ _ stmt => returns environment stmt
  | .returnStmt _ value => ([(environment, value)], environment)
  | .initializationBlock _ _ initializations => returnsAll environment initializations
  | .declaration _ _ name dimensions _ _ => ([], declare environment name dimensions.length)
  | .block _ stmts =>
    let (exprs, environment) := returnsAll (∅ :: environment) stmts
    (exprs, environment.tail)
  | _ => ([], environment)

def returnsAll (environment : Environment) : List Statement → List (Environment × Expression) × Environment
  | [] => ([], environment)
  | stmt :: stmts =>
    let (exprs, environment) := returns environment stmt
    let (exprs', environment) := returnsAll environment stmts
    (exprs ++ exprs', environment)

end

/-- The return expressions of a function for given dimensions of its parameters. -/
def FunctionData.returns (data : FunctionData) (paramsTypes : List ℕ) : List (Environment × Expression) :=
  (returnsAll [initialBlock data paramsTypes] data.body).1

mutual

/-- The statement has a return statement inside. -/
def hasReturn : Statement → Bool
  | .ifThenElse _ _ ifCase none => hasReturn ifCase
  | .ifThenElse _ _ ifCase (some elseCase) => hasReturn ifCase || hasReturn elseCase
  | .whileStmt _ _ stmt => hasReturn stmt
  | .returnStmt .. => true
  | .initializationBlock _ _ initializations => haveReturn initializations
  | .block _ stmts => haveReturn stmts
  | _ => false

def haveReturn : List Statement → Bool
  | [] => false
  | stmt :: stmts => hasReturn stmt || haveReturn stmts

end

mutual

/-- Initialization blocks do not return. The parser puts declarations and assignments there, and the removal of tuples
makes blocks of assignments of these. -/
def Parsed : Statement → Prop
  | .ifThenElse _ _ ifCase none => Parsed ifCase
  | .ifThenElse _ _ ifCase (some elseCase) => Parsed ifCase ∧ Parsed elseCase
  | .whileStmt _ _ stmt => Parsed stmt
  | .initializationBlock _ _ initializations => haveReturn initializations = false
  | .block _ stmts => ParsedAll stmts
  | _ => True

def ParsedAll : List Statement → Prop
  | [] => True
  | stmt :: stmts => Parsed stmt ∧ ParsedAll stmts

end

/-- A return dimension for functions and dimensions of their arguments. -/
abbrev Assignment := String → List ℕ → Option ℕ

section

variable (types : Assignment)

mutual

/-- The dimension that the type checker gives to an expression. -/
def dimension (environment : Environment) : Expression → Option ℕ
  | .infixOp _ lhe _ rhe => if dimension environment lhe = some 0 ∧ dimension environment rhe = some 0 then some 0 else none
  | .prefixOp _ _ rhe => if dimension environment rhe = some 0 then some 0 else none
  | .inlineSwitchOp _ _ ifTrue ifFalse =>
    if dimension environment ifTrue = dimension environment ifFalse then dimension environment ifTrue else none
  | .var _ name access => do
    let t ← getType environment name
    if access.length ≤ t then some (t - access.length) else none
  | .number .. => some 0
  | .arrayInLine _ values => do
    let dims ← dimensions environment values
    match dims with
    | [] => none
    | dim :: dims => if dims.all (· = dim) then some (dim + 1) else none
  | .uniformArray _ value _ => (dimension environment value).map (· + 1)
  | .call _ id args => do
    let dims ← dimensions environment args
    types id dims
  | _ => none

def dimensions (environment : Environment) : List Expression → Option (List ℕ)
  | [] => some []
  | expr :: exprs => do
    let dim ← dimension environment expr
    let dims ← dimensions environment exprs
    some (dim :: dims)

end

/-- The return expressions of every function have the dimension that it is given. -/
def Consistent (functionInfo : HashMap String FunctionData) : Prop :=
  ∀ name paramsTypes t, types name paramsTypes = some t → ∃ data, functionInfo.lookup name = some data ∧
    ∀ r ∈ data.returns paramsTypes, dimension types r.1 r.2 = some t

end

/-! ## What can be computed -/

/-- The dimension of an expression can be computed without a call of a function of `active`. An operator has the
dimension of one of its operands, and an array literal that of its first element and one more. -/
inductive Computable (functionInfo : HashMap String FunctionData) :
    (active : Finset String) → Environment → Expression → ℕ → Prop
  | infixLeft {active environment lhe t} (info : Meta) (infixOp : ExpressionInfixOpcode) (rhe : Expression) :
    Computable functionInfo active environment lhe t →
      Computable functionInfo active environment (.infixOp info lhe infixOp rhe) t
  | infixRight {active environment rhe t} (info : Meta) (infixOp : ExpressionInfixOpcode) (lhe : Expression) :
    Computable functionInfo active environment rhe t →
      Computable functionInfo active environment (.infixOp info lhe infixOp rhe) t
  | prefixOp {active environment rhe t} (info : Meta) (prefixOp : ExpressionPrefixOpcode) :
    Computable functionInfo active environment rhe t →
      Computable functionInfo active environment (.prefixOp info prefixOp rhe) t
  | ifTrue {active environment ifTrue t} (info : Meta) (cond ifFalse : Expression) :
    Computable functionInfo active environment ifTrue t →
      Computable functionInfo active environment (.inlineSwitchOp info cond ifTrue ifFalse) t
  | ifFalse {active environment ifFalse t} (info : Meta) (cond ifTrue : Expression) :
    Computable functionInfo active environment ifFalse t →
      Computable functionInfo active environment (.inlineSwitchOp info cond ifTrue ifFalse) t
  | var {active environment name t} {access : List Access} (info : Meta) : getType environment name = some t →
    access.length ≤ t → Computable functionInfo active environment (.var info name access) (t - access.length)
  | number {active environment} (info : Meta) (value : ℤ) :
    Computable functionInfo active environment (.number info value) 0
  | arrayInLine {active environment value t} (info : Meta) (values : List Expression) :
    Computable functionInfo active environment value t →
      Computable functionInfo active environment (.arrayInLine info (value :: values)) (t + 1)
  | uniformArray {active environment value t} (info : Meta) (dimension : Expression) :
    Computable functionInfo active environment value t →
      Computable functionInfo active environment (.uniformArray info value dimension) (t + 1)
  | call {active environment id args paramsTypes data r t} (info : Meta) : id ∉ active →
    args.length = paramsTypes.length →
    (∀ e ∈ args.zip paramsTypes, Computable functionInfo active environment e.1 e.2) →
    functionInfo.lookup id = some data → r ∈ data.returns paramsTypes →
    Computable functionInfo (insert id active) r.1 r.2 t →
      Computable functionInfo active environment (.call info id args) t

/-- A function has a return expression whose dimension can be computed while the functions of `active` are explored. -/
def ComputableCall (functionInfo : HashMap String FunctionData) (active : Finset String) (name : String)
    (paramsTypes : List ℕ) (t : ℕ) : Prop :=
  ∃ data, functionInfo.lookup name = some data ∧ ∃ r ∈ data.returns paramsTypes,
    Computable functionInfo (insert name active) r.1 r.2 t

/-- The dimension of the expression can be computed. -/
def IsComputable (functionInfo : HashMap String FunctionData) (active : Finset String) (environment : Environment)
    (expr : Expression) : Prop :=
  ∃ t, Computable functionInfo active environment expr t

/-! ## The order of calls and explorations -/

/-- An expression calls a function, or the body of a function is explored for a call. -/
inductive Visit where
  | called (name : String)
  | explored (name : String)
  deriving DecidableEq

section

open Classical

variable (functionInfo : HashMap String FunctionData) (types : Assignment)

section

variable (visits : Finset String → String → List ℕ → List Visit) (active : Finset String)

mutual

/-- The calls and explorations for the dimension of an expression while the functions of `active` are being explored.
Calls of these are left out. A second operand counts when the first one cannot be computed, and a function is explored
when its arguments can be computed; `visits` are those inside of it. -/
noncomputable def visitsOfExpression (environment : Environment) : Expression → List Visit
  | .infixOp _ lhe _ rhe => visitsOfExpression environment lhe ++
    if IsComputable functionInfo active environment lhe then [] else visitsOfExpression environment rhe
  | .prefixOp _ _ rhe => visitsOfExpression environment rhe
  | .parallelOp _ rhe => visitsOfExpression environment rhe
  | .inlineSwitchOp _ _ ifTrue ifFalse => visitsOfExpression environment ifTrue ++
    if IsComputable functionInfo active environment ifTrue then [] else visitsOfExpression environment ifFalse
  | .arrayInLine _ (value :: _) => visitsOfExpression environment value
  | .uniformArray _ value _ => visitsOfExpression environment value
  | .call _ id args =>
    if id ∈ active then []
    else .called id :: (visitsOfArguments environment args ++
      if ∀ arg ∈ args, IsComputable functionInfo active environment arg then
        (dimensions types environment args).elim [] (visits active id)
      else [])
  | _ => []

/-- The arguments count up to the first one that cannot be computed. -/
noncomputable def visitsOfArguments (environment : Environment) : List Expression → List Visit
  | [] => []
  | arg :: args => visitsOfExpression environment arg ++
    if IsComputable functionInfo active environment arg then visitsOfArguments environment args else []

end

/-- The return expressions count up to the first one that can be computed. -/
noncomputable def visitsOfReturns : List (Environment × Expression) → List Visit
  | [] => []
  | (environment, value) :: rs => visitsOfExpression functionInfo types visits active environment value ++
    if IsComputable functionInfo active environment value then [] else visitsOfReturns rs

end

noncomputable def visitsInside : ℕ → Finset String → String → List ℕ → List Visit
  | 0, _, _, _ => []
  | depth + 1, active, name, paramsTypes =>
    .explored name :: (functionInfo.lookup name).elim [] fun data =>
      visitsOfReturns functionInfo types (visitsInside depth) (insert name active) (data.returns paramsTypes)

/-- The calls and explorations for the dimension of a function. No function is explored inside of itself, so their
number bounds the depth. -/
noncomputable def visits (name : String) (paramsTypes : List ℕ) : List Visit :=
  visitsInside functionInfo types functionInfo.keys.length ∅ name paramsTypes

end

/-- No function is called after it has been explored. Recursive calls do not count. -/
def NoneCalledAgain (l : List Visit) : Prop :=
  l.Pairwise fun v w => ∀ name, v = .explored name → w ≠ .called name

end Circom.TypeAnalysis.TypeGivenFunction
