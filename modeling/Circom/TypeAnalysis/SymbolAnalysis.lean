import Circom.Ast.Predicates
import Circom.Lib.HashMap

/-!
# The check of the symbols

`check_naming_correctness` and `check_signal_correctness` of the crate `type_analysis`: a symbol has to be declared
before it is used, once in a block, and signals, buses and components are not declared in loops. Of the templates,
functions and buses of the program the check only looks at the numbers of parameters, and at the fields of buses.
-/

namespace Circom.TypeAnalysis.SymbolAnalysis

open Circom.Ast

inductive ReportCode where
  | sameSymbolDeclaredTwice
  | nonExistentSymbol
  | functionWrongNumberOfArguments
  | busWrongNumberOfArguments
  | signalOutsideOriginalScope
  deriving DecidableEq, Repr

structure Report where
  message : String
  code : ReportCode
  /-- The text of the primary label. -/
  label : String
  /-- The node, if it is not the list of the parameters. -/
  info : Option Meta
  deriving DecidableEq, Repr

/-- What is known about the program. -/
structure ProgramInfo where
  /-- The numbers of parameters of the functions. -/
  functions : String → Option ℕ
  templates : String → Option ℕ
  /-- The numbers of parameters of the buses and their fields. -/
  buses : String → Option (ℕ × List String)

/-- The sets of symbols, the last block first. -/
abbrev Environment := List (List String)

def symbolInEnvironment (environment : Environment) (symbol : String) : Bool :=
  environment.any fun block => symbol ∈ block

/-- Whether the symbol is new in the last block, and the environment with it. -/
def addSymbolToBlock (environment : Environment) (symbol : String) : Bool × Environment :=
  match environment with
  | [] => (false, [])
  | block :: blocks => if symbol ∈ block then (false, block :: blocks) else (true, (symbol :: block) :: blocks)

variable (program : ProgramInfo)

/-! ## Expressions -/

def callReports (info : Meta) (id : String) (args : ℕ) : List Report :=
  match (program.functions id).or (program.templates id) with
  | none => [⟨"Calling symbol", .nonExistentSymbol, "Calling unknown symbol", some info⟩]
  | some expected =>
    if args ≠ expected then
      [⟨"Calling function with wrong number of arguments", .functionWrongNumberOfArguments,
        "Got " ++ toString args ++ " params, " ++ toString expected ++ " where expected", some info⟩]
    else []

def busCallReports (info : Meta) (id : String) (args : ℕ) : List Report :=
  match program.buses id with
  | none => [⟨"Calling symbol", .nonExistentSymbol, "Calling unknown symbol", some info⟩]
  | some (expected, _) =>
    if args ≠ expected then
      [⟨"Instantiating bus with wrong number of arguments", .busWrongNumberOfArguments,
        "Got " ++ toString args ++ " params, " ++ toString expected ++ " where expected", some info⟩]
    else []

def undeclaredReports (environment : Environment) (info : Meta) (name : String) : List Report :=
  if symbolInEnvironment environment name then []
  else [⟨"Undeclared symbol", .nonExistentSymbol, "Using unknown symbol", some info⟩]

mutual

def analyzeExpression (environment : Environment) : Expression → List Report
  | .infixOp _ lhe _ rhe => analyzeExpression environment lhe ++ analyzeExpression environment rhe
  | .prefixOp _ _ rhe => analyzeExpression environment rhe
  | .parallelOp _ rhe => analyzeExpression environment rhe
  | .inlineSwitchOp _ cond ifTrue ifFalse =>
    analyzeExpression environment cond ++ analyzeExpression environment ifTrue ++
      analyzeExpression environment ifFalse
  | .var info name access => undeclaredReports environment info name ++ analyzeAccess environment access
  | .call info id args =>
    -- the arguments of a wrong call are not looked at
    match callReports program info id args.length with
    | [] => analyzeExpressions environment args
    | reports => reports
  | .busCall info id args =>
    match busCallReports program info id args.length with
    | [] => analyzeExpressions environment args
    | reports => reports
  | .arrayInLine _ values => analyzeExpressions environment values
  | .uniformArray _ value dimension => analyzeExpression environment value ++ analyzeExpression environment dimension
  | _ => []

def analyzeExpressions (environment : Environment) : List Expression → List Report
  | [] => []
  | expr :: exprs => analyzeExpression environment expr ++ analyzeExpressions environment exprs

def analyzeAccess (environment : Environment) : List Access → List Report
  | [] => []
  | .arrayAccess index :: access => analyzeExpression environment index ++ analyzeAccess environment access
  | .componentAccess _ :: access => analyzeAccess environment access

end

def treatVariable (environment : Environment) (info : Meta) (name : String) (access : List Access) : List Report :=
  undeclaredReports environment info name ++ analyzeAccess program environment access

def analyzeLog (environment : Environment) : List LogArgument → List Report
  | [] => []
  | .logExp arg :: args => analyzeExpression program environment arg ++ analyzeLog environment args
  | .logStr _ :: args => analyzeLog environment args

/-- The tags of a bus that are names of its fields. -/
def tagReports (info : Meta) : VariableType → List Report
  | .bus name _ tags =>
    match program.buses name with
    | some (_, fields) => (tags.filter (· ∈ fields)).map fun _ =>
        ⟨"Declaring same symbol twice", .sameSymbolDeclaredTwice,
          "This tag name is also a field name in the bus.", some info⟩
    | none => []
  | _ => []

/-! ## Statements -/

def declaredTwice (info : Option Meta) : Report :=
  ⟨"Symbol declared twice", .sameSymbolDeclaredTwice, "Declaring same symbol twice", info⟩

mutual

/-- The reports, and the environment after the statement. -/
def analyzeStatement (environment : Environment) : Statement → List Report × Environment
  | .multSubstitution .. => ([], environment)
  | .returnStmt _ value => (analyzeExpression program environment value, environment)
  | .underscoreSubstitution _ _ rhe => (analyzeExpression program environment rhe, environment)
  | .substitution info var access _ rhe =>
    (analyzeExpression program environment rhe ++ treatVariable program environment info var access, environment)
  | .constraintEquality _ lhe rhe =>
    (analyzeExpression program environment lhe ++ analyzeExpression program environment rhe, environment)
  | .initializationBlock _ _ initializations => analyzeStatements environment initializations
  | .declaration info xtype name dimensions _ _ =>
    let (success, environment') := addSymbolToBlock environment name
    (analyzeExpressions program environment dimensions ++
      (if success then [] else [declaredTwice (some info)]) ++ tagReports program info xtype, environment')
  | .logCall _ args => (analyzeLog program environment args, environment)
  | .assert _ arg => (analyzeExpression program environment arg, environment)
  | .block _ stmts =>
    let (reports, environment) := analyzeStatements ([] :: environment) stmts
    (reports, environment.tail)
  | .whileStmt _ cond stmt =>
    let (reports, environment') := analyzeStatement environment stmt
    (analyzeExpression program environment cond ++ reports, environment')
  | .ifThenElse _ cond ifCase none =>
    let (reports, environment') := analyzeStatement environment ifCase
    (analyzeExpression program environment cond ++ reports, environment')
  | .ifThenElse _ cond ifCase (some elseCase) =>
    let (reports, environment') := analyzeStatement environment ifCase
    let (reports', environment'') := analyzeStatement environment' elseCase
    (analyzeExpression program environment cond ++ reports ++ reports', environment'')

def analyzeStatements (environment : Environment) : List Statement → List Report × Environment
  | [] => ([], environment)
  | stmt :: stmts =>
    let (reports, environment') := analyzeStatement environment stmt
    let (reports', environment'') := analyzeStatements environment' stmts
    (reports ++ reports', environment'')

end

/-- The parameters, and whether there is a name among them twice. -/
def addParams (environment : Environment) : List String → Bool × Environment
  | [] => (false, environment)
  | param :: params =>
    let (success, environment) := addSymbolToBlock environment param
    let (collision, environment) := addParams environment params
    (!success || collision, environment)

/-- The reports about a template, function or bus. -/
def analyzeSymbols (paramsNames : List String) (body : List Statement) : List Report :=
  let (paramNameCollision, environment) := addParams [[]] paramsNames
  (if paramNameCollision then [declaredTwice none] else []) ++ (analyzeStatements program environment body).1

/-! ## Declarations in loops -/

def isWire : VariableType → Bool
  | .signal .. | .bus .. | .component => true
  | _ => false

def signalInLoop (info : Meta) : Report where
  message := "Signal, bus or component declaration inside While scope. Signals, buses and components can only be " ++
    "defined in the initial scope or in If scopes with known condition"
  code := .signalOutsideOriginalScope
  label := "Is outside the initial scope"
  info := some info

mutual

def treatStatement (signalDeclarationAllowed : Bool) : Statement → List Report
  | .ifThenElse _ _ ifCase none => treatStatement signalDeclarationAllowed ifCase
  | .ifThenElse _ _ ifCase (some elseCase) =>
    treatStatement signalDeclarationAllowed ifCase ++ treatStatement signalDeclarationAllowed elseCase
  | .whileStmt _ _ stmt => treatStatement false stmt
  | .block _ stmts => treatStatements signalDeclarationAllowed stmts
  | .initializationBlock info xtype _ =>
    if isWire xtype && !signalDeclarationAllowed then [signalInLoop info] else []
  | _ => []

def treatStatements (signalDeclarationAllowed : Bool) : List Statement → List Report
  | [] => []
  | stmt :: stmts => treatStatement signalDeclarationAllowed stmt ++ treatStatements signalDeclarationAllowed stmts

end

def checkSignalCorrectness (templateBody : List Statement) : List Report := treatStatements true templateBody

end Circom.TypeAnalysis.SymbolAnalysis
