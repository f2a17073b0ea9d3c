import Circom.Ast.Predicates
import Circom.Ast.ProgramArchive

/-!
# The syntax sugar remover

`parser::syntax_sugar_remover`: anonymous components become declared components with one assignment for
each input, assignments of tuples become assignments of their elements. Each removal runs after a check
that reports the misplaced ones.
-/

namespace Circom.Parser

open Circom.Ast

/-! ## Checks for anonymous components -/

section Checks

/-- An array index among the accesses satisfies the test. -/
def anyIndex (test : Expression → Bool) (access : List Access) : Bool :=
  (access.filterMap Access.index?).any test

mutual

def checkAnonymousComponentsExpression : Expression → Except Failure Unit
  | .uniformArray info value dimension =>
    if value.containsAnonymousComp || dimension.containsAnonymousComp then
      .error (anonymousGeneralError info
        "An anonymous component cannot be used to define a dimension of an array")
    else .ok ()
  | .number .. => .ok ()
  | .var info _ access =>
    if anyIndex Expression.containsAnonymousComp access then
      .error (anonymousGeneralError info
        "An anonymous component cannot be used to define a dimension of an array")
    else .ok ()
  | .infixOp info lhe _ rhe =>
    if lhe.containsAnonymousComp || rhe.containsAnonymousComp then
      .error (anonymousGeneralError info
        "An anonymous component cannot be used in the middle of an operation ")
    else .ok ()
  | .prefixOp info _ rhe =>
    if rhe.containsAnonymousComp then
      .error (anonymousGeneralError info
        "An anonymous component cannot be used in the middle of an operation ")
    else .ok ()
  | .inlineSwitchOp info cond ifTrue ifFalse =>
    if cond.containsAnonymousComp || ifTrue.containsAnonymousComp ||
        ifFalse.containsAnonymousComp then
      .error (anonymousGeneralError info
        "An anonymous component cannot be used inside an inline switch ")
    else .ok ()
  | .call info _ args =>
    if args.any Expression.containsAnonymousComp then
      .error (anonymousGeneralError info
        "An anonymous component cannot be used as a parameter in a template call ")
    else .ok ()
  | .busCall info _ args =>
    if args.any Expression.containsAnonymousComp then
      .error (anonymousGeneralError info
        "An anonymous component cannot be used as a parameter in a bus call ")
    else .ok ()
  | .anonymousComp info _ _ params signals _ =>
    if params.any Expression.containsAnonymousComp then
      .error (anonymousGeneralError info
        "An anonymous component cannot be used as a parameter in a template call ")
    else checkAnonymousComponentsExpressions signals
  | .tuple _ values => checkAnonymousComponentsExpressions values
  | .arrayInLine _ values => checkAnonymousComponentsExpressions values
  | .parallelOp info rhe =>
    if !rhe.isCall && !rhe.isAnonymousComp && rhe.containsAnonymousComp then
      .error (anonymousGeneralError info
        "Bad use of parallel operator in combination with anonymous components ")
    else if rhe.isCall && rhe.containsAnonymousComp then
      .error (anonymousGeneralError info
        "An anonymous component cannot be used as a parameter in a template call ")
    else .ok ()

def checkAnonymousComponentsExpressions : List Expression → Except Failure Unit
  | [] => .ok ()
  | value :: values => do
    checkAnonymousComponentsExpression value
    checkAnonymousComponentsExpressions values

end

mutual

def checkAnonymousComponentsStatement : Statement → Except Failure Unit
  | .multSubstitution info lhe op rhe =>
    if lhe.containsAnonymousComp then
      .error (anonymousGeneralError info
        "An anonymous component cannot be used in the left side of an assignment")
    else if rhe.containsAnonymousComp && op == .assignSignal then
      .error (anonymousGeneralError info "Anonymous components only admit the use of the operator <==")
    else checkAnonymousComponentsExpression rhe
  | .ifThenElse info cond ifCase elseCase =>
    if cond.containsAnonymousComp then .error (anonymousInsideConditionError info)
    else do
      checkAnonymousComponentsStatement ifCase
      match elseCase with
      | some elseCase => checkAnonymousComponentsStatement elseCase
      | none => .ok ()
  | .whileStmt info cond stmt =>
    if cond.containsAnonymousComp then .error (anonymousInsideConditionError info)
    else checkAnonymousComponentsStatement stmt
  | .logCall info args =>
    if (args.filterMap LogArgument.exp?).any Expression.containsAnonymousComp then
      .error (anonymousGeneralError info "An anonymous component cannot be used inside a log")
    else .ok ()
  | .assert info arg =>
    if arg.containsAnonymousComp then
      .error (anonymousGeneralError info "An anonymous component cannot be used inside an assert")
    else .ok ()
  | .returnStmt info value =>
    if value.containsAnonymousComp then
      .error (anonymousGeneralError info
        "An anonymous component cannot be used inside a function ")
    else .ok ()
  | .constraintEquality info lhe rhe =>
    if lhe.containsAnonymousComp || rhe.containsAnonymousComp then
      .error (anonymousGeneralError info
        "An anonymous component cannot be used with operator === ")
    else .ok ()
  | .declaration info _ _ dimensions _ _ =>
    if dimensions.any Expression.containsAnonymousComp then
      .error (anonymousGeneralError info
        "An anonymous component cannot be used to define a dimension of an array")
    else .ok ()
  | .initializationBlock _ _ initializations => checkAnonymousComponentsStatements initializations
  | .block _ stmts => checkAnonymousComponentsStatements stmts
  | .substitution info _ access op rhe =>
    if anyIndex Expression.containsAnonymousComp access then
      .error (anonymousGeneralError info
        "An anonymous component cannot be used to define a dimension of an array")
    else if rhe.containsAnonymousComp && op == .assignSignal then
      .error (anonymousGeneralError info "Anonymous components only admit the use of the operator <==")
    else checkAnonymousComponentsExpression rhe
  | .underscoreSubstitution .. => .error .unreachable

def checkAnonymousComponentsStatements : List Statement → Except Failure Unit
  | [] => .ok ()
  | stmt :: stmts => do
    checkAnonymousComponentsStatement stmt
    checkAnonymousComponentsStatements stmts

end

end Checks

/-! ## Expansion of anonymous components -/

/-- What an expression becomes: declarations of components, statements that come before, and the
expression itself. -/
structure UpdatedExpression where
  initComponents : List Statement
  substitutions : List Statement
  expression : Expression

/-- What a statement becomes: a statement, declarations of components, declarations of variables, and
their first assignments. -/
structure UpdatedStatement where
  body : Statement
  initComponents : List Statement
  initVariables : List Statement
  substitutions : List Statement

/-- `BTreeMap::insert`, on the entries in the order of their keys. -/
def btreeInsert {α : Type} (key : String) (value : α) : List (String × α) → List (String × α)
  | [] => [(key, value)]
  | entry :: entries =>
    if key < entry.1 then (key, value) :: entry :: entries
    else if key = entry.1 then (key, value) :: entries
    else entry :: btreeInsert key value entries

section AnonymousComponents

variable (templates : List (String × TemplateData)) (fileLib : FileLibrary)

/-- The name of a node: an identifier with the line and the position of the node. -/
def nodeName (id : String) (info : Meta) : Except Failure String :=
  match info.fileId with
  | none => .error .panicked
  | some fileId =>
    match fileLib.getLine info.start fileId with
    | none => .error .panicked
    | some line => .ok (id ++ "_" ++ toString line ++ "_" ++ toString info.start)

/-- The signals that come with names. -/
def namedAssignments {α : Type} (info : Meta) (template : TemplateData) :
    List (AssignOp × String) → List α → List (String × AssignOp × α) →
      Except Failure (List (String × AssignOp × α))
  | [], _, assignments => .ok assignments
  | (operator, name) :: names, signals, assignments =>
    if operator ≠ .assignConstraintSignal then
      .error (anonymousGeneralError info "Anonymous components only admit the use of the operator <==")
    else if name ∈ template.inputWires then
      match signals with
      | [] => .error .panicked
      | signal :: signals =>
        namedAssignments info template names signals
          (btreeInsert name (operator, signal) assignments)
    else
      let template := template.name
      .error (anonymousGeneralError info
        s!"The template {template} does not have an input signal named {name}")

/-- Which signal an input is assigned, in the order of the names of the inputs. -/
def inputsToAssignments {α : Type} (info : Meta) (template : TemplateData)
    (names : Option (List (AssignOp × String))) (signals : List α) :
    Except Failure (List (String × AssignOp × α)) :=
  match names with
  | some names =>
    if template.inputWires.card ≠ names.length then
      .error (anonymousGeneralError info
        "The number of template input signals must coincide with the number of input parameters ")
    else do
      let assignments ← namedAssignments info template names signals []
      if template.inputWires.card ≠ assignments.length then
        .error (anonymousGeneralError info
          "The number of template input signals must coincide with the number of input parameters ")
      else .ok assignments
  | none =>
    if template.inputDeclarations.length ≠ signals.length then
      .error (anonymousGeneralError info
        "The number of template input signals must coincide with the number of input parameters ")
    else
      .ok ((template.inputDeclarations.zip signals).foldl
        (fun assignments input =>
          btreeInsert input.1 (.assignConstraintSignal, input.2) assignments) [])

/-- The declarations and the statements of the assignments to the inputs. -/
def assignInputs (info : Meta) (idAnonTemp : String) (access : List Access) :
    List (String × AssignOp × Except Failure UpdatedExpression) →
      Except Failure (List Statement × List Statement)
  | [] => .ok ([], [])
  | (nameSignal, operator, expr) :: inputs => do
    let expr ← expr
    let rest ← assignInputs info idAnonTemp access inputs
    let subs := .substitution info idAnonTemp (access ++ [.componentAccess nameSignal]) operator expr.expression
    .ok (expr.initComponents ++ rest.1, expr.substitutions ++ subs :: rest.2)

/-- Inside a loop the component is an array, which the counter of the loop indexes. -/
def anonymousAccess (varAccess : Option Expression) : List Access :=
  varAccess.toList.map .arrayAccess

def anonymousDeclaration (varAccess : Option Expression) (info : Meta) (idAnonTemp : String) :
    Statement :=
  match varAccess with
  | none => .declaration info .component idAnonTemp [] true true
  | some varAccess => .declaration info .anonymousComponent idAnonTemp [varAccess] true true

/-- The statement that creates the component. -/
def anonymousCreation (varAccess : Option Expression) (info : Meta) (idAnonTemp id : String)
    (isParallel : Bool) (params : List Expression) : Statement :=
  let call := .call info id params
  let expWithCall := if isParallel then .parallelOp info call else call
  .substitution info idAnonTemp (anonymousAccess varAccess) .assignVar expWithCall

/-- The only output of the component, or the tuple of its outputs. -/
def anonymousOutput (varAccess : Option Expression) (info : Meta) (idAnonTemp : String)
    (outputs : List String) : Expression :=
  let output := fun name =>
    .var info idAnonTemp (anonymousAccess varAccess ++ [.componentAccess name])
  match outputs with
  | [name] => output name
  | outputs => .tuple info (outputs.map output)

/-- An anonymous component becomes a declared one. The signals come expanded; those that are assigned to
an input are used. -/
def removeAnonymousComp (varAccess : Option Expression) (info : Meta) (id : String)
    (isParallel : Bool) (params : List Expression) (names : Option (List (AssignOp × String)))
    (signals : List (Except Failure UpdatedExpression)) : Except Failure UpdatedExpression :=
  match templates.lookup id with
  | none => .error (anonymousGeneralError info s!"The template {id} does not exist")
  | some template => do
    let idAnonTemp ← nodeName fileLib id info
    let inputs ← inputsToAssignments info template names signals
    let assigned ← assignInputs info idAnonTemp (anonymousAccess varAccess) inputs
    let creation := anonymousCreation varAccess info idAnonTemp id isParallel params
    .ok ⟨anonymousDeclaration varAccess info idAnonTemp :: assigned.1,
      [.block info (creation :: assigned.2)],
      anonymousOutput varAccess info idAnonTemp template.outputDeclarations⟩

/-- The values of an array or a tuple, one after the other. -/
def collectValues : List (Except Failure UpdatedExpression) →
    Except Failure (List Statement × List Statement × List Expression)
  | [] => .ok ([], [], [])
  | value :: values => do
    let value ← value
    let rest ← collectValues values
    .ok (value.initComponents ++ rest.1, value.substitutions ++ rest.2.1, value.expression :: rest.2.2)

mutual

def removeAnonymousFromExpression (varAccess : Option Expression) :
    Expression → Except Failure UpdatedExpression
  | .arrayInLine info values => do
    let values ← collectValues (removeAnonymousFromEach varAccess values)
    .ok ⟨values.1, values.2.1, .arrayInLine info values.2.2⟩
  | .anonymousComp info id isParallel params signals names =>
    removeAnonymousComp templates fileLib varAccess info id isParallel params names
      (removeAnonymousFromEach varAccess signals)
  | .tuple info values => do
    let values ← collectValues (removeAnonymousFromEach varAccess values)
    .ok ⟨values.1, values.2.1, .tuple info values.2.2⟩
  | .parallelOp _ (.anonymousComp info id _ params signals names) =>
    removeAnonymousComp templates fileLib varAccess info id true params names
      (removeAnonymousFromEach varAccess signals)
  | exp => .ok ⟨[], [], exp⟩

def removeAnonymousFromEach (varAccess : Option Expression) :
    List Expression → List (Except Failure UpdatedExpression)
  | [] => []
  | exp :: exps => removeAnonymousFromExpression varAccess exp :: removeAnonymousFromEach varAccess exps

end

/-- An assignment, after the statements that its right side needs. -/
def withSubstitutions (info : Meta) (rhe : UpdatedExpression) (subs : Expression → Statement) :
    UpdatedStatement :=
  if rhe.substitutions.isEmpty then ⟨subs rhe.expression, rhe.initComponents, [], []⟩
  else ⟨.block info (rhe.substitutions ++ [subs rhe.expression]), rhe.initComponents, [], []⟩

mutual

def removeAnonymousFromStatement (varAccess : Option Expression) :
    Statement → Except Failure UpdatedStatement
  | .multSubstitution info lhe op rhe => do
    let rhe ← removeAnonymousFromExpression templates fileLib varAccess rhe
    .ok (withSubstitutions info rhe (.multSubstitution info lhe op))
  | .ifThenElse info cond ifCase elseCase => do
    let ifBody ← removeAnonymousFromStatement varAccess ifCase
    match elseCase with
    | none => .ok { ifBody with body := .ifThenElse info cond ifBody.body none }
    | some elseCase => do
      let elseBody ← removeAnonymousFromStatement varAccess elseCase
      .ok ⟨.ifThenElse info cond ifBody.body (some elseBody.body),
        ifBody.initComponents ++ elseBody.initComponents, ifBody.initVariables ++ elseBody.initVariables,
        ifBody.substitutions ++ elseBody.substitutions⟩
  | .whileStmt info cond stmt => do
    let idVarWhile ← nodeName fileLib "anon_var" info
    let access := .var info idVarWhile []
    let body ← removeAnonymousFromStatement (some access) stmt
    if body.initComponents.isEmpty then
      .ok ⟨.whileStmt info cond body.body, body.initComponents, [], []⟩
    else
      let nextAccess := .infixOp info access .add (.number info 1)
      let subsAccess := .substitution info idVarWhile [] .assignVar nextAccess
      .ok ⟨.whileStmt info cond (.block info [body.body, subsAccess]), body.initComponents,
        .declaration info .var idVarWhile [] true false :: body.initVariables,
        body.substitutions ++ [.substitution info idVarWhile [] .assignVar (.number info 0)]⟩
  | .initializationBlock info xtype initializations => do
    let inits ← removeAnonymousFromStatements varAccess initializations
    .ok ⟨.initializationBlock info xtype inits.1, inits.2.1, inits.2.2.1, inits.2.2.2⟩
  | .block info stmts => do
    let stmts ← removeAnonymousFromStatements varAccess stmts
    .ok ⟨.block info stmts.1, stmts.2.1, stmts.2.2.1, stmts.2.2.2⟩
  | .substitution info var access op rhe => do
    let rhe ← removeAnonymousFromExpression templates fileLib varAccess rhe
    .ok (withSubstitutions info rhe (.substitution info var access op))
  | .underscoreSubstitution .. => .error .unreachable
  | stmt => .ok ⟨stmt, [], [], []⟩

def removeAnonymousFromStatements (varAccess : Option Expression) :
    List Statement →
      Except Failure (List Statement × List Statement × List Statement × List Statement)
  | [] => .ok ([], [], [], [])
  | stmt :: stmts => do
    let stmt ← removeAnonymousFromStatement varAccess stmt
    let rest ← removeAnonymousFromStatements varAccess stmts
    .ok (stmt.body :: rest.1, stmt.initComponents ++ rest.2.1, stmt.initVariables ++ rest.2.2.1,
      stmt.substitutions ++ rest.2.2.2)

end

end AnonymousComponents

/-! ## Checks for tuples -/

section Tuples

mutual

def checkTuplesExpression : Expression → Except Failure Unit
  | .arrayInLine info values =>
    if values.any Expression.containsTuple then
      .error (tupleGeneralError info "A tuple cannot be used to define a dimension of an array ")
    else .ok ()
  | .uniformArray info value dimension =>
    if value.containsTuple || dimension.containsTuple then
      .error (tupleGeneralError info "A tuple cannot be used to define a dimension of an array ")
    else .ok ()
  | .number .. => .ok ()
  | .var info _ access =>
    if anyIndex Expression.containsTuple access then
      .error (tupleGeneralError info "A tuple cannot be used to define a dimension of an array")
    else .ok ()
  | .infixOp info lhe _ rhe =>
    if lhe.containsTuple || rhe.containsTuple then
      .error (tupleGeneralError info "A tuple cannot be used in the middle of an operation")
    else .ok ()
  | .prefixOp info _ rhe =>
    if rhe.containsTuple then
      .error (tupleGeneralError info "A tuple cannot be used in the middle of an operation")
    else .ok ()
  | .inlineSwitchOp info cond ifTrue ifFalse =>
    if cond.containsTuple || ifTrue.containsTuple || ifFalse.containsTuple then
      .error (tupleGeneralError info "A tuple cannot be used inside an inline switch")
    else .ok ()
  | .call info _ args =>
    if args.any Expression.containsTuple then
      .error (tupleGeneralError info "A tuple cannot be used as a parameter of a function call")
    else .ok ()
  | .busCall info _ args =>
    if args.any Expression.containsTuple then
      .error (tupleGeneralError info "A tuple cannot be used as a parameter of a bus call")
    else .ok ()
  | .anonymousComp .. => .error .unreachable
  | .tuple _ values => checkTuplesExpressions values
  | .parallelOp info rhe =>
    if rhe.containsTuple then
      .error (tupleGeneralError info "A tuple cannot be used in a parallel operator ")
    else .ok ()

def checkTuplesExpressions : List Expression → Except Failure Unit
  | [] => .ok ()
  | value :: values => do
    checkTuplesExpression value
    checkTuplesExpressions values

end

mutual

def checkTuplesStatement : Statement → Except Failure Unit
  | .multSubstitution _ lhe _ rhe => do
    checkTuplesExpression lhe
    checkTuplesExpression rhe
  | .ifThenElse info cond ifCase elseCase =>
    if cond.containsTuple then
      .error (tupleGeneralError info "A tuple cannot be used inside a condition ")
    else do
      checkTuplesStatement ifCase
      match elseCase with
      | some elseCase => checkTuplesStatement elseCase
      | none => .ok ()
  | .whileStmt info cond stmt =>
    if cond.containsTuple then
      .error (tupleGeneralError info "A tuple cannot be used inside a condition ")
    else checkTuplesStatement stmt
  | .logCall _ args => checkTuplesExpressions (args.filterMap LogArgument.exp?)
  | .assert info arg =>
    if arg.containsTuple then
      .error (tupleGeneralError info "A tuple cannot be used in a return ")
    else .ok ()
  | .returnStmt info value =>
    if value.containsTuple then
      .error (tupleGeneralError info "A tuple cannot be used inside a function ")
    else .ok ()
  | .constraintEquality info lhe rhe =>
    if lhe.containsTuple || rhe.containsTuple then
      .error (tupleGeneralError info "A tuple cannot be used with the operator === ")
    else .ok ()
  | .declaration info _ _ dimensions _ _ =>
    if dimensions.any Expression.containsTuple then
      .error (tupleGeneralError info "A tuple cannot be used to define a dimension of an array ")
    else .ok ()
  | .initializationBlock _ _ initializations => checkTuplesStatements initializations
  | .block _ stmts => checkTuplesStatements stmts
  | .substitution info _ access _ rhe =>
    if anyIndex Expression.containsTuple access then
      .error (tupleGeneralError info "A tuple cannot be used to define a dimension of an array")
    else checkTuplesExpression rhe
  | .underscoreSubstitution .. => .error .unreachable

def checkTuplesStatements : List Statement → Except Failure Unit
  | [] => .ok ()
  | stmt :: stmts => do
    checkTuplesStatement stmt
    checkTuplesStatements stmts

end

/-! ## Removal of tuples -/

/-- The values of a tuple, and an expression that is not one by itself. -/
def unfoldedValues : Expression → List Expression
  | .tuple _ values => values
  | exp => [exp]

mutual

def removeTupleFromExpression : Expression → Except Failure Expression
  | .anonymousComp .. => .error .unreachable
  | .tuple info values => do
    let values ← removeTupleFromExpressions values
    .ok (.tuple info values)
  | exp => .ok exp

def removeTupleFromExpressions : List Expression → Except Failure (List Expression)
  | [] => .ok []
  | val :: vals => do
    let val ← removeTupleFromExpression val
    let vals ← removeTupleFromExpressions vals
    .ok (unfoldedValues val ++ vals)

end

mutual

def separateTupleForLogcall : Expression → List LogArgument
  | .tuple _ values => .logStr "(" :: separateTuplesForLogcall values ++ [.logStr ")"]
  | val => [.logExp val]

def separateTuplesForLogcall : List Expression → List LogArgument
  | [] => []
  | val :: vals => separateTupleForLogcall val ++ separateTuplesForLogcall vals

end

/-- What becomes of an argument of a log call. -/
def newLogArguments : LogArgument → List LogArgument
  | .logStr string => [.logStr string]
  | .logExp exp => separateTupleForLogcall exp

/-- `split_string`: chunks of 230 bytes, where a cut inside a character panics. -/
def splitString (chunk : List Char) (size : ℕ) : List Char → Except Failure (List LogArgument)
  | [] => .ok (if chunk.isEmpty then [] else [.logStr (String.ofList chunk)])
  | c :: cur =>
    let size := size + c.utf8Size
    let chunk := chunk ++ [c]
    if size < 230 then splitString chunk size cur
    else if size = 230 then do
      let args ← splitString [] 0 cur
      .ok (.logStr (String.ofList chunk) :: args)
    else .error .panicked

def buildLogArguments : List LogArgument → Except Failure (List LogArgument)
  | [] => .ok []
  | .logExp exp :: args => do
    let args ← buildLogArguments args
    .ok (.logExp exp :: args)
  | .logStr string :: args => do
    let strings ← splitString [] 0 string.toList
    let args ← buildLogArguments args
    .ok (strings ++ args)

def buildLogCall (info : Meta) (args : List LogArgument) : Except Failure Statement := do
  let args ← buildLogArguments args
  .ok (.logCall info args)

/-- One assignment for each pair of elements; the error is reported at the whole statement. -/
def elementSubstitutions (info : Meta) (op : AssignOp) :
    List Expression → List Expression → Except Failure (List Statement)
  | lhe :: values1, rhe :: values2 =>
    match lhe with
    | .var info' name access => do
      let substs ← elementSubstitutions info op values1 values2
      .ok ((if name ≠ "_" then .substitution info' name access op rhe
        else .underscoreSubstitution info' op rhe) :: substs)
    | _ =>
      .error (tupleGeneralError info
        "The elements of the receiving tuple must be signals or variables.")
  | _, _ => .ok []

/-- The assignment of one tuple to another. -/
def removeMultSubstitution (info : Meta) (op : AssignOp) (lhe rhe : Expression) :
    Except Failure Statement :=
  match lhe, rhe with
  | .tuple _ values1, .tuple _ values2 =>
    if values1.length = values2.length then do
      let substs ← elementSubstitutions info op values1 values2
      .ok (.block info substs)
    else if 0 < values1.length then
      .error (tupleGeneralError info "The number of elements in both tuples does not coincide")
    else
      .error (tupleGeneralError info "This expression must be in the right side of an assignment")
  | lhe, rhe =>
    if lhe.isTuple || lhe.isVariable then
      .error (tupleGeneralError rhe.info
        "This expression must be a tuple or an anonymous component")
    else
      .error (tupleGeneralError lhe.info
        "This expression must be a tuple, a component, a signal or a variable ")

mutual

def removeTuplesFromStatement : Statement → Except Failure Statement
  | .multSubstitution info lhe op rhe => do
    let newExpLhe ← removeTupleFromExpression lhe
    let newExpRhe ← removeTupleFromExpression rhe
    removeMultSubstitution info op newExpLhe newExpRhe
  | .ifThenElse info cond ifCase elseCase => do
    let ifOk ← removeTuplesFromStatement ifCase
    match elseCase with
    | none => .ok (.ifThenElse info cond ifOk none)
    | some elseCase => do
      let elseOk ← removeTuplesFromStatement elseCase
      .ok (.ifThenElse info cond ifOk (some elseOk))
  | .whileStmt info cond stmt => do
    let whileOk ← removeTuplesFromStatement stmt
    .ok (.whileStmt info cond whileOk)
  | .logCall info args => buildLogCall info (args.flatMap newLogArguments)
  | .initializationBlock info xtype initializations => do
    let newInits ← removeTuplesFromStatements initializations
    .ok (.initializationBlock info xtype newInits)
  | .block info stmts => do
    let newStmts ← removeTuplesFromStatements stmts
    .ok (.block info newStmts)
  | .substitution info var access op rhe => do
    let newRhe ← removeTupleFromExpression rhe
    if newRhe.isTuple then
      .error (tupleGeneralError info "Left-side of the statement is not a tuple")
    else if var ≠ "_" then .ok (.substitution info var access op newRhe)
    else .ok (.underscoreSubstitution info op newRhe)
  | .underscoreSubstitution .. => .error .unreachable
  | stmt => .ok stmt

def removeTuplesFromStatements : List Statement → Except Failure (List Statement)
  | [] => .ok []
  | stmt :: stmts => do
    let stmt ← removeTuplesFromStatement stmt
    let stmts ← removeTuplesFromStatements stmts
    .ok (stmt :: stmts)

end

end Tuples

/-! ## The whole program -/

/-- The body of a template with its declarations in front. -/
def desugarTemplate (templates : List (String × TemplateData)) (fileLib : FileLibrary)
    (t : TemplateData) : Except Failure TemplateData := do
  checkAnonymousComponentsStatement t.body
  let new ← removeAnonymousFromStatement templates fileLib none t.body
  match new.body with
  | .block info stmts => do
    let newBodyWithInits := .block info
      ([.initializationBlock info .var new.initVariables,
        .initializationBlock info .component new.initComponents] ++ new.substitutions ++ stmts)
    checkTuplesStatement newBodyWithInits
    let newBody ← removeTuplesFromStatement newBodyWithInits
    .ok { t with body := newBody }
  | _ => .error .unreachable

def desugarFunction (t : FunctionData) : Except Failure FunctionData :=
  if t.body.containsAnonymousComp then
    .error (anonymousGeneralError t.body.info
      "Functions cannot contain calls to anonymous templates")
  else do
    checkTuplesStatement t.body
    let newBody ← removeTuplesFromStatement t.body
    .ok { t with body := newBody }

/-- A loop over the values of a hash map. -/
def mapValues {α β : Type} (f : α → Except Failure β) :
    List (String × α) → Except Failure (List (String × β))
  | [] => .ok []
  | (name, value) :: entries => do
    let value ← f value
    let entries ← mapValues f entries
    .ok ((name, value) :: entries)

def applySyntacticSugar (programArchive : ProgramArchive) : Except Failure ProgramArchive :=
  let main := programArchive.initialTemplateCall
  if main.isAnonymousComp || main.containsAnonymousComp then
    .error (anonymousGeneralError main.info "The main component cannot contain an anonymous call  ")
  else if main.isTuple || main.containsTuple then
    .error (tupleGeneralError main.info "The main component cannot contain a tuple  ")
  else do
    let templates ← mapValues
      (desugarTemplate programArchive.templates programArchive.fileLibrary) programArchive.templates
    let functions ← mapValues desugarFunction programArchive.functions
    .ok { programArchive with templates := templates, functions := functions }

end Circom.Parser
