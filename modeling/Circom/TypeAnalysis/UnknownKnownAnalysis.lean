import Circom.Ast.Predicates
import Circom.ProgramStructure.Environment

/-!
# The known/unknown analysis

`unknown_known_analysis` of the crate `type_analysis`: a variable is unknown when its value can depend on a
signal. The type that a node reduces to, which the decorators have stored in its `Meta`, is a parameter. A
panic and a loop that needs more rounds than the fuel allows are `none`.
-/

namespace Circom.TypeAnalysis

open Circom.Ast
open Circom.Lib (HashMap)
open Circom.ProgramStructure (Variables hashmapUnion)

/-- What `get_reduces_to` returns. -/
inductive TypeReduction where
  | var
  | component (template : Option String)
  | bus (name : Option String)
  | signal
  | tag
  deriving DecidableEq

inductive Tag where
  | known
  | unknown
  deriving DecidableEq

def Tag.max : Tag → Tag → Tag
  | .known, .known => .known
  | _, _ => .unknown

/-- `max` on pairs of a tag and a flag. -/
def maxEntry : Tag × Bool → Tag × Bool → Tag × Bool
  | (.known, _), (.unknown, b) => (.unknown, b)
  | (.unknown, a), (.known, _) => (.unknown, a)
  | (t, a), (_, b) => (t, a || b)

/-- The variables with their tags, and whether they are arrays, and the components. The signals and buses of
the environment are never looked up. -/
structure Environment where
  vars : Variables (Tag × Bool)
  components : HashMap String Tag

def Environment.new : Environment := ⟨[∅], ∅⟩

def Environment.merge (left right : Environment) : Environment where
  vars := left.vars.merge right.vars maxEntry
  components := right.components.pairs.foldl
    (fun (components : HashMap String Tag) e => components.insert e.1 e.2) left.components

/-! ## Reports -/

inductive ReportCode where
  | unknownTemplateAssignment
  | unknownBus
  | unknownDimension
  | unknownTemplate
  | nonValidTagAssignment
  | nonQuadratic
  | unreachableConstraints
  | unreachableTags
  | unreachableSignals
  deriving DecidableEq

def ReportCode.message : ReportCode → String
  | .unknownTemplateAssignment =>
    "Assigments to signals within an unknown access to an array of components are not allowed"
  | .unknownBus => "Parameters of a bus must be known during the constraint generation phase"
  | .unknownDimension => "The length of every array must be known during the constraint generation phase"
  | .unknownTemplate =>
    "Every component instantiation must be resolved during the constraint generation phase. " ++
      "This component declaration uses a value that can be unknown during the constraint generation phase."
  | .nonValidTagAssignment =>
    "Tags cannot be assigned to values that can be unknown during the constraint generation phase"
  | .nonQuadratic =>
    "Non-quadratic constraint was detected statically, using unknown index will cause the constraint " ++
      "to be non-quadratic"
  | .unreachableConstraints =>
    "There are constraints depending on the value of the condition and it can be unknown during the " ++
      "constraint generation phase"
  | .unreachableTags =>
    "There are tag assignments depending on the value of the condition and it can be unknown during " ++
      "the constraint generation phase"
  | .unreachableSignals =>
    "There are signal, bus or component declarations depending on the value of the condition and it can " ++
      "be unknown during the constraint generation phase"

structure Report where
  code : ReportCode
  message : String
  info : Meta

/-- `add_report` under a condition. -/
def reportIf (cond : Bool) (code : ReportCode) (info : Meta) : List Report :=
  if cond then [⟨code, code.message, info⟩] else []

/-- The list `modifiedVariables` stands for a set. -/
structure ExitInformation where
  reports : List Report := []
  environment : Environment
  constraintsDeclared : Bool := false
  tagsModified : Bool := false
  signalsDeclared : Bool := false
  modifiedVariables : List String := []

variable (reducesTo : Meta → TypeReduction)

/-! ## Expressions -/

mutual

def tag (environment : Environment) : Expression → Option Tag
  | .number .. => some .known
  | .var info name _ =>
    match reducesTo info with
    | .var => do
      let (tag, isArray) ← environment.vars.getVariable name
      some (if isArray then .known else tag)
    | .signal => some .unknown
    | .bus _ => some .unknown
    | .component _ => environment.components.lookup name
    | .tag => some .known
  | .arrayInLine _ values => expressionIterator environment values
  | .call _ _ args => expressionIterator environment args
  | .busCall _ _ args => expressionIterator environment args
  | .uniformArray _ value dimension => do
    let tagValue ← tag environment value
    let tagDimension ← tag environment dimension
    some (tagValue.max tagDimension)
  | .inlineSwitchOp _ cond ifTrue ifFalse => do
    let tagCond ← tag environment cond
    let tagTrue ← tag environment ifTrue
    let tagFalse ← tag environment ifFalse
    some (tagCond.max (tagTrue.max tagFalse))
  | .infixOp _ lhe _ rhe => do
    let tagLhe ← tag environment lhe
    let tagRhe ← tag environment rhe
    some (tagRhe.max tagLhe)
  | .prefixOp _ _ rhe => tag environment rhe
  | .parallelOp _ rhe => tag environment rhe
  | .anonymousComp .. => none
  | .tuple .. => none

/-- `expression_iterator` from `Known`, looking for `Unknown`. -/
def expressionIterator (environment : Environment) : List Expression → Option Tag
  | [] => some .known
  | value :: values => do
    let indexTag ← tag environment value
    if indexTag = .unknown then some .unknown else expressionIterator environment values

end

/-- The loop over the accesses: it stops at the first unknown index. -/
def accessTag (environment : Environment) : List Access → Option Tag
  | [] => some .known
  | .componentAccess _ :: access => accessTag environment access
  | .arrayAccess index :: access => do
    let indexTag ← tag reducesTo environment index
    if indexTag = .unknown then some .unknown else accessTag environment access

mutual

def unknownIndex (environment : Environment) : Expression → Option Bool
  | .number .. => some false
  | .var _ _ access => do
    let tag ← accessTag reducesTo environment access
    some (tag = .unknown)
  | .infixOp _ lhe _ rhe => do
    if ← unknownIndex environment lhe then some true else unknownIndex environment rhe
  | .prefixOp _ _ rhe => unknownIndex environment rhe
  | .parallelOp _ rhe => unknownIndex environment rhe
  | .inlineSwitchOp _ cond ifTrue ifFalse => do
    if ← unknownIndex environment cond then some true
    else if ← unknownIndex environment ifTrue then some true
    else unknownIndex environment ifFalse
  | .call _ _ args => anyUnknownIndex environment args
  | .busCall _ _ args => anyUnknownIndex environment args
  | .arrayInLine _ values => anyUnknownIndex environment values
  | .tuple _ values => anyUnknownIndex environment values
  | .uniformArray _ value dimension => do
    if ← unknownIndex environment value then some true else unknownIndex environment dimension
  | .anonymousComp .. => none

def anyUnknownIndex (environment : Environment) : List Expression → Option Bool
  | [] => some false
  | exp :: exprs => do
    if ← unknownIndex environment exp then some true else anyUnknownIndex environment exprs

end

def isNonQuadratic (exp : Expression) (environment : Environment) : Option Bool :=
  unknownIndex reducesTo environment exp

def dimensionReports (environment : Environment) : List Expression → Option (List Report)
  | [] => some []
  | dimension :: dimensions => do
    let tagDimension ← tag reducesTo environment dimension
    let reports ← dimensionReports environment dimensions
    some (reportIf (tagDimension = .unknown) .unknownDimension dimension.info ++ reports)

/-! ## Environments -/

/-- Sets the given variables to unknown, those that exist. -/
def markUnknown (modifiedVariables : List String) (environment : Environment) : Environment :=
  modifiedVariables.foldl (fun environment name =>
    match environment.vars.getVariable name with
    | some (_, isArray) =>
      { environment with vars := environment.vars.setVariable name (.unknown, isArray) }
    | none => environment) environment

/-- Joins the tags after a loop body with those before it. The flag says that a variable got unknown. -/
def checkModified (initialState finalState : Environment) (modifiedVariables : List String) :
    Bool × Environment :=
  modifiedVariables.foldl (fun (acc : Bool × Environment) name =>
    match initialState.vars.getVariable name, acc.2.vars.getVariable name with
    | some ini, some fin =>
      if ini ≠ fin then
        (acc.1 || fin.1 = .unknown, { acc.2 with vars := acc.2.vars.setVariable name (maxEntry ini fin) })
      else acc
    | _, _ => acc) (false, finalState)

/-- Analyses a loop body until no variable gets unknown any more. Returns the environment that the last round
started with, what it found and the environment after it. -/
def analyzeLoop (analyzeBody : Environment → Option ExitInformation) :
    ℕ → Environment → Option (Environment × ExitInformation × Environment)
  | 0, _ => none
  | fuel + 1, environment => do
    let exit ← analyzeBody environment
    let (modified, environment') := checkModified environment exit.environment exit.modifiedVariables
    if modified then analyzeLoop analyzeBody fuel environment' else some (environment, exit, environment')

/-! ## Statements -/

/-- The reports about a condition that decides over constraints, tags or declarations. -/
def unreachableReports (tagCond : Tag) (constraintsDeclared tagsModified signalsDeclared : Bool)
    (info : Meta) : List Report :=
  reportIf (tagCond = .unknown && constraintsDeclared) .unreachableConstraints info ++
    reportIf (tagCond = .unknown && tagsModified) .unreachableTags info ++
    reportIf (tagCond = .unknown && signalsDeclared) .unreachableSignals info

/-- A constraint whose left side is accessed with `access`. -/
def analyzeConstraintSignal (environment : Environment) (info : Meta) (access : Tag) (rhe : Expression) :
    Option ExitInformation := do
  let nonQuadratic ← isNonQuadratic reducesTo rhe environment
  some
    { environment := environment
      constraintsDeclared := true
      reports := reportIf nonQuadratic .nonQuadratic rhe.info ++
        reportIf (access = .unknown) .nonQuadratic info }

def analyzeSubstitution (info : Meta) (var : String) (access : List Access) (op : AssignOp)
    (rhe : Expression) (environment : Environment) : Option ExitInformation := do
  let expressionTag ← tag reducesTo environment rhe
  let accessTag ← accessTag reducesTo environment access
  match reducesTo info with
  | .var => do
    let (value, isArray) ← environment.vars.getVariable var
    let value :=
      if !isArray then expressionTag.max accessTag
      else if value = .known then expressionTag.max accessTag
      else value
    some
      { environment := { environment with vars := environment.vars.setVariable var (value, isArray) }
        modifiedVariables := [var] }
  | .component _ =>
    some
      { environment := environment
        constraintsDeclared := true
        reports := reportIf (expressionTag = .unknown) .unknownTemplate rhe.info ++
          reportIf (accessTag = .unknown) .unknownTemplate info }
  | .bus _ =>
    let reports := reportIf (op = .assignVar && expressionTag = .unknown) .unknownBus info
    if op = .assignConstraintSignal then do
      let exit ← analyzeConstraintSignal reducesTo environment info accessTag rhe
      some { exit with reports := reports ++ exit.reports }
    else some { environment := environment, reports := reports }
  | .tag =>
    some
      { environment := environment
        tagsModified := true
        reports := reportIf (expressionTag = .unknown) .nonValidTagAssignment rhe.info ++
          reportIf (accessTag = .unknown) .nonValidTagAssignment info }
  | .signal =>
    if op = .assignConstraintSignal then
      analyzeConstraintSignal reducesTo environment info accessTag rhe
    else
      some
        { environment := environment
          reports := reportIf (var ∈ environment.components && accessTag = .unknown)
            .unknownTemplateAssignment info }

def analyzeDeclaration (xtype : VariableType) (name : String) (dimensions : List Expression)
    (environment : Environment) : Option ExitInformation := do
  let exit : ExitInformation :=
    match xtype with
    | .var =>
      { environment :=
          { environment with vars := environment.vars.addVariable name (.known, !dimensions.isEmpty) }
        modifiedVariables := [name] }
    | .signal .. | .bus .. => { environment := environment, signalsDeclared := true }
    | .component | .anonymousComponent =>
      { environment := { environment with components := environment.components.insert name .unknown }
        signalsDeclared := true }
  if xtype = .anonymousComponent then some exit
  else do
    let reports ← dimensionReports reducesTo exit.environment dimensions
    some { exit with reports := reports }

/-- Two pieces of information, one after the other. -/
def ExitInformation.add (acc exit : ExitInformation) : ExitInformation where
  reports := acc.reports ++ exit.reports
  environment := exit.environment
  constraintsDeclared := acc.constraintsDeclared || exit.constraintsDeclared
  tagsModified := acc.tagsModified || exit.tagsModified
  signalsDeclared := acc.signalsDeclared || exit.signalsDeclared
  modifiedVariables := acc.modifiedVariables ++ exit.modifiedVariables

mutual

def analyze (fuel : ℕ) : Statement → Environment → Option ExitInformation
  | .declaration _ xtype name dimensions _ _, environment =>
    analyzeDeclaration reducesTo xtype name dimensions environment
  | .substitution info var access op rhe, environment =>
    analyzeSubstitution reducesTo info var access op rhe environment
  | .underscoreSubstitution _ op rhe, environment => do
    let _ ← tag reducesTo environment rhe
    if op = .assignConstraintSignal then do
      let nonQuadratic ← isNonQuadratic reducesTo rhe environment
      some
        { environment := environment
          constraintsDeclared := true
          reports := reportIf nonQuadratic .nonQuadratic rhe.info }
    else some { environment := environment }
  | .constraintEquality _ lhe rhe, environment => do
    let nonQuadraticLhe ← isNonQuadratic reducesTo lhe environment
    let nonQuadraticRhe ← isNonQuadratic reducesTo rhe environment
    some
      { environment := environment
        constraintsDeclared := true
        reports := reportIf nonQuadraticLhe .nonQuadratic lhe.info ++
          reportIf nonQuadraticRhe .nonQuadratic rhe.info }
  | .ifThenElse _ cond ifCase elseCase, environment => do
    let tagCond ← tag reducesTo environment cond
    let ifInfo ← analyze fuel ifCase environment
    let elseInfo ← match elseCase with
      | some elseStmt => analyze fuel elseStmt environment
      | none => some { environment := environment }
    let exit := ifInfo.add elseInfo
    let merged := ifInfo.environment.merge elseInfo.environment
    some
      { exit with
        environment :=
          if tagCond = .unknown then markUnknown exit.modifiedVariables merged else merged
        reports := exit.reports ++ unreachableReports tagCond exit.constraintsDeclared exit.tagsModified
          exit.signalsDeclared cond.info }
  | .whileStmt _ cond stmt, environment => do
    let (_, exit, environment) ← analyzeLoop (fun environment => analyze fuel stmt environment) fuel environment
    let tagOut ← tag reducesTo environment cond
    -- the set of modified variables of the statement itself stays empty
    some
      { reports := exit.reports ++ unreachableReports tagOut exit.constraintsDeclared exit.tagsModified
          exit.signalsDeclared cond.info
        environment :=
          if tagOut = .unknown then markUnknown exit.modifiedVariables environment else environment
        constraintsDeclared := exit.constraintsDeclared
        tagsModified := exit.tagsModified
        signalsDeclared := exit.signalsDeclared }
  | .block _ stmts, environment => do
    let exit ← iterateStatements fuel stmts
      { environment := { environment with vars := environment.vars.addVariableBlock } }
    some
      { exit with
        environment := { exit.environment with vars := exit.environment.vars.removeVariableBlock } }
  | .initializationBlock _ _ initializations, environment =>
    iterateStatements fuel initializations { environment := environment }
  | .returnStmt .., environment => some { environment := environment }
  | .multSubstitution .., environment => some { environment := environment }
  | .logCall .., environment => some { environment := environment }
  | .assert .., environment => some { environment := environment }

def iterateStatements (fuel : ℕ) : List Statement → ExitInformation → Option ExitInformation
  | [], acc => some acc
  | stmt :: stmts, acc => do
    let exit ← analyze fuel stmt acc.environment
    iterateStatements fuel stmts (acc.add exit)

end

/-- The parameters are entered as arrays. -/
def Environment.ofParams (params : List String) : Environment :=
  params.foldl (fun environment arg =>
    { environment with vars := environment.vars.addVariable arg (.known, true) }) .new

end Circom.TypeAnalysis
