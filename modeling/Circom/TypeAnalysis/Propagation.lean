import Circom.TypeAnalysis.ReferenceInterpreter

/-!
# When the analysis propagates what it should

Three things are dropped on the way: the set of variables that a loop modifies, which is not handed on to the
statements around the loop, the tag of a parameter, which is entered as an array and always read as known,
and the indices with which a tag is accessed.
-/

namespace Circom.TypeAnalysis

open Circom.Ast
open Circom.Lib (Occurs)

variable (reducesTo : Meta → TypeReduction)

/-! ## Variables of a statement -/

mutual

/-- The variables that a statement declares in the block it stands in. -/
def declaredVariables : Statement → List String
  | .declaration _ .var name .. => [name]
  | .initializationBlock _ _ initializations => declaredInSequence initializations
  | _ => []

def declaredInSequence : List Statement → List String
  | [] => []
  | stmt :: stmts => declaredVariables stmt ++ declaredInSequence stmts

end

mutual

/-- The variables that a statement assigns to, without those of its own blocks. -/
def assignedVariables : Statement → List String
  | .substitution info var .. => if reducesTo info = .var then [var] else []
  | .ifThenElse _ _ ifCase elseCase =>
    assignedVariables ifCase ++ match elseCase with
      | some elseStmt => assignedVariables elseStmt
      | none => []
  | .whileStmt _ _ stmt => assignedVariables stmt
  | .block _ stmts => assignedInSequence stmts
  | .initializationBlock _ _ initializations => assignedInSequence initializations
  | _ => []

def assignedInSequence : List Statement → List String
  | [] => []
  | stmt :: stmts =>
    assignedVariables stmt ++ (assignedInSequence stmts).filter (· ∉ declaredVariables stmt)

end

mutual

/-- The variables that a statement assigns to or declares, without those in its loops: the set that the
analysis hands on. -/
def collectedVariables : Statement → List String
  | .declaration _ .var name .. => [name]
  | .substitution info var .. => if reducesTo info = .var then [var] else []
  | .ifThenElse _ _ ifCase elseCase =>
    collectedVariables ifCase ++ match elseCase with
      | some elseStmt => collectedVariables elseStmt
      | none => []
  | .block _ stmts => collectedInSequence stmts
  | .initializationBlock _ _ initializations => collectedInSequence initializations
  | _ => []

def collectedInSequence : List Statement → List String
  | [] => []
  | stmt :: stmts => collectedVariables stmt ++ collectedInSequence stmts

end

mutual

/-- Branches and loop bodies are no declarations, as the grammar has it, and variables are no arrays. -/
def Scalar : Statement → Prop
  | .declaration _ .var _ dimensions .. => dimensions = []
  | .ifThenElse _ _ ifCase elseCase =>
    declaredVariables ifCase = [] ∧ Scalar ifCase ∧ match elseCase with
      | some elseStmt => declaredVariables elseStmt = [] ∧ Scalar elseStmt
      | none => True
  | .whileStmt _ _ stmt => declaredVariables stmt = [] ∧ Scalar stmt
  | .block _ stmts => AllScalar stmts
  | .initializationBlock _ _ initializations => AllScalar initializations
  | _ => True

def AllScalar : List Statement → Prop
  | [] => True
  | stmt :: stmts => Scalar stmt ∧ AllScalar stmts

end

/-! ## Reads -/

/-- An expression reads no parameter that is tagged unknown, and tags only with known indices. -/
def Reads (environment : Environment) (e : Expression) : Prop :=
  ∀ info name access, Occurs Expression.children (.var info name access) e →
    (reducesTo info = .var → ∀ t, environment.vars.getVariable name = some (t, true) → t = .known) ∧
    (reducesTo info = .tag → accessTag reducesTo environment access = some .known)

/-- An expression that is taken for known. -/
def Trusted (environment : Environment) (e : Expression) : Prop :=
  tag reducesTo environment e = some .known → Reads reducesTo environment e

/-- The expressions whose tags the analysis of a statement relies on. -/
def decisive : Statement → List Expression
  | .declaration _ xtype _ dimensions _ _ => if xtype = .anonymousComponent then [] else dimensions
  | .substitution info _ access op rhe =>
    match reducesTo info with
    | .signal | .bus _ =>
      if op = .assignConstraintSignal then access.filterMap Access.index? ++ indices rhe else []
    | _ => access.filterMap Access.index? ++ [rhe]
  | .underscoreSubstitution _ op rhe => if op = .assignConstraintSignal then indices rhe else []
  | .constraintEquality _ lhe rhe => indices lhe ++ indices rhe
  | _ => []

/-! ## Statements -/

/-- A variable that is found and tagged as given. -/
def Tagged (environment : Environment) (name : String) (t : Tag) : Prop :=
  ∃ isArray, environment.vars.getVariable name = some (t, isArray)

/-- The variables that the statement assigns to and the analysis does not collect. -/
def droppedVariables (stmt : Statement) : List String :=
  (assignedVariables reducesTo stmt).filter (· ∉ collectedVariables reducesTo stmt)

/-- A condition on every round of the analysis of a loop: the environments in which the body is analysed,
with those after it. -/
def EachRound (analyzeBody : Environment → Option ExitInformation) (p : Environment → Environment → Prop) :
    ℕ → Environment → Prop
  | 0, _ => True
  | fuel + 1, environment => ∀ exit, analyzeBody environment = some exit →
    p environment exit.environment ∧
      ((checkModified environment exit.environment exit.modifiedVariables).1 = true →
        EachRound analyzeBody p fuel
          (checkModified environment exit.environment exit.modifiedVariables).2)

mutual

/-- Where the analysis drops something it does not matter: a variable that is not collected already has the
tag that it would be set to, and what is taken for known reads neither unknown parameters nor tags at unknown
indices. Every statement is looked at in the environment in which the analysis visits it. -/
def Propagates (fuel : ℕ) : Statement → Environment → Prop
  | .ifThenElse info cond ifCase elseCase, environment =>
    Trusted reducesTo environment cond ∧ Propagates fuel ifCase environment ∧
      (match elseCase with
        | some elseStmt => Propagates fuel elseStmt environment
        | none => True) ∧
      ∀ left right, (analyze reducesTo fuel ifCase environment).map (·.environment) = some left →
        (match elseCase with
          | some elseStmt => (analyze reducesTo fuel elseStmt environment).map (·.environment)
          | none => some environment) = some right →
        tag reducesTo environment cond = some .unknown →
        ∀ name ∈ droppedVariables reducesTo (.ifThenElse info cond ifCase elseCase),
          ¬ Tagged (left.merge right) name .known
  | .whileStmt _ cond stmt, environment =>
    EachRound (fun environment => analyze reducesTo fuel stmt environment)
      (fun before after => ∀ name ∈ droppedVariables reducesTo stmt, ∀ t,
        Tagged before name t ↔ Tagged after name t) fuel environment ∧
      ∀ entry exit after,
        analyzeLoop (fun environment => analyze reducesTo fuel stmt environment) fuel environment =
          some (entry, exit, after) →
        Propagates fuel stmt entry ∧ Trusted reducesTo after cond ∧
          (tag reducesTo after cond = some .unknown →
            ∀ name ∈ droppedVariables reducesTo stmt, ¬ Tagged after name .known)
  | .block _ stmts, environment =>
    PropagatesAll fuel stmts { environment with vars := environment.vars.addVariableBlock }
  | .initializationBlock _ _ initializations, environment =>
    PropagatesAll fuel initializations environment
  | .declaration info xtype name dimensions isConstant isAnonymous, environment =>
    ∀ exit, analyzeDeclaration reducesTo xtype name dimensions environment = some exit →
      ∀ e ∈ decisive reducesTo (.declaration info xtype name dimensions isConstant isAnonymous),
        Trusted reducesTo exit.environment e
  | stmt, environment => ∀ e ∈ decisive reducesTo stmt, Trusted reducesTo environment e

def PropagatesAll (fuel : ℕ) : List Statement → Environment → Prop
  | [], _ => True
  | stmt :: stmts, environment => Propagates fuel stmt environment ∧
    ∀ exit, analyze reducesTo fuel stmt environment = some exit → PropagatesAll fuel stmts exit.environment

end

end Circom.TypeAnalysis
