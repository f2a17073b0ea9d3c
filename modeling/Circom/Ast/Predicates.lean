import Circom.Ast.Ast
import Circom.Lib.Subterm

/-!
# Questions about a syntax tree

The `is_` and `contains_` predicates of expressions and statements, and what occurs in a tree at any
depth: the children of a node are its direct subexpressions or substatements.
-/

namespace Circom.Ast

open Circom.Lib (Occurs)

/-- The index expression of an array access. -/
def Access.index? : Access → Option Expression
  | .componentAccess _ => none
  | .arrayAccess index => some index

def Expression.children : Expression → List Expression
  | .infixOp _ lhe _ rhe => [lhe, rhe]
  | .prefixOp _ _ rhe => [rhe]
  | .inlineSwitchOp _ cond ifTrue ifFalse => [cond, ifTrue, ifFalse]
  | .parallelOp _ rhe => [rhe]
  | .var _ _ access => access.filterMap Access.index?
  | .number _ _ => []
  | .call _ _ args => args
  | .busCall _ _ args => args
  | .anonymousComp _ _ _ params signals _ => params ++ signals
  | .arrayInLine _ values => values
  | .tuple _ values => values
  | .uniformArray _ value dimension => [value, dimension]

def Statement.children : Statement → List Statement
  | .ifThenElse _ _ ifCase elseCase => ifCase :: elseCase.toList
  | .whileStmt _ _ stmt => [stmt]
  | .initializationBlock _ _ initializations => initializations
  | .block _ stmts => stmts
  | _ => []

def LogArgument.exp? : LogArgument → Option Expression
  | .logStr _ => none
  | .logExp exp => some exp

/-- The expressions of a statement itself, without those of its substatements. -/
def Statement.expressions : Statement → List Expression
  | .ifThenElse _ cond _ _ => [cond]
  | .whileStmt _ cond _ => [cond]
  | .returnStmt _ value => [value]
  | .initializationBlock .. => []
  | .declaration _ _ _ dimensions _ _ => dimensions
  | .substitution _ _ access _ rhe => access.filterMap Access.index? ++ [rhe]
  | .multSubstitution _ lhe _ rhe => [lhe, rhe]
  | .underscoreSubstitution _ _ rhe => [rhe]
  | .constraintEquality _ lhe rhe => [lhe, rhe]
  | .logCall _ args => args.filterMap LogArgument.exp?
  | .block .. => []
  | .assert _ arg => [arg]

/-- The right side of an assignment. -/
def Statement.rhe? : Statement → Option Expression
  | .substitution _ _ _ _ rhe => some rhe
  | .multSubstitution _ _ _ rhe => some rhe
  | .underscoreSubstitution _ _ rhe => some rhe
  | _ => none

/-- The other expressions of a statement. -/
def Statement.others : Statement → List Expression
  | .substitution _ _ access _ _ => access.filterMap Access.index?
  | .multSubstitution _ lhe _ _ => [lhe]
  | .underscoreSubstitution .. => []
  | stmt => stmt.expressions

namespace Expression

def isTuple : Expression → Bool
  | .tuple .. => true
  | _ => false

def isVariable : Expression → Bool
  | .var .. => true
  | _ => false

def isCall : Expression → Bool
  | .call .. => true
  | _ => false

def isAnonymousComp : Expression → Bool
  | .anonymousComp .. => true
  | _ => false

def info : Expression → Meta
  | .infixOp info .. => info
  | .prefixOp info .. => info
  | .inlineSwitchOp info .. => info
  | .parallelOp info .. => info
  | .var info .. => info
  | .number info .. => info
  | .call info .. => info
  | .busCall info .. => info
  | .anonymousComp info .. => info
  | .arrayInLine info .. => info
  | .tuple info .. => info
  | .uniformArray info .. => info

mutual

def containsAnonymousComp : Expression → Bool
  | .infixOp _ lhe _ rhe => lhe.containsAnonymousComp || rhe.containsAnonymousComp
  | .uniformArray _ value dimension =>
    value.containsAnonymousComp || dimension.containsAnonymousComp
  | .prefixOp _ _ rhe => rhe.containsAnonymousComp
  | .inlineSwitchOp _ cond ifTrue ifFalse =>
    cond.containsAnonymousComp || ifTrue.containsAnonymousComp || ifFalse.containsAnonymousComp
  | .busCall _ _ args => anyContainsAnonymousComp args
  | .call _ _ args => anyContainsAnonymousComp args
  | .tuple _ values => anyContainsAnonymousComp values
  | .arrayInLine _ values => anyContainsAnonymousComp values
  | .anonymousComp .. => true
  | .var _ _ access => accessContainsAnonymousComp access
  | .number .. => false
  | .parallelOp _ rhe => rhe.containsAnonymousComp

def anyContainsAnonymousComp : List Expression → Bool
  | [] => false
  | arg :: args => arg.containsAnonymousComp || anyContainsAnonymousComp args

def accessContainsAnonymousComp : List Access → Bool
  | [] => false
  | .componentAccess _ :: access => accessContainsAnonymousComp access
  | .arrayAccess index :: access =>
    index.containsAnonymousComp || accessContainsAnonymousComp access

end

mutual

def containsTuple : Expression → Bool
  | .infixOp _ lhe _ rhe => lhe.containsTuple || rhe.containsTuple
  | .uniformArray _ value dimension => value.containsTuple || dimension.containsTuple
  | .prefixOp _ _ rhe => rhe.containsTuple
  | .inlineSwitchOp _ cond ifTrue ifFalse =>
    cond.containsTuple || ifTrue.containsTuple || ifFalse.containsTuple
  | .busCall _ _ args => anyContainsTuple args
  | .call _ _ args => anyContainsTuple args
  | .arrayInLine _ values => anyContainsTuple values
  | .anonymousComp _ _ _ params signals _ => anyContainsTuple params || anyContainsTuple signals
  | .var _ _ access => accessContainsTuple access
  | .number .. => false
  | .tuple .. => true
  | .parallelOp _ rhe => rhe.containsTuple

def anyContainsTuple : List Expression → Bool
  | [] => false
  | arg :: args => arg.containsTuple || anyContainsTuple args

def accessContainsTuple : List Access → Bool
  | [] => false
  | .componentAccess _ :: access => accessContainsTuple access
  | .arrayAccess index :: access => index.containsTuple || accessContainsTuple access

end

end Expression

namespace Statement

def info : Statement → Meta
  | .ifThenElse info .. => info
  | .whileStmt info .. => info
  | .returnStmt info .. => info
  | .initializationBlock info .. => info
  | .declaration info .. => info
  | .substitution info .. => info
  | .multSubstitution info .. => info
  | .underscoreSubstitution info .. => info
  | .constraintEquality info .. => info
  | .logCall info .. => info
  | .block info .. => info
  | .assert info .. => info

def isBlock : Statement → Bool
  | .block .. => true
  | _ => false

def isDeclaration : Statement → Bool
  | .declaration .. => true
  | _ => false

def isMultSubstitution : Statement → Bool
  | .multSubstitution .. => true
  | _ => false

def isUnderscoreSubstitution : Statement → Bool
  | .underscoreSubstitution .. => true
  | _ => false

mutual

def containsAnonymousComp : Statement → Bool
  | .ifThenElse _ cond ifCase elseCase =>
    match elseCase with
    | none => cond.containsAnonymousComp || ifCase.containsAnonymousComp
    | some elseCase =>
      cond.containsAnonymousComp || ifCase.containsAnonymousComp || elseCase.containsAnonymousComp
  | .whileStmt _ cond stmt => cond.containsAnonymousComp || stmt.containsAnonymousComp
  | .returnStmt _ value => value.containsAnonymousComp
  | .initializationBlock _ _ initializations => anyContainsAnonymousComp initializations
  | .declaration _ _ _ dimensions _ _ => dimensions.any Expression.containsAnonymousComp
  | .substitution _ _ access _ rhe =>
    (access.filterMap Access.index?).any Expression.containsAnonymousComp ||
      rhe.containsAnonymousComp
  | .multSubstitution _ lhe _ rhe => lhe.containsAnonymousComp || rhe.containsAnonymousComp
  | .constraintEquality _ lhe rhe => lhe.containsAnonymousComp || rhe.containsAnonymousComp
  | .logCall _ args => (args.filterMap LogArgument.exp?).any Expression.containsAnonymousComp
  | .block _ stmts => anyContainsAnonymousComp stmts
  | .assert _ arg => arg.containsAnonymousComp
  | .underscoreSubstitution _ _ rhe => rhe.containsAnonymousComp

def anyContainsAnonymousComp : List Statement → Bool
  | [] => false
  | stmt :: stmts => stmt.containsAnonymousComp || anyContainsAnonymousComp stmts

end

/-- The statement occurs in the tree at any depth. -/
abbrev OccursIn (t s : Statement) : Prop := Occurs Statement.children t s

end Statement

/-- The expression occurs in the tree at any depth. -/
abbrev Expression.OccursIn (x e : Expression) : Prop := Occurs Expression.children x e

/-- No anonymous component and no tuple, at any depth. -/
def Expression.SugarFree (e : Expression) : Prop :=
  ∀ x, Expression.OccursIn x e → x.isAnonymousComp = false ∧ x.isTuple = false

/-- No anonymous component, no tuple and no assignment of a tuple, in any substatement. -/
def Statement.SugarFree (s : Statement) : Prop :=
  ∀ t, Statement.OccursIn t s →
    t.isMultSubstitution = false ∧ ∀ e ∈ t.expressions, e.SugarFree

end Circom.Ast
