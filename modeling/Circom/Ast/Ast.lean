import Mathlib.Data.Int.Notation
import Mathlib.Data.Nat.Notation

/-!
# The abstract syntax tree

Expressions and statements of `program_structure::ast`. `Expression.var` is the source's `Variable`;
the statements named after a keyword have a `Stmt` behind it. Of the `Meta` of a node the model keeps
its identifier, where it starts and in which file.
-/

namespace Circom.Ast

structure Meta where
  elemId : ℕ
  start : ℕ
  fileId : Option ℕ
  deriving DecidableEq, Repr

inductive SignalType where
  | output
  | input
  | intermediate
  deriving DecidableEq, Repr

inductive VariableType where
  | var
  | signal (type : SignalType) (tags : List String)
  | component
  | anonymousComponent
  | bus (name : String) (type : SignalType) (tags : List String)
  deriving DecidableEq, Repr

inductive AssignOp where
  | assignVar
  | assignSignal
  | assignConstraintSignal
  deriving DecidableEq, Repr

inductive ExpressionInfixOpcode where
  | mul
  | div
  | add
  | sub
  | pow
  | intDiv
  | mod
  | shiftL
  | shiftR
  | lesserEq
  | greaterEq
  | lesser
  | greater
  | eq
  | notEq
  | boolOr
  | boolAnd
  | bitOr
  | bitAnd
  | bitXor
  deriving DecidableEq, Repr

inductive ExpressionPrefixOpcode where
  | sub
  | boolNot
  | complement
  deriving DecidableEq, Repr

mutual

inductive Expression where
  | infixOp (info : Meta) (lhe : Expression) (infixOp : ExpressionInfixOpcode) (rhe : Expression)
  | prefixOp (info : Meta) (prefixOp : ExpressionPrefixOpcode) (rhe : Expression)
  | inlineSwitchOp (info : Meta) (cond ifTrue ifFalse : Expression)
  | parallelOp (info : Meta) (rhe : Expression)
  | var (info : Meta) (name : String) (access : List Access)
  | number (info : Meta) (value : ℤ)
  | call (info : Meta) (id : String) (args : List Expression)
  | busCall (info : Meta) (id : String) (args : List Expression)
  | anonymousComp (info : Meta) (id : String) (isParallel : Bool)
      (params signals : List Expression) (names : Option (List (AssignOp × String)))
  | arrayInLine (info : Meta) (values : List Expression)
  | tuple (info : Meta) (values : List Expression)
  | uniformArray (info : Meta) (value dimension : Expression)

inductive Access where
  | componentAccess (name : String)
  | arrayAccess (index : Expression)

end

inductive LogArgument where
  | logStr (string : String)
  | logExp (exp : Expression)

inductive Statement where
  | ifThenElse (info : Meta) (cond : Expression) (ifCase : Statement) (elseCase : Option Statement)
  | whileStmt (info : Meta) (cond : Expression) (stmt : Statement)
  | returnStmt (info : Meta) (value : Expression)
  | initializationBlock (info : Meta) (xtype : VariableType) (initializations : List Statement)
  | declaration (info : Meta) (xtype : VariableType) (name : String) (dimensions : List Expression)
      (isConstant isAnonymous : Bool)
  | substitution (info : Meta) (var : String) (access : List Access) (op : AssignOp)
      (rhe : Expression)
  | multSubstitution (info : Meta) (lhe : Expression) (op : AssignOp) (rhe : Expression)
  | underscoreSubstitution (info : Meta) (op : AssignOp) (rhe : Expression)
  | constraintEquality (info : Meta) (lhe rhe : Expression)
  | logCall (info : Meta) (args : List LogArgument)
  | block (info : Meta) (stmts : List Statement)
  | assert (info : Meta) (arg : Expression)

def Expression.getMeta : Expression → Meta
  | .infixOp info .. => info
  | .prefixOp info .. => info
  | .inlineSwitchOp info .. => info
  | .parallelOp info .. => info
  | .var info .. => info
  | .number info .. => info
  | .call info .. => info
  | .busCall info .. => info
  | .anonymousComp info .. => info
  | .arrayInLine info .. => info
  | .tuple info .. => info
  | .uniformArray info .. => info

def Statement.getMeta : Statement → Meta
  | .ifThenElse info .. => info
  | .whileStmt info .. => info
  | .returnStmt info .. => info
  | .initializationBlock info .. => info
  | .declaration info .. => info
  | .substitution info .. => info
  | .multSubstitution info .. => info
  | .underscoreSubstitution info .. => info
  | .constraintEquality info .. => info
  | .logCall info .. => info
  | .block info .. => info
  | .assert info .. => info

end Circom.Ast
