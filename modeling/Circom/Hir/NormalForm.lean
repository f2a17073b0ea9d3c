import Circom.Hir.SugarCleaner

/-!
# The normal form of code generation

What the removal of syntactic sugar is for: no initialization block, and no call, inline switch or array but a call
that stands alone as the right-hand side of a substitution. Then the statements that the passes before produce, and what they
have to look like for their normal form.
-/

namespace Circom.Hir.SugarCleaner

open Circom.Ast

/-! ## The normal form -/

mutual

/-- The expression consists of numbers, variables and operators: no call, inline switch or array occurs in it, nor
what the earlier passes removed. -/
def Plain : Expression → Prop
  | .infixOp _ lhe _ rhe => Plain lhe ∧ Plain rhe
  | .prefixOp _ _ rhe => Plain rhe
  | .var _ _ access => PlainAccess access
  | .number .. => True
  | _ => False

def PlainAccess : List Access → Prop
  | [] => True
  | .componentAccess _ :: access => PlainAccess access
  | .arrayAccess index :: access => Plain index ∧ PlainAccess access

end

def PlainAll : List Expression → Prop
  | [] => True
  | expr :: exprs => Plain expr ∧ PlainAll exprs

/-- A call may stand alone as the right-hand side of a substitution. -/
def NormalRhs : Expression → Prop
  | .call _ _ args => PlainAll args
  | expr => Plain expr

def PlainLog : List LogArgument → Prop
  | [] => True
  | .logStr _ :: args => PlainLog args
  | .logExp arg :: args => Plain arg ∧ PlainLog args

mutual

def Normal : Statement → Prop
  | .ifThenElse _ cond ifCase none => Plain cond ∧ Normal ifCase
  | .ifThenElse _ cond ifCase (some elseCase) => Plain cond ∧ Normal ifCase ∧ Normal elseCase
  | .whileStmt _ cond stmt => Plain cond ∧ Normal stmt
  | .returnStmt _ value => Plain value
  | .declaration _ _ _ dimensions _ _ => PlainAll dimensions
  | .substitution _ _ access _ rhe => PlainAccess access ∧ NormalRhs rhe
  | .constraintEquality _ lhe rhe => Plain lhe ∧ Plain rhe
  | .logCall _ args => PlainLog args
  | .block _ stmts => NormalAll stmts
  | .assert _ arg => Plain arg
  | _ => False

def NormalAll : List Statement → Prop
  | [] => True
  | stmt :: stmts => Normal stmt ∧ NormalAll stmts

end

/-! ## What the translation can take -/

mutual

/-- `translate_expression` reaches no `unreachable!`. -/
def ExpressionTranslates : Expression → Prop
  | .infixOp _ lhe _ rhe => ExpressionTranslates lhe ∧ ExpressionTranslates rhe
  | .prefixOp _ _ rhe => ExpressionTranslates rhe
  | .var _ _ access => AccessTranslates access
  | .number .. => True
  | .call _ _ args => ExpressionsTranslate args
  | _ => False

def AccessTranslates : List Access → Prop
  | [] => True
  | .componentAccess _ :: access => AccessTranslates access
  | .arrayAccess index :: access => ExpressionTranslates index ∧ AccessTranslates access

def ExpressionsTranslate : List Expression → Prop
  | [] => True
  | expr :: exprs => ExpressionTranslates expr ∧ ExpressionsTranslate exprs

end

/-- `get_expression_size` reaches no `unreachable!`. -/
def SizeTranslates : Expression → Prop
  | .infixOp .. => True
  | .prefixOp .. => True
  | .var _ _ access => AccessTranslates access
  | .number .. => True
  | _ => False

def LogTranslates : List LogArgument → Prop
  | [] => True
  | .logStr _ :: args => LogTranslates args
  | .logExp arg :: args => ExpressionTranslates arg ∧ LogTranslates args

/-- `translate_call_case` and `translate_standard_case`. -/
def RhsTranslates : Expression → Prop
  | .call _ _ args => ExpressionsTranslate args
  | rhe => SizeTranslates rhe ∧ ExpressionTranslates rhe

mutual

/-- `translate_statement` reaches no `unreachable!`. -/
def Translates : Statement → Prop
  | .declaration .. => True
  | .substitution _ _ access _ rhe => AccessTranslates access ∧ RhsTranslates rhe
  | .block _ stmts => AllTranslate stmts
  | .ifThenElse _ cond ifCase none => ExpressionTranslates cond ∧ Translates ifCase
  | .ifThenElse _ cond ifCase (some elseCase) =>
    ExpressionTranslates cond ∧ Translates ifCase ∧ Translates elseCase
  | .whileStmt _ cond stmt => ExpressionTranslates cond ∧ Translates stmt
  | .assert _ arg => ExpressionTranslates arg
  | .constraintEquality _ lhe rhe => ExpressionTranslates lhe ∧ ExpressionTranslates rhe
  | .returnStmt _ value => SizeTranslates value ∧ ExpressionTranslates value
  | .logCall _ args => LogTranslates args
  | _ => False

def AllTranslate : List Statement → Prop
  | [] => True
  | stmt :: stmts => Translates stmt ∧ AllTranslate stmts

end

/-! ## What the earlier passes produce -/

section

variable (concreteDimensions : Meta → VCT)

mutual

/-- The expression is one of those of the grammar, without component creations, buses, anonymous components and
tuples, which were removed; an array has at least the elements that it lists, which have the other dimensions. A
dimension is a `usize`. -/
def ProducedExpression (dimensions : VCT) : Expression → Prop
  | .number .. => True
  | .var _ _ access => ProducedAccess access
  | .arrayInLine _ values =>
    match dimensions with
    | [] => False
    | size :: realSize =>
      values.length ≤ size ∧ (∀ dimension ∈ realSize, dimension < 2 ^ 64) ∧ ProducedElements realSize values
  | .uniformArray _ value dimension =>
    ProducedExpression (concreteDimensions value.getMeta) value ∧ (castDimension dimension).isSome
  | .call _ _ args => ProducedArgs args
  | .prefixOp _ _ rhe => ProducedExpression (concreteDimensions rhe.getMeta) rhe
  | .infixOp _ lhe _ rhe =>
    ProducedExpression (concreteDimensions lhe.getMeta) lhe ∧ ProducedExpression (concreteDimensions rhe.getMeta) rhe
  | .inlineSwitchOp _ _ ifTrue ifFalse =>
    ProducedExpression (concreteDimensions ifTrue.getMeta) ifTrue ∧
      ProducedExpression (concreteDimensions ifFalse.getMeta) ifFalse
  | _ => False

def ProducedAccess : List Access → Prop
  | [] => True
  | .componentAccess _ :: access => ProducedAccess access
  | .arrayAccess index :: access => ProducedExpression (concreteDimensions index.getMeta) index ∧ ProducedAccess access

def ProducedElements (realSize : VCT) : List Expression → Prop
  | [] => True
  | value :: values => ProducedExpression realSize value ∧ ProducedElements realSize values

def ProducedArgs : List Expression → Prop
  | [] => True
  | arg :: args => ProducedExpression (concreteDimensions arg.getMeta) arg ∧ ProducedArgs args

end

/-- The expression with the dimensions of its own node. -/
def Produced (expr : Expression) : Prop := ProducedExpression concreteDimensions (concreteDimensions expr.getMeta) expr

def ProducedLog : List LogArgument → Prop
  | [] => True
  | .logStr _ :: args => ProducedLog args
  | .logExp arg :: args => Produced concreteDimensions arg ∧ ProducedLog args

/-- The sides of an equality: uniform arrays are made for declarations only, and two arrays have the same dimensions. -/
def ProducedSides : Expression → Expression → Prop
  | .uniformArray .., _ => False
  | _, .uniformArray .. => False
  | .arrayInLine info _, .arrayInLine info' _ => concreteDimensions info = concreteDimensions info'
  | _, _ => True

mutual

/-- The statement stands in a block or in a branch or loop. An initialization block stands in a block. -/
def ProducedStatement : Statement → Prop
  | .ifThenElse _ cond ifCase none => Produced concreteDimensions cond ∧ ProducedStatement ifCase
  | .ifThenElse _ cond ifCase (some elseCase) =>
    Produced concreteDimensions cond ∧ ProducedStatement ifCase ∧ ProducedStatement elseCase
  | .whileStmt _ cond stmt => Produced concreteDimensions cond ∧ ProducedStatement stmt
  | .returnStmt _ value => Produced concreteDimensions value
  | .declaration .. => True
  | .substitution _ _ access _ rhe => ProducedAccess concreteDimensions access ∧ Produced concreteDimensions rhe
  | .constraintEquality _ lhe rhe =>
    Produced concreteDimensions lhe ∧ Produced concreteDimensions rhe ∧ ProducedSides concreteDimensions lhe rhe
  | .logCall _ args => ProducedLog concreteDimensions args
  | .block _ stmts => ProducedBlock stmts
  | .assert _ arg => Produced concreteDimensions arg
  | _ => False

def ProducedBlock : List Statement → Prop
  | [] => True
  | .initializationBlock _ _ initializations :: stmts =>
    ProducedInitializations initializations ∧ ProducedBlock stmts
  | stmt :: stmts => ProducedStatement stmt ∧ ProducedBlock stmts

def ProducedInitializations : List Statement → Prop
  | [] => True
  | stmt :: stmts => ProducedStatement stmt ∧ ProducedInitializations stmts

end

/-- The bodies are blocks. -/
def ProducedBody : Statement → Prop
  | .block _ stmts => ProducedBlock concreteDimensions stmts
  | _ => False

end

/-! ## What is extracted -/

/-- The condition of an inline switch is plain. -/
def PlainCondition : Expression → Prop
  | .inlineSwitchOp _ cond _ _ => Plain cond
  | _ => True

mutual

/-- The conditions of the inline switches inside the expression are plain. -/
def PlainInside : Expression → Prop
  | .number .. => True
  | .var _ _ access => PlainInsideAccess access
  | .arrayInLine _ values => PlainInsideAll values
  | .uniformArray _ value _ => PlainCondition value ∧ PlainInside value
  | .call _ _ args => PlainInsideAll args
  | .prefixOp _ _ rhe => PlainCondition rhe ∧ PlainInside rhe
  | .infixOp _ lhe _ rhe => (PlainCondition lhe ∧ PlainInside lhe) ∧ PlainCondition rhe ∧ PlainInside rhe
  | .inlineSwitchOp _ _ ifTrue ifFalse =>
    (PlainCondition ifTrue ∧ PlainInside ifTrue) ∧ PlainCondition ifFalse ∧ PlainInside ifFalse
  | _ => True

def PlainInsideAccess : List Access → Prop
  | [] => True
  | .componentAccess _ :: access => PlainInsideAccess access
  | .arrayAccess index :: access => (PlainCondition index ∧ PlainInside index) ∧ PlainInsideAccess access

def PlainInsideAll : List Expression → Prop
  | [] => True
  | expr :: exprs => (PlainCondition expr ∧ PlainInside expr) ∧ PlainInsideAll exprs

end

/-- The conditions of all inline switches of the expression are plain. -/
def PlainConditions (expr : Expression) : Prop := PlainCondition expr ∧ PlainInside expr

def NotSugar (expr : Expression) : Prop := isSugar expr = false

def ExtractableLog : List LogArgument → Prop
  | [] => True
  | .logStr _ :: args => ExtractableLog args
  | .logExp arg :: args => (NotSugar arg ∧ PlainInside arg) ∧ ExtractableLog args

mutual

/-- The sugar of the statement is where it is extracted. The conditions of inline switches are not looked at, nor are
the arguments of logs and assertions and the sides of equalities themselves; substitutions and returns of sugar are
mapped directly in a block only. -/
def Extractable (inBlock : Bool) : Statement → Prop
  | .ifThenElse _ cond ifCase none => PlainConditions cond ∧ Extractable false ifCase
  | .ifThenElse _ cond ifCase (some elseCase) =>
    PlainConditions cond ∧ Extractable false ifCase ∧ Extractable false elseCase
  | .whileStmt _ cond stmt => PlainConditions cond ∧ Extractable false stmt
  | .returnStmt _ value => (if inBlock then PlainCondition value else NotSugar value) ∧ PlainInside value
  | .declaration _ _ _ dimensions _ _ => PlainAll dimensions
  | .substitution _ _ access _ rhe =>
    PlainInsideAccess access ∧
      (if inBlock then PlainCondition rhe else isSwitch rhe = false ∧ isArray rhe = false) ∧ PlainInside rhe
  | .constraintEquality _ lhe rhe =>
    (inBlock ∧ (isArray lhe ∨ isArray rhe) ∨ NotSugar lhe ∧ NotSugar rhe) ∧ PlainInside lhe ∧ PlainInside rhe
  | .logCall _ args => ExtractableLog args
  | .block _ stmts => ExtractableBlock stmts
  | .assert _ arg => NotSugar arg ∧ PlainInside arg
  | _ => False

def ExtractableBlock : List Statement → Prop
  | [] => True
  | .initializationBlock _ _ initializations :: stmts =>
    ExtractableInitializations initializations ∧ ExtractableBlock stmts
  | stmt :: stmts => Extractable true stmt ∧ ExtractableBlock stmts

def ExtractableInitializations : List Statement → Prop
  | [] => True
  | stmt :: stmts => Extractable true stmt ∧ ExtractableInitializations stmts

end

/-! ## Whole programs -/

def VCP.bodies (vcp : VCP) : List Statement := vcp.templates.map TemplateInstance.code ++ vcp.functions

end Circom.Hir.SugarCleaner
