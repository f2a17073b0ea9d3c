import Circom.Hir.TypeInference

/-!
# The removal of syntactic sugar

`sugar_cleaner.rs`. The functions return the new node and the statements to be put before it, which the source
collects in `ExtendedSyntax` and in the lists that it appends to. The dimensions that an array has in the memory
knowledge of its node are an argument, since those of the elements are set while the array is extended.
-/

namespace Circom.Hir.SugarCleaner

open Circom.Ast

structure Context where
  mixedComponents : Finset String

structure State where
  freshId : ℕ
  insideMixedComponent : Bool

inductive Failure where
  | panic
  deriving DecidableEq, Repr

abbrev Cleans := StateT State (Except Failure)

def panic {α : Type} : Cleans α := throw .panic

def produceId : Cleans String := do
  let state ← get
  set { state with freshId := state.freshId + 1 }
  pure (toString state.freshId ++ "_auto")

def isCall : Expression → Bool
  | .call .. => true
  | _ => false

def isSwitch : Expression → Bool
  | .inlineSwitchOp .. => true
  | _ => false

def isArray : Expression → Bool
  | .arrayInLine .. => true
  | .uniformArray .. => true
  | _ => false

def isSugar (expr : Expression) : Bool := isCall expr || isSwitch expr || isArray expr

/-- The variable, and the statements that declare and initialize it. -/
def rmvSugar (freshVariable : String) (expr : Expression) : Expression × List Statement :=
  (.var expr.getMeta freshVariable [],
    [.declaration expr.getMeta .var freshVariable [] true false,
      .substitution expr.getMeta freshVariable [] .assignVar expr])

/-- `sugar_filter` of one element. -/
def filterOne (elem : Expression) : Cleans (Expression × List Statement) :=
  if isSugar elem then do
    let id ← produceId
    pure (rmvSugar id elem)
  else pure (elem, [])

def sugarFilter : List Expression → Cleans (List Expression × List Statement)
  | [] => pure ([], [])
  | elem :: elements => do
    let (elem, inits) ← filterOne elem
    let (elements, inits') ← sugarFilter elements
    pure (elem :: elements, inits ++ inits')

/-- The exponent of a power, which must not be the same variable or number as the base. -/
def powerExponent (op : ExpressionInfixOpcode) (info : Meta) (lhe rhe : Expression) : Expression :=
  if op = .pow then
    match rhe, lhe with
    | .var _ name _, .var _ name' _ =>
      if name = name' then .infixOp info (.number info 0) .add rhe else rhe
    | .number _ value, .number _ value' =>
      if value = value' then .infixOp info (.number info 0) .add rhe else rhe
    | _, _ => rhe
  else rhe

section Expressions

-- `get_memory_knowledge().get_concrete_dimensions()`
variable (concreteDimensions : Meta → VCT) (context : Context)

/-- `extend_expression` of the uniform array of zeros with the dimensions. -/
def extendZeros (info : Meta) : List ℕ → Cleans (Expression × List Statement)
  | [] => pure (.number info 0, [])
  | dimension :: dimensions => do
    let (value, inits) ← extendZeros info dimensions
    let (value, inits') ← filterOne value
    let (dimension, inits'') ← filterOne (.number info dimension)
    pure (.uniformArray info value dimension, inits ++ inits' ++ inits'')

/-- As many elements as the dimension says. -/
def padArray (info : Meta) (size : ℕ) (realSize : List ℕ) (values : List Expression) :
    Cleans (List Expression × List Statement) :=
  if values.length < size then do
    let (zeros, inits) ← extendZeros info realSize
    pure (values ++ List.replicate (size - values.length) zeros, inits)
  else pure (values, [])

/-- An access to a mixed component inside an index of another one is moved out. -/
def closeVariable (info : Meta) (name : String) (access : List Access) (inits : List Statement) (inside : Bool) :
    Cleans (Expression × List Statement) := do
  modify fun state => { state with insideMixedComponent := inside }
  if inside ∧ name ∈ context.mixedComponents then do
    let id ← produceId
    let (expr, inits') := rmvSugar id (.var info name access)
    pure (expr, inits ++ inits')
  else pure (.var info name access, inits)

mutual

def extendExpression (dimensions : VCT) : Expression → Cleans (Expression × List Statement)
  | .number info value => pure (.number info value, [])
  | .var info name access => do
    let state ← get
    set { state with insideMixedComponent := state.insideMixedComponent || name ∈ context.mixedComponents }
    let (access, inits) ← extendIndexes access
    closeVariable context info name access inits state.insideMixedComponent
  | .arrayInLine info values =>
    match dimensions with
    | [] => panic
    | size :: realSize => do
      let (values, inits) ← extendElements realSize values
      let (values, inits') ← padArray info size realSize values
      let (values, inits'') ← sugarFilter values
      pure (.arrayInLine info values, inits ++ inits' ++ inits'')
  | .uniformArray info value dimension => do
    let (value, inits) ← extendExpression (concreteDimensions value.getMeta) value
    let (dimension, inits') ← extendExpression (concreteDimensions dimension.getMeta) dimension
    let (value, inits₁) ← filterOne value
    let (dimension, inits₂) ← filterOne dimension
    pure (.uniformArray info value dimension, inits ++ inits' ++ (inits₁ ++ inits₂))
  | .call info id args => do
    let (args, inits) ← extendArgs args
    let (args, inits') ← sugarFilter args
    pure (.call info id args, inits ++ inits')
  | .prefixOp info op rhe => do
    let (rhe, inits) ← extendExpression (concreteDimensions rhe.getMeta) rhe
    let (rhe, inits') ← filterOne rhe
    pure (.prefixOp info op rhe, inits ++ inits')
  | .infixOp info lhe op rhe => do
    let (lhe, inits) ← extendExpression (concreteDimensions lhe.getMeta) lhe
    let (rhe, inits') ← extendExpression (concreteDimensions rhe.getMeta) rhe
    let (exprLhe, inits₁) ← filterOne lhe
    let (exprRhe, inits₂) ← filterOne rhe
    pure (.infixOp info exprLhe op (powerExponent op rhe.getMeta exprLhe exprRhe), inits ++ inits' ++ (inits₁ ++ inits₂))
  | .inlineSwitchOp info cond ifTrue ifFalse => do
    let (ifTrue, inits) ← extendExpression (concreteDimensions ifTrue.getMeta) ifTrue
    let (ifFalse, inits') ← extendExpression (concreteDimensions ifFalse.getMeta) ifFalse
    let (ifTrue, inits₁) ← filterOne ifTrue
    let (ifFalse, inits₂) ← filterOne ifFalse
    pure (.inlineSwitchOp info cond ifTrue ifFalse, inits ++ inits' ++ (inits₁ ++ inits₂))
  | .parallelOp info rhe => do
    let (rhe, inits) ← extendExpression (concreteDimensions rhe.getMeta) rhe
    let (rhe, inits') ← filterOne rhe
    pure (.parallelOp info rhe, inits ++ inits')
  | _ => panic

/-- The indexes of an access, each of which is extended and filtered. -/
def extendIndexes : List Access → Cleans (List Access × List Statement)
  | [] => pure ([], [])
  | .componentAccess name :: access => do
    let (access, inits) ← extendIndexes access
    pure (.componentAccess name :: access, inits)
  | .arrayAccess index :: access => do
    let (index, inits) ← extendExpression (concreteDimensions index.getMeta) index
    let (index, inits') ← filterOne index
    let (access, inits'') ← extendIndexes access
    pure (.arrayAccess index :: access, inits ++ inits' ++ inits'')

/-- The elements of an array, which have the dimensions of the array but the first. -/
def extendElements (realSize : VCT) : List Expression → Cleans (List Expression × List Statement)
  | [] => pure ([], [])
  | value :: values => do
    let (value, inits) ← extendExpression realSize value
    let (values, inits') ← extendElements realSize values
    pure (value :: values, inits ++ inits')

def extendArgs : List Expression → Cleans (List Expression × List Statement)
  | [] => pure ([], [])
  | arg :: args => do
    let (arg, inits) ← extendExpression (concreteDimensions arg.getMeta) arg
    let (args, inits') ← extendArgs args
    pure (arg :: args, inits ++ inits')

end

/-- `extend_expression`, and `sugar_filter` of the result. -/
def extendAndFilter (expr : Expression) : Cleans (Expression × List Statement) := do
  let (expr, inits) ← extendExpression concreteDimensions context (concreteDimensions expr.getMeta) expr
  let (expr, inits') ← filterOne expr
  pure (expr, inits ++ inits')

def extendLogArguments : List LogArgument → Cleans (List LogArgument × List Statement)
  | [] => pure ([], [])
  | .logStr string :: args => do
    let (args, inits) ← extendLogArguments args
    pure (.logStr string :: args, inits)
  | .logExp arg :: args => do
    let (arg, inits) ← extendExpression concreteDimensions context (concreteDimensions arg.getMeta) arg
    let (args, inits') ← extendLogArguments args
    pure (.logExp arg :: args, inits ++ inits')

end Expressions

/-! ## The statements of a block -/

/-- `rhe_switch_case` and `rhe_array_case` of the right-hand side. -/
def intoSingleSubstitution : Statement → Except Failure (List Statement)
  | .substitution info var access op (.inlineSwitchOp _ cond ifTrue ifFalse) =>
    .ok [.ifThenElse info cond (.block info [.substitution info var access op ifTrue])
      (some (.block info [.substitution info var access op ifFalse]))]
  | .substitution info var access op (.arrayInLine _ values) =>
    .ok (values.mapIdx fun index v => .substitution info var (access ++ [.arrayAccess (.number info index)]) op v)
  | .substitution info var access op (.uniformArray _ value dimension) =>
    match castDimension dimension with
    | none => .error .panic
    | some usableDimension =>
      .ok ((List.range usableDimension).map fun (index : ℕ) =>
        .substitution info var (access ++ [.arrayAccess (.number info index)]) op value)
  | stmt => .ok [stmt]

/-- The equalities of the elements, the array first. Nothing is left of one with another kind of expression. -/
def lheArrayCe (info : Meta) : Expression → Expression → Except Failure (List Statement)
  | .arrayInLine _ valuesL, .arrayInLine _ valuesR =>
    if valuesL.length ≤ valuesR.length then .ok (List.zipWith (.constraintEquality info) valuesL valuesR)
    else .error .panic
  | .arrayInLine _ valuesL, .uniformArray _ value _ => .ok (valuesL.map fun v => .constraintEquality info v value)
  | .arrayInLine _ valuesL, .var metaVar name access =>
    .ok (valuesL.mapIdx fun index v =>
      .constraintEquality info v (.var metaVar name (access ++ [.arrayAccess (.number info index)])))
  | .arrayInLine _ _, _ => .ok []
  | _, _ => .error .panic

def intoSingleConstraintEquality : Statement → Except Failure (List Statement)
  | .constraintEquality info lhe rhe =>
    if isArray lhe then lheArrayCe info lhe rhe
    else if isArray rhe then lheArrayCe info rhe lhe
    else .ok [.constraintEquality info lhe rhe]
  | stmt => .ok [stmt]

/-- The statements that each statement is replaced by. -/
def replaceAll (replace : Statement → Except Failure (List Statement)) :
    List Statement → Except Failure (List Statement)
  | [] => .ok []
  | stmt :: stmts => do
    let replacement ← replace stmt
    let stmts ← replaceAll replace stmts
    .ok (replacement ++ stmts)

def mapSubstitutions : List Statement → Except Failure (List Statement) := replaceAll intoSingleSubstitution

def mapConstraintEqualities : List Statement → Except Failure (List Statement) :=
  replaceAll intoSingleConstraintEquality

section Statements

variable (concreteDimensions : Meta → VCT)

/-- The declaration, the substitution and the final return. -/
def splitReturn (info : Meta) (value : Expression) (id : ℕ) : Statement × Statement × Statement :=
  (.declaration info .var (toString id)
      ((concreteDimensions value.getMeta).map fun (length : ℕ) => .number info length) false false,
    .substitution info (toString id) [] .assignVar value, .returnStmt info (.var info (toString id) []))

def mapReturns (freshId : ℕ) : List Statement → Except Failure (List Statement)
  | [] => .ok []
  | .returnStmt info value :: stmts =>
    if isSugar value then do
      let (declaration, substitution, finalReturn) := splitReturn concreteDimensions info value freshId
      let substitutions ← intoSingleSubstitution substitution
      let stmts ← mapReturns (freshId + 1) stmts
      .ok (declaration :: substitutions ++ finalReturn :: stmts)
    else do
      let stmts ← mapReturns freshId stmts
      .ok (.returnStmt info value :: stmts)
  | stmt :: stmts => do
    let stmts ← mapReturns freshId stmts
    .ok (stmt :: stmts)

/-- The three mappings of a block after its statements are extended. -/
def mapBlock (freshId : ℕ) (stmts : List Statement) : Except Failure (List Statement) := do
  let stmts ← mapSubstitutions stmts
  let stmts ← mapConstraintEqualities stmts
  mapReturns concreteDimensions freshId stmts

variable (context : Context)

mutual

/-- The statement, and the statements to be put before it. -/
def extendStatement : Statement → Cleans (Statement × List Statement)
  | .block info stmts => do
    let before ← get
    let stmts ← extendStmts stmts
    let after ← get
    let stmts ← liftM (mapBlock concreteDimensions after.freshId stmts)
    modify fun state => { state with freshId := before.freshId }
    pure (.block info stmts, [])
  | .whileStmt info cond stmt => do
    let (stmt, expands) ← extendStatement stmt
    let (cond, expands') ← extendAndFilter concreteDimensions context cond
    pure (.whileStmt info cond stmt, expands ++ expands')
  | .ifThenElse info cond ifCase none => do
    let (ifCase, expands) ← extendStatement ifCase
    let (cond, expands') ← extendAndFilter concreteDimensions context cond
    pure (.ifThenElse info cond ifCase none, expands ++ expands')
  | .ifThenElse info cond ifCase (some elseCase) => do
    let (ifCase, expands) ← extendStatement ifCase
    let (elseCase, expands') ← extendStatement elseCase
    let (cond, expands'') ← extendAndFilter concreteDimensions context cond
    pure (.ifThenElse info cond ifCase (some elseCase), expands ++ expands' ++ expands'')
  | .substitution info var access op rhe => do
    let (rhe, expands) ← extendExpression concreteDimensions context (concreteDimensions rhe.getMeta) rhe
    let (access, inits) ← extendIndexes concreteDimensions context access
    pure (.substitution info var access op rhe, expands ++ inits)
  | .constraintEquality info lhe rhe => do
    let (lhe, expands) ← extendExpression concreteDimensions context (concreteDimensions lhe.getMeta) lhe
    let (rhe, expands') ← extendExpression concreteDimensions context (concreteDimensions rhe.getMeta) rhe
    pure (.constraintEquality info lhe rhe, expands ++ expands')
  | .declaration info xtype name dimensions isConstant isAnonymous =>
    pure (.declaration info xtype name dimensions isConstant isAnonymous, [])
  | .returnStmt info value => do
    let (value, expands) ← extendExpression concreteDimensions context (concreteDimensions value.getMeta) value
    pure (.returnStmt info value, expands)
  | .logCall info args => do
    let (args, expands) ← extendLogArguments concreteDimensions context args
    pure (.logCall info args, expands)
  | .assert info arg => do
    let (arg, expands) ← extendExpression concreteDimensions context (concreteDimensions arg.getMeta) arg
    pure (.assert info arg, expands)
  | _ => panic

/-- `map_init_blocks` and `map_stmts_with_sugar`. -/
def extendStmts : List Statement → Cleans (List Statement)
  | [] => pure []
  | .initializationBlock _ _ initializations :: stmts => do
    let first ← extendInitializations initializations
    let stmts ← extendStmts stmts
    pure (first ++ stmts)
  | stmt :: stmts => do
    let (stmt, inits) ← extendStatement stmt
    let stmts ← extendStmts stmts
    pure (inits ++ [stmt] ++ stmts)

/-- `map_stmts_with_sugar` of the statements of an initialization block. -/
def extendInitializations : List Statement → Cleans (List Statement)
  | [] => pure []
  | stmt :: stmts => do
    let (stmt, inits) ← extendStatement stmt
    let stmts ← extendInitializations stmts
    pure (inits ++ [stmt] ++ stmts)

end

end Statements

/-! ## The pass -/

structure TemplateInstance where
  code : Statement
  /-- The names of the clusters of type `Mixed`. -/
  mixedComponents : Finset String

structure VCP where
  templates : List TemplateInstance
  /-- The bodies of the functions. -/
  functions : List Statement

variable (concreteDimensions : Meta → VCT)

/-- One body, which must leave no statements behind. -/
def cleanBody (context : Context) (body : Statement) : Cleans Statement := do
  let (body, trash) ← extendStatement concreteDimensions context body
  if trash.isEmpty then pure body else panic

def cleanTemplates : List TemplateInstance → Cleans (List TemplateInstance)
  | [] => pure []
  | template :: templates => do
    let code ← cleanBody concreteDimensions ⟨template.mixedComponents⟩ template.code
    let templates ← cleanTemplates templates
    pure ({ template with code := code } :: templates)

def cleanFunctions : List Statement → Cleans (List Statement)
  | [] => pure []
  | body :: functions => do
    let body ← cleanBody concreteDimensions ⟨∅⟩ body
    let functions ← cleanFunctions functions
    pure (body :: functions)

def cleanSugar (vcp : VCP) : Except Failure VCP := do
  let (vcp, _) ← (do
    let templates ← cleanTemplates concreteDimensions vcp.templates
    let functions ← cleanFunctions concreteDimensions vcp.functions
    pure ⟨templates, functions⟩ : Cleans VCP).run ⟨0, false⟩
  .ok vcp

end Circom.Hir.SugarCleaner
