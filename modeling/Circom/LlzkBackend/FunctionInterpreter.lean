import Circom.Ast.Execution
import Circom.LlzkBackend.TemplateRecursion
import Circom.ProgramStructure.Environment

/-!
# A reference interpreter of functions

Expressions and the statements of function bodies: scopes are nested, the shape of a variable stays as it was
declared, and an assignment of an array to an array copies the cells that both have. The operators are a
parameter, as is what a variable holds before its first assignment.
-/

namespace Circom.LlzkBackend

open Circom.Algebra.ModularArithmetic (asBool modulus)
open Circom.Ast
open Circom.Lib (HashMap)
open Circom.ProgramStructure (Variables)

namespace ConstantValue

/-- An array with the given dimensions and the same scalar in all its cells. -/
def uniform (cell : ℕ) (dimensions : List ℕ) : ConstantValue :=
  dimensions.foldr (fun length value => .array (List.replicate length value)) (.scalar cell)

mutual

/-- An array keeps its length: the cells beyond the new value are not modified, the cells of the new value
beyond the array are not assigned. -/
def overwrite : ConstantValue → ConstantValue → ConstantValue
  | .array old, .array new => .array (overwriteAll old new)
  | .array old, .scalar _ => .array old
  | .scalar _, new => new

def overwriteAll : List ConstantValue → List ConstantValue → List ConstantValue
  | old :: olds, new :: news => old.overwrite new :: overwriteAll olds news
  | olds, _ => olds

end

end ConstantValue

/-- Why a run stops before its end. -/
inductive Stop where
  | shift
  | zeroDivisor
  | assertion
  | undeclared
  | outOfBounds
  | type
  | fuel
  deriving DecidableEq, Repr

structure Operators where
  number : ℤ → ℕ
  infixOp : ExpressionInfixOpcode → ℕ → ℕ → Except Stop ℕ
  prefixOp : ExpressionPrefixOpcode → ℕ → ℕ
  truth : ℕ → Bool
  uninitialized : ℕ

/-- The operators of `modular_arithmetic`. A shift stops where its count does not fit into a machine word. -/
def modularArithmetic (prime : ℕ) (uninitialized : ℤ) : Operators where
  number n := (modulus n prime).toNat
  infixOp op left right :=
    match op.value left right prime with
    | some value => .ok value.toNat
    | none => .error (if op.isDivision then .zeroDivisor else .shift)
  prefixOp op right := (op.value right prime).toNat
  truth n := asBool n prime
  uninitialized := (modulus uninitialized prime).toNat

/-- The innermost scope first. -/
abbrev Scoped := Variables ConstantValue

/-- What is known is what the scopes show. -/
def Scoped.AgreesWith (env : Scoped) (constants : Constants) : Prop :=
  ∀ name value, constants.lookup name = some value → env.getVariable name = some value

namespace Interpreter

def orStop {α : Type} (stop : Stop) : Option α → Except Stop α
  | some a => .ok a
  | none => .error stop

section Steps

variable (ops : Operators) (eval : Expression → Scoped → Except Stop ConstantValue)
  (exec : Statement → Scoped → Except Stop (Flow × Scoped))

def scalar (expr : Expression) (env : Scoped) : Except Stop ℕ := do
  let value ← eval expr env
  orStop .type value.intoScalar

def scalars (env : Scoped) : List Expression → Except Stop (List ℕ)
  | [] => .ok []
  | expr :: exprs => do
    let n ← scalar eval expr env
    let ns ← scalars env exprs
    .ok (n :: ns)

def accessIndices (env : Scoped) : List Access → Except Stop (List ℕ)
  | [] => .ok []
  | .componentAccess _ :: _ => .error .type
  | .arrayAccess index :: access => do
    let index ← scalar eval index env
    let indices ← accessIndices env access
    .ok (index :: indices)

def arrayElements (env : Scoped) :
    List ConstantValue → List Expression → Except Stop (List ConstantValue)
  | elements, [] => .ok elements
  | elements, expr :: exprs => do
    let value ← eval expr env
    if elements.head?.all fun first => first.sameShape value then
      arrayElements env (elements ++ [value]) exprs
    else .error .type

def assign (var : String) (access : List Access) (expr : Expression) (env : Scoped) :
    Except Stop Scoped := do
  let value ← eval expr env
  let indices ← accessIndices eval env access
  let old ← orStop .undeclared (env.getVariable var)
  let new ← orStop .outOfBounds (old.modify (fun old => some (old.overwrite value)) indices)
  .ok (env.setVariable var new)

def inScope (stmt : Statement) (env : Scoped) : Except Stop (Flow × Scoped) := do
  let (flow, env) ← exec stmt env.addVariableBlock
  .ok (flow, env.removeVariableBlock)

def sequence : List Statement → Scoped → Except Stop (Flow × Scoped)
  | [], env => .ok (.continued, env)
  | stmt :: stmts, env => do
    let (flow, env) ← exec stmt env
    match flow with
    | .continued => sequence stmts env
    | .returned value => .ok (.returned value, env)

def whileLoop (cond : Expression) (stmt : Statement) : ℕ → Scoped → Except Stop (Flow × Scoped)
  | 0, _ => .error .fuel
  | fuel + 1, env => do
    let condition ← scalar eval cond env
    if ops.truth condition then do
      let (flow, env) ← inScope exec stmt env
      match flow with
      | .continued => whileLoop cond stmt fuel env
      | .returned value => .ok (.returned value, env)
    else .ok (.continued, env)

end Steps

def logged? : LogArgument → Option Expression
  | .logStr _ => none
  | .logExp exp => some exp

variable (ops : Operators) (functions : FunctionInfo)

mutual

def eval : ℕ → Expression → Scoped → Except Stop ConstantValue
  | 0, _, _ => .error .fuel
  | fuel + 1, expr, env =>
    match expr with
    | .number _ value => .ok (.scalar (ops.number value))
    | .var _ name access => do
      let indices ← accessIndices (eval fuel) env access
      let value ← orStop .undeclared (env.getVariable name)
      orStop .outOfBounds (indices.foldlM ConstantValue.element value)
    | .arrayInLine _ values => do
      let elements ← arrayElements (eval fuel) env [] values
      .ok (.array elements)
    | .uniformArray _ value dimension => do
      let length ← scalar (eval fuel) dimension env
      let element ← eval fuel value env
      .ok (.array (List.replicate length element))
    | .infixOp _ lhe op rhe => do
      let left ← scalar (eval fuel) lhe env
      let right ← scalar (eval fuel) rhe env
      let value ← ops.infixOp op left right
      .ok (.scalar value)
    | .prefixOp _ op rhe => do
      let right ← scalar (eval fuel) rhe env
      .ok (.scalar (ops.prefixOp op right))
    | .inlineSwitchOp _ cond ifTrue ifFalse => do
      let condition ← scalar (eval fuel) cond env
      eval fuel (if ops.truth condition then ifTrue else ifFalse) env
    | .call _ id args => do
      let function ← orStop .undeclared (functions.lookup id)
      if args.length ≠ function.numOfParams then .error .type
      else do
        let parameters ← (function.nameOfParams.zip args).foldlM
          (fun (parameters : HashMap String ConstantValue) e => do
            let value ← eval fuel e.2 env
            .ok (parameters.insert e.1 value)) ∅
        let (flow, _) ← inScope (exec fuel) function.body [parameters]
        match flow with
        | .returned value => .ok value
        | .continued => .error .type
    | _ => .error .type

/-- The statements that only templates have stop with a type error. -/
def exec : ℕ → Statement → Scoped → Except Stop (Flow × Scoped)
  | 0, _, _ => .error .fuel
  | fuel + 1, stmt, env =>
    match stmt with
    | .block _ stmts => do
      let (flow, env) ← sequence (exec fuel) stmts env.addVariableBlock
      .ok (flow, env.removeVariableBlock)
    | .initializationBlock _ _ inits => sequence (exec fuel) inits env
    | .declaration _ .var name dimensions _ _ => do
      let lengths ← scalars (eval fuel) env dimensions
      .ok (.continued, env.addVariable name (ConstantValue.uniform ops.uninitialized lengths))
    | .substitution _ var access .assignVar rhe => do
      let env ← assign (eval fuel) var access rhe env
      .ok (.continued, env)
    | .ifThenElse _ cond ifCase elseCase => do
      let condition ← scalar (eval fuel) cond env
      if ops.truth condition then inScope (exec fuel) ifCase env
      else match elseCase with
        | some stmt => inScope (exec fuel) stmt env
        | none => .ok (.continued, env)
    | .whileStmt _ cond stmt => whileLoop ops (eval fuel) (exec fuel) cond stmt fuel env
    | .returnStmt _ value => do
      let value ← eval fuel value env
      .ok (.returned value, env)
    | .assert _ arg => do
      let value ← scalar (eval fuel) arg env
      if ops.truth value then .ok (.continued, env) else .error .assertion
    | .logCall _ args => do
      let _ ← scalars (eval fuel) env (args.filterMap logged?)
      .ok (.continued, env)
    | _ => .error .type

end

end Interpreter

/-! ## Functions of an accepted program -/

def IsDeclaration : Statement → Prop
  | .declaration .. => True
  | _ => False

mutual

/-- Every variable is declared before it is assigned to, and arrays are declared in initialization blocks. -/
def WellScoped (names : List String) : Statement → Prop
  | .ifThenElse _ _ ifCase none => WellScoped names ifCase
  | .ifThenElse _ _ ifCase (some elseCase) => WellScoped names ifCase ∧ WellScoped names elseCase
  | .whileStmt _ _ stmt => WellScoped names stmt
  | .initializationBlock _ _ inits => InitializationsWellScoped names inits
  | .declaration _ xtype _ dimensions _ _ => xtype = .var → dimensions = []
  | .substitution _ var _ _ _ => var ∈ names
  | .block _ stmts => AllWellScoped names stmts
  | _ => True

def AllWellScoped (names : List String) : List Statement → Prop
  | [] => True
  | stmt :: stmts => WellScoped names stmt ∧ AllWellScoped (stmt.declares ++ names) stmts

def InitializationsWellScoped (names : List String) : List Statement → Prop
  | [] => True
  | stmt :: stmts =>
    (IsDeclaration stmt ∨ WellScoped names stmt) ∧
      InitializationsWellScoped (stmt.declares ++ names) stmts

end

/-- The parameters of a function are declared by it. -/
def FunctionInfo.WellScoped (functions : FunctionInfo) : Prop :=
  ∀ id function, functions.lookup id = some function →
    LlzkBackend.WellScoped function.nameOfParams function.body

end Circom.LlzkBackend
