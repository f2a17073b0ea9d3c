import Circom.Ast.Ast
import Circom.ProgramStructure.Environment
import Mathlib.Data.Finset.Insert

/-!
# Inference of return types

`type_inference.rs`. The functions that walk over statements and expressions take the operations that they need, on
the environment and for a call, as parameters; `codeSearch` has the operations of the source. The bodies of called
functions are analysed with less fuel.
-/

namespace Circom.Hir

open Circom.Ast
open Circom.Lib (HashMap)
open Circom.ProgramStructure (Variables)

/-- The dimensions of a value. -/
abbrev VCT := List ℕ

structure GenericFunction where
  paramsNames : List String
  body : Statement

structure Param where
  name : String
  length : VCT

inductive SearchFailure where
  | panic
  | outOfFuel
  deriving DecidableEq, Repr

/-- What a search needs of the place where it is. -/
structure Search (m : Type → Type) where
  lookup : String → m VCT
  declare : String → VCT → m Unit
  /-- A block of variables around a search. -/
  block : {α : Type} → m α → m α
  call : String → m (Option (List VCT)) → m (Option VCT)
  panic : {α : Type} → m α

/-- `std::cmp::max` of two types: they are compared as vectors. -/
def maxType (a b : VCT) : VCT := if b < a then a else b

/-- The type of two statements, of which the second one comes later. -/
def joinTypes : Option VCT → Option VCT → Option VCT
  | none, newValue => newValue
  | returns, none => returns
  | some returns, some newValue => some (maxType newValue returns)

/-- The type of the branches of a conditional. -/
def joinBranches : Option VCT → Option VCT → Option VCT
  | none, elseReturns => elseReturns
  | returns, none => returns
  | some returns, some elseReturns => some (maxType returns elseReturns)

/-- The greater one of each dimension of the first type. -/
def maxDimensions : VCT → VCT → Option VCT
  | [], _ => some []
  | _ :: _, [] => none
  | d :: withType, e :: auxType => (maxDimensions withType auxType).map (max d e :: ·)

def castDimension : Expression → Option ℕ
  | .number _ value => if 0 ≤ value ∧ value < 2 ^ 64 then some value.toNat else none
  | _ => none

section

variable {m : Type → Type} [Monad m] (ops : Search m)

/-- Goes on if there is a type. -/
def withType {α β : Type} (x : m (Option α)) (f : α → m (Option β)) : m (Option β) := do
  match ← x with
  | none => pure none
  | some a => f a

/-- The value of an option that is unwrapped. -/
def unwrap {α : Type} : Option α → m α
  | none => ops.panic
  | some a => pure a

mutual

def inferTypeExpression : Expression → m (Option VCT)
  | .call _ id args => ops.call id (inferArgs args)
  | .var _ name access => do
    let type ← ops.lookup name
    if access.length ≤ type.length then pure (some (type.drop access.length)) else ops.panic
  | .arrayInLine _ [] => ops.panic
  | .arrayInLine _ (value :: values) =>
    withType (inferTypeExpression value) fun type =>
      withType (inferElements type values) fun lengths => pure (some ((values.length + 1) :: lengths))
  | .uniformArray _ value dimension => do
    let usableDimension ← unwrap ops (castDimension dimension)
    withType (inferTypeExpression value) fun type => pure (some (usableDimension :: type))
  | .inlineSwitchOp _ _ ifTrue ifFalse => do
    let castsTo ← inferTypeExpression ifTrue
    if castsTo.isNone then inferTypeExpression ifFalse else pure castsTo
  | .infixOp .. => pure (some [])
  | .prefixOp .. => pure (some [])
  | .parallelOp _ rhe => inferTypeExpression rhe
  | .number .. => pure (some [])
  | _ => ops.panic

/-- The other elements of an array. -/
def inferElements (type : VCT) : List Expression → m (Option VCT)
  | [] => pure (some type)
  | value :: values =>
    withType (inferTypeExpression value) fun auxType => do
      let type ← unwrap ops (maxDimensions type auxType)
      inferElements type values

def inferArgs : List Expression → m (Option (List VCT))
  | [] => pure (some [])
  | arg :: args =>
    withType (inferTypeExpression arg) fun argType =>
      withType (inferArgs args) fun argTypes => pure (some (argType :: argTypes))

end

-- `get_memory_knowledge().get_concrete_dimensions()`
variable (concreteDimensions : Meta → VCT)

/-- The declarations of an initialization block. -/
def inferInitializations : List Statement → m Unit
  | [] => pure ()
  | .declaration info _ name _ _ _ :: stmts => do
    ops.declare name (concreteDimensions info)
    inferInitializations stmts
  | _ :: stmts => inferInitializations stmts

mutual

def inferTypeStmt : Statement → m (Option VCT)
  | .returnStmt _ value => inferTypeExpression ops value
  | .block _ stmts => ops.block (inferTypeStmts none stmts)
  | .initializationBlock _ _ initializations => do
    inferInitializations ops concreteDimensions initializations
    pure none
  | .ifThenElse _ _ ifCase none => inferTypeStmt ifCase
  | .ifThenElse _ _ ifCase (some elseCase) => do
    let returns ← inferTypeStmt ifCase
    let elseReturns ← inferTypeStmt elseCase
    pure (joinBranches returns elseReturns)
  | .whileStmt _ _ stmt => inferTypeStmt stmt
  | .declaration info _ name _ _ _ => do
    ops.declare name (concreteDimensions info)
    pure none
  | .substitution .. => pure none
  | .constraintEquality .. => pure none
  | .logCall .. => pure none
  | .assert .. => pure none
  | _ => ops.panic

def inferTypeStmts (returns : Option VCT) : List Statement → m (Option VCT)
  | [] => pure returns
  | stmt :: stmts => do
    let newValue ← inferTypeStmt stmt
    inferTypeStmts (joinTypes returns newValue) stmts

end

end

/-! ## The search of the source -/

structure SearchInfo where
  environment : Variables VCT
  openCalls : Finset String

/-- What a run of the search does: the lookups, and the calls with the state before and after each of them. -/
inductive SearchEvent where
  | lookup (name : String) (type : VCT)
  | call (id : String) (before after : SearchInfo)

/-- A search with the source's state, which records its events. -/
def Infer (α : Type) : Type := SearchInfo × List SearchEvent → Except SearchFailure α × SearchInfo × List SearchEvent

namespace Infer

def bind {α β : Type} (x : Infer α) (f : α → Infer β) : Infer β := fun s =>
  match x s with
  | (.ok a, s) => f a s
  | (.error e, s) => (.error e, s)

instance : Monad Infer where
  pure a := fun s => (.ok a, s)
  bind := bind

def fail {α : Type} (e : SearchFailure) : Infer α := fun s => (.error e, s)

def modify (f : SearchInfo → SearchInfo) : Infer Unit := fun s => (.ok (), f s.1, s.2)

def lookup (name : String) : Infer VCT := fun s =>
  match s.1.environment.getVariable name with
  | none => (.error .panic, s)
  | some type => (.ok type, s.1, s.2 ++ [.lookup name type])

end Infer

def SearchInfo.addVariable (info : SearchInfo) (name : String) (type : VCT) : SearchInfo :=
  { info with environment := info.environment.addVariable name type }

def SearchInfo.addVariableBlock (info : SearchInfo) : SearchInfo :=
  { info with environment := info.environment.addVariableBlock }

def SearchInfo.removeVariableBlock (info : SearchInfo) : SearchInfo :=
  { info with environment := info.environment.removeVariableBlock }

/-- `context.environment.add_variable(&names[index], arg_type)` for all arguments. -/
def addParams (blocks : Variables VCT) : List String → List VCT → Option (Variables VCT)
  | _, [] => some blocks
  | [], _ :: _ => none
  | name :: names, argType :: argTypes => addParams (blocks.addVariable name argType) names argTypes

section

variable (functions : HashMap String GenericFunction)

/-- A call whose arguments have no type leaves its block and its name behind. -/
def inferTypeCall (inferBody : Statement → Infer (Option VCT)) (id : String) (args : Infer (Option (List VCT))) :
    Infer (Option VCT) := fun (before, log) =>
  if id ∈ before.openCalls then (.ok none, before, log ++ [.call id before before])
  else
    let opened := SearchInfo.addVariableBlock { before with openCalls := insert id before.openCalls }
    match functions.lookup id with
    | none => (.error .panic, opened, log)
    | some f =>
      match args (opened, log) with
      | (.error e, s) => (.error e, s)
      | (.ok none, info, log) => (.ok none, info, log ++ [.call id before info])
      | (.ok (some argTypes), info, log) =>
        match addParams info.environment f.paramsNames argTypes with
        | none => (.error .panic, info, log)
        | some environment =>
          match inferBody f.body ({ info with environment := environment }, log) with
          | (.error e, s) => (.error e, s)
          | (.ok inferred, info, log) =>
            let closed := { info.removeVariableBlock with openCalls := info.openCalls.erase id }
            (.ok inferred, closed, log ++ [.call id before closed])

def codeSearch (inferBody : Statement → Infer (Option VCT)) : Search Infer where
  lookup := Infer.lookup
  declare name type := Infer.modify fun info => info.addVariable name type
  block x := do
    Infer.modify SearchInfo.addVariableBlock
    let result ← x
    Infer.modify SearchInfo.removeVariableBlock
    pure result
  call := inferTypeCall functions inferBody
  panic := Infer.fail .panic

variable (concreteDimensions : Meta → VCT)

def inferBody : ℕ → Statement → Infer (Option VCT)
  | 0, _ => Infer.fail .outOfFuel
  | fuel + 1, stmt => inferTypeStmt (codeSearch functions (inferBody fuel)) concreteDimensions stmt

/-- The context in which the body of a function is analysed. -/
def SearchInfo.ofParams (id : String) (params : List Param) : SearchInfo where
  environment := params.foldl (fun blocks p => blocks.addVariable p.name p.length) [∅]
  openCalls := {id}

/-- The type that is unwrapped, `none` if there is none, with the events of the search. There are no more calls in
one another than functions. -/
def inferFunctionResult (id : String) (params : List Param) : Except SearchFailure (Option VCT) × List SearchEvent :=
  match functions.lookup id with
  | none => (.error .panic, [])
  | some f =>
    let (result, _, log) :=
      inferBody functions concreteDimensions (functions.len + 1) f.body (SearchInfo.ofParams id params, [])
    (result, log)

end

end Circom.Hir
