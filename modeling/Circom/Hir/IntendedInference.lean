import Circom.Hir.TypeInference

/-!
# What the inference of return types is meant to do

The same walk as `type_inference.rs` with the scopes of the language: the body of a function is analysed in an
environment of its own, and a call leaves nothing behind. The set of open calls is passed down only.
-/

namespace Circom.Hir

open Circom.Ast
open Circom.Lib (HashMap)
open Circom.ProgramStructure (Variables)

inductive IntendedEvent where
  | lookup (name : String) (type : VCT)
  | call (id : String)
  /-- An argument of the call has no type. -/
  | unresolved (id : String)
  deriving DecidableEq, Repr

/-- A search with the open calls, the environment of the function and the events so far. -/
def Intended (α : Type) : Type :=
  Finset String → Variables VCT → List IntendedEvent →
    Except SearchFailure (α × Variables VCT × List IntendedEvent)

namespace Intended

instance : Monad Intended where
  pure a := fun _ env log => .ok (a, env, log)
  bind x f := fun openCalls env log =>
    match x openCalls env log with
    | .ok (a, env, log) => f a openCalls env log
    | .error e => .error e

def lookup (name : String) : Intended VCT := fun _ env log =>
  match env.getVariable name with
  | none => .error .panic
  | some type => .ok (type, env, log ++ [.lookup name type])

/-- A search in a block of its own. -/
def block {α : Type} (x : Intended α) : Intended α := fun openCalls env log =>
  match x openCalls env.addVariableBlock log with
  | .ok (a, env, log) => .ok (a, env.removeVariableBlock, log)
  | .error e => .error e

variable (functions : HashMap String GenericFunction)

/-- The arguments are analysed in the block of the call, which is all that the body sees. -/
def call (inferBody : Statement → Intended (Option VCT)) (id : String) (args : Intended (Option (List VCT))) :
    Intended (Option VCT) := fun openCalls env log =>
  if id ∈ openCalls then .ok (none, env, log ++ [.call id])
  else
    match functions.lookup id with
    | none => .error .panic
    | some f =>
      match args (insert id openCalls) env.addVariableBlock log with
      | .error e => .error e
      | .ok (none, env, log) => .ok (none, env.removeVariableBlock, log ++ [.unresolved id])
      | .ok (some argTypes, env, log) =>
        match addParams (env.take 1) f.paramsNames argTypes with
        | none => .error .panic
        | some params =>
          match inferBody f.body (insert id openCalls) params log with
          | .error e => .error e
          | .ok (inferred, _, log) => .ok (inferred, env.removeVariableBlock, log ++ [.call id])

def search (inferBody : Statement → Intended (Option VCT)) : Search Intended where
  lookup := lookup
  declare name type := fun _ env log => .ok ((), env.addVariable name type, log)
  block := block
  call := call functions inferBody
  panic := fun _ _ _ => .error .panic

variable (concreteDimensions : Meta → VCT)

def inferBody : ℕ → Statement → Intended (Option VCT)
  | 0, _ => fun _ _ _ => .error .outOfFuel
  | fuel + 1, stmt => inferTypeStmt (search functions (inferBody fuel)) concreteDimensions stmt

/-- The type of a function, if there is one, and the events. -/
def inferFunctionResult (id : String) (params : List Param) :
    Except SearchFailure (Option VCT × List IntendedEvent) :=
  match functions.lookup id with
  | none => .error .panic
  | some f =>
    match inferBody functions concreteDimensions (functions.len + 1) f.body {id}
        (params.foldl (fun blocks p => blocks.addVariable p.name p.length) [∅]) [] with
    | .error e => .error e
    | .ok (inferred, _, log) => .ok (inferred, log)

end Intended

/-! ## The search and what it is meant to do -/

def SearchEvent.lookedUp : SearchEvent → Option (String × VCT)
  | .lookup name type => some (name, type)
  | .call .. => none

def IntendedEvent.lookedUp : IntendedEvent → Option (String × VCT)
  | .lookup name type => some (name, type)
  | .call _ => none
  | .unresolved _ => none

/-- The run of the search finds the type of the intended one, and there is one; every call leaves the blocks and the
open calls as it found them, and every lookup finds the variable that is visible in its function. -/
structure Behaves (type : Option VCT) (ilog : List IntendedEvent)
    (run : Except SearchFailure (Option VCT) × List SearchEvent) : Prop where
  result : run.1 = .ok type
  typed : type.isSome
  /-- A call leaves the blocks as they were. -/
  restored : ∀ id before after, .call id before after ∈ run.2 → after = before
  /-- The lookups find what the intended search finds. -/
  lookups : run.2.filterMap SearchEvent.lookedUp = ilog.filterMap IntendedEvent.lookedUp

/-- Every argument that the search meets has a type. -/
def AllResolved (ilog : List IntendedEvent) : Prop := ∀ id, .unresolved id ∉ ilog

/-! ## Functions that have a type -/

section

-- the functions that are known to have a type
variable (typed : String → Prop)

mutual

/-- The expression has a type if the functions have one. -/
def HasType : Expression → Prop
  | .call _ id _ => typed id
  | .var .. => True
  | .arrayInLine _ values => HaveTypes values
  | .uniformArray _ value _ => HasType value
  | .inlineSwitchOp _ _ ifTrue ifFalse => HasType ifTrue ∨ HasType ifFalse
  | .infixOp .. => True
  | .prefixOp .. => True
  | .parallelOp _ rhe => HasType rhe
  | .number .. => True
  | _ => False

def HaveTypes : List Expression → Prop
  | [] => True
  | value :: values => HasType value ∧ HaveTypes values

end

mutual

/-- Some return statement has a type. -/
def ReturnsType : Statement → Prop
  | .returnStmt _ value => HasType typed value
  | .block _ stmts => SomeReturnsType stmts
  | .ifThenElse _ _ ifCase none => ReturnsType ifCase
  | .ifThenElse _ _ ifCase (some elseCase) => ReturnsType ifCase ∨ ReturnsType elseCase
  | .whileStmt _ _ stmt => ReturnsType stmt
  | _ => False

def SomeReturnsType : List Statement → Prop
  | [] => False
  | stmt :: stmts => ReturnsType stmt ∨ SomeReturnsType stmts

end

end

/-- Some return statement of the function is reached through at most that many calls in one another, without
recursion. -/
def TypedWithin (functions : HashMap String GenericFunction) : ℕ → String → Prop
  | 0, _ => False
  | calls + 1, id =>
    TypedWithin functions calls id ∨
      ∃ f, functions.lookup id = some f ∧ ReturnsType (TypedWithin functions calls) f.body

end Circom.Hir
