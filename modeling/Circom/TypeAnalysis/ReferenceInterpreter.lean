import Circom.TypeAnalysis.UnknownKnownAnalysis

/-!
# A reference interpreter of template bodies

Variables are scoped by blocks, signals are read from a given assignment of values, and a run records what
builds the circuit: declarations, component instantiations, tag assignments and constraints, each with the
branches and iterations around it. The operators are a parameter.
-/

namespace Circom.TypeAnalysis

open Circom.Ast
open Circom.ProgramStructure (Variables)

/-- The meaning of literals, operators and function calls. `none` is a run-time error. -/
structure Operators (V : Type) where
  number : ℤ → V
  infixOp : ExpressionInfixOpcode → V → V → Option V
  prefixOp : ExpressionPrefixOpcode → V → Option V
  truth : V → Option Bool
  call : String → List V → Option V
  array : List V → V
  uniformArray : V → V → Option V

/-- An access with the value of its index. -/
inductive AccessValue (V : Type) where
  | component (name : String)
  | index (value : V)
  deriving DecidableEq

/-- The values of the wires with a name, by their accesses. -/
abbrev Wires (V : Type) := String → List (AccessValue V) → Option V

structure RunState (V : Type) where
  vars : Variables V
  tags : Wires V

/-- A branch or an iteration that is executed. -/
inductive Choice where
  | branch (cond : Bool)
  | iteration (k : ℕ)
  deriving DecidableEq

inductive Event (V : Type) where
  | declaration (xtype : VariableType) (name : String) (dimensions : List V)
  | instantiation (name : String) (access : List (AccessValue V)) (template : String) (params : List V)
  | tagAssignment (name : String) (access : List (AccessValue V)) (value : V)
  /-- A constraint statement with the values of the indices in it. -/
  | constraint (stmt : Statement) (indices : List (Option V))

mutual

/-- The indices with which an expression accesses its variables. -/
def indices : Expression → List Expression
  | .number .. => []
  | .var _ _ access => access.filterMap Access.index?
  | .infixOp _ lhe _ rhe => indices lhe ++ indices rhe
  | .prefixOp _ _ rhe => indices rhe
  | .parallelOp _ rhe => indices rhe
  | .inlineSwitchOp _ cond ifTrue ifFalse => indices cond ++ indices ifTrue ++ indices ifFalse
  | .call _ _ args => indicesOfAll args
  | .busCall _ _ args => indicesOfAll args
  | .arrayInLine _ values => indicesOfAll values
  | .tuple _ values => indicesOfAll values
  | .uniformArray _ value dimension => indices value ++ indices dimension
  | .anonymousComp .. => []

def indicesOfAll : List Expression → List Expression
  | [] => []
  | e :: es => indices e ++ indicesOfAll es

end

/-- The events of a run with the choices around them. -/
abbrev Trace (V : Type) := List (List Choice × Event V)

variable {V : Type} [DecidableEq V] (reducesTo : Meta → TypeReduction) (ops : Operators V)
  (signals : Wires V)

/-! ## Expressions -/

mutual

def eval (s : RunState V) : Expression → Option V
  | .number _ value => some (ops.number value)
  | .var info name access => do
    let path ← evalAccess s access
    match reducesTo info with
    | .var => if access.isEmpty then s.vars.getVariable name else none
    | .tag => s.tags name path
    | _ => signals name path
  | .infixOp _ lhe op rhe => do
    let l ← eval s lhe
    let r ← eval s rhe
    ops.infixOp op l r
  | .prefixOp _ op rhe => do
    let r ← eval s rhe
    ops.prefixOp op r
  | .inlineSwitchOp _ cond ifTrue ifFalse => do
    let c ← eval s cond
    if ← ops.truth c then eval s ifTrue else eval s ifFalse
  | .parallelOp _ rhe => eval s rhe
  | .call _ id args => do
    let values ← evalAll s args
    ops.call id values
  | .busCall _ id args => do
    let values ← evalAll s args
    ops.call id values
  | .arrayInLine _ values => do
    let values ← evalAll s values
    some (ops.array values)
  | .uniformArray _ value dimension => do
    let v ← eval s value
    let d ← eval s dimension
    ops.uniformArray v d
  | .anonymousComp .. => none
  | .tuple .. => none

def evalAll (s : RunState V) : List Expression → Option (List V)
  | [] => some []
  | e :: es => do
    let v ← eval s e
    let vs ← evalAll s es
    some (v :: vs)

def evalAccess (s : RunState V) : List Access → Option (List (AccessValue V))
  | [] => some []
  | .componentAccess name :: access => do
    let path ← evalAccess s access
    some (.component name :: path)
  | .arrayAccess index :: access => do
    let v ← eval s index
    let path ← evalAccess s access
    some (.index v :: path)

end

/-- The values of the given indices. -/
def indexValues (s : RunState V) (indices : List Expression) : List (Option V) :=
  indices.map (eval reducesTo ops signals s)

/-- The template and the parameters of a component. -/
def instantiation (s : RunState V) : Expression → Option (String × List V)
  | .call _ id args => do
    let params ← evalAll reducesTo ops signals s args
    some (id, params)
  | .parallelOp _ rhe => instantiation s rhe
  | _ => none

/-! ## Statements -/

def execSubstitution (info : Meta) (var : String) (access : List Access) (op : AssignOp)
    (rhe : Expression) (choices : List Choice) (s : RunState V) : Option (RunState V × Trace V) := do
  let path ← evalAccess reducesTo ops signals s access
  match reducesTo info with
  | .var =>
    if access.isEmpty && s.vars.hasVariable var then do
      let v ← eval reducesTo ops signals s rhe
      some ({ s with vars := s.vars.setVariable var v }, [])
    else none
  | .component _ => do
    let (template, params) ← instantiation reducesTo ops signals s rhe
    some (s, [(choices, .instantiation var path template params)])
  | .tag => do
    let v ← eval reducesTo ops signals s rhe
    some ({ s with tags := fun name p => if name = var ∧ p = path then some v else s.tags name p },
      [(choices, .tagAssignment var path v)])
  | .signal | .bus _ => do
    let _ ← eval reducesTo ops signals s rhe
    some (s, if op = .assignConstraintSignal then
      [(choices, .constraint (.substitution info var access op rhe)
        (indexValues reducesTo ops signals s (access.filterMap Access.index? ++ indices rhe)))] else [])

/-- An anonymous component inside a loop grows with the iterations: its declaration fixes no dimension. -/
def execDeclaration (xtype : VariableType) (name : String) (dimensions : List Expression)
    (choices : List Choice) (s : RunState V) : Option (RunState V × Trace V) :=
  match xtype with
  | .anonymousComponent => some (s, [(choices, .declaration xtype name [])])
  | .var => do
    let _ ← evalAll reducesTo ops signals s dimensions
    some ({ s with vars := s.vars.addVariable name (ops.number 0) }, [])
  | _ => do
    let values ← evalAll reducesTo ops signals s dimensions
    some (s, [(choices, .declaration xtype name values)])

/-- Whether a condition holds. -/
def evalCond (cond : Expression) (s : RunState V) : Option Bool := do
  let c ← eval reducesTo ops signals s cond
  ops.truth c

/-- The iterations of a loop from the `k`-th one on. -/
def execLoop (cond : RunState V → Option Bool) (body : ℕ → RunState V → Option (RunState V × Trace V)) :
    ℕ → ℕ → RunState V → Option (RunState V × Trace V)
  | 0, _, _ => none
  | fuel + 1, k, s => do
    if ← cond s then do
      let (s, events) ← body k s
      let (s, events') ← execLoop cond body fuel (k + 1) s
      some (s, events ++ events')
    else some (s, [])

mutual

def exec (fuel : ℕ) : Statement → List Choice → RunState V → Option (RunState V × Trace V)
  | .declaration _ xtype name dimensions _ _, choices, s =>
    execDeclaration reducesTo ops signals xtype name dimensions choices s
  | .substitution info var access op rhe, choices, s =>
    execSubstitution reducesTo ops signals info var access op rhe choices s
  | .underscoreSubstitution info op rhe, choices, s => do
    let _ ← eval reducesTo ops signals s rhe
    some (s, if op = .assignConstraintSignal then
      [(choices, .constraint (.underscoreSubstitution info op rhe)
        (indexValues reducesTo ops signals s (indices rhe)))] else [])
  | .constraintEquality info lhe rhe, choices, s => do
    let _ ← eval reducesTo ops signals s lhe
    let _ ← eval reducesTo ops signals s rhe
    some (s, [(choices, .constraint (.constraintEquality info lhe rhe)
      (indexValues reducesTo ops signals s (indices lhe ++ indices rhe)))])
  | .ifThenElse _ cond ifCase elseCase, choices, s => do
    if ← evalCond reducesTo ops signals cond s then exec fuel ifCase (choices ++ [.branch true]) s
    else match elseCase with
      | some elseStmt => exec fuel elseStmt (choices ++ [.branch false]) s
      | none => some (s, [])
  | .whileStmt _ cond stmt, choices, s =>
    execLoop (evalCond reducesTo ops signals cond)
      (fun k s => exec fuel stmt (choices ++ [.iteration k]) s) fuel 0 s
  | .block _ stmts, choices, s => do
    let (s, events) ← execAll fuel stmts choices { s with vars := s.vars.addVariableBlock }
    some ({ s with vars := s.vars.removeVariableBlock }, events)
  | .initializationBlock _ _ initializations, choices, s => execAll fuel initializations choices s
  | .assert _ arg, _, s => do
    if ← evalCond reducesTo ops signals arg s then some (s, []) else none
  | .logCall .., _, s => some (s, [])
  | .returnStmt .., _, _ => none
  | .multSubstitution .., _, _ => none

def execAll (fuel : ℕ) : List Statement → List Choice → RunState V → Option (RunState V × Trace V)
  | [], _, s => some (s, [])
  | stmt :: stmts, choices, s => do
    let (s, events) ← exec fuel stmt choices s
    let (s, events') ← execAll fuel stmts choices s
    some (s, events ++ events')

end

/-! ## Program points -/

/-- The state after `k` iterations of a loop all of which are executed. -/
def iterate (cond : RunState V → Option Bool) (body : ℕ → RunState V → Option (RunState V × Trace V)) :
    ℕ → RunState V → Option (RunState V)
  | 0, s => some s
  | k + 1, s => do
    let s ← iterate cond body k s
    if ← cond s then do
      let (s, _) ← body k s
      some s
    else none

/-- The state at the start of a template with the given arguments. -/
def RunState.start (params : List String) (args : List V) (tags : Wires V) : RunState V where
  vars := (params.zip args).foldl (fun vars e => vars.addVariable e.1 e.2) [∅]
  tags := tags

end Circom.TypeAnalysis
