import Circom.Ast.ProgramArchive
import Circom.Lib.Shadowing
import Circom.LlzkBackend.Shared

/-!
# Known values of expressions

The compile-time evaluator and the call graph of `template_recursion` of the crate `llzk_backend`. The monad
of the evaluator carries `remaining_steps`. Its `none` is `Ok(None)`, and for a statement
`Flow::Return(None)`: both are handed on up to the call or the expression the evaluator was asked for, and the
constants are dropped there. Every call of the evaluator charges a step, so `remaining_steps` bounds the
recursion; it is an argument of its own, and at zero there is no step to charge.
-/

namespace Circom.LlzkBackend

open Circom.Ast
open Circom.Lib (HashMap Saved)

/-- Values known during template preparation and speculative function execution. -/
inductive ConstantValue where
  | scalar (value : ℕ)
  | array (values : List ConstantValue)

namespace ConstantValue

mutual

def decEq : (a b : ConstantValue) → Decidable (a = b)
  | scalar n, scalar m => decidable_of_iff (n = m) (by rw [scalar.injEq])
  | scalar _, array _ => isFalse nofun
  | array _, scalar _ => isFalse nofun
  | array lhs, array rhs =>
    match decEqs lhs rhs with
    | isTrue h => isTrue (congrArg array h)
    | isFalse h => isFalse fun heq => h (array.inj heq)

def decEqs : (lhs rhs : List ConstantValue) → Decidable (lhs = rhs)
  | [], [] => isTrue rfl
  | [], _ :: _ => isFalse nofun
  | _ :: _, [] => isFalse nofun
  | a :: lhs, b :: rhs =>
    match decEq a b, decEqs lhs rhs with
    | isTrue h, isTrue h' => isTrue (by rw [h, h'])
    | isFalse h, _ => isFalse fun heq => h (List.cons.inj heq).1
    | _, isFalse h => isFalse fun heq => h (List.cons.inj heq).2

end

instance : DecidableEq ConstantValue := decEq

def intoScalar : ConstantValue → Option ℕ
  | scalar value => some value
  | array _ => none

mutual

/-- The number of scalars, unless it exceeds a machine word. -/
def size : ConstantValue → Option ℕ
  | scalar _ => some 1
  | array values => addSizes 1 values

def addSizes (size : ℕ) : List ConstantValue → Option ℕ
  | [] => some size
  | value :: values => do
    let valueSize ← value.size
    let size ← toUsize (size + valueSize)
    addSizes size values

end

mutual

def sameShape : ConstantValue → ConstantValue → Bool
  | scalar _, scalar _ => true
  | array lhs, array rhs => sameShapes lhs rhs
  | _, _ => false

def sameShapes : List ConstantValue → List ConstantValue → Bool
  | [], [] => true
  | lhs :: lhss, rhs :: rhss => lhs.sameShape rhs && sameShapes lhss rhss
  | _, _ => false

end

/-- The element at an index, if there is one. -/
def element : ConstantValue → ℕ → Option ConstantValue
  | array values, index => values[index]?
  | scalar _, _ => none

/-- Replaces the element at a list of indices. -/
def modify (f : ConstantValue → Option ConstantValue) : List ℕ → ConstantValue → Option ConstantValue
  | [], value => f value
  | index :: indices, array values => do
    let target ← values[index]?
    let target ← modify f indices target
    some (array (values.set index target))
  | _ :: _, scalar _ => none

end ConstantValue

/-- Variables whose scalar or array values are known at the current point. -/
abbrev Constants := HashMap String ConstantValue

/-- Of a function the parts that a call needs. -/
structure FunctionData extends Ast.FunctionData where
  nameOfParams : List String

def FunctionData.numOfParams (function : FunctionData) : ℕ := function.nameOfParams.length

abbrev FunctionInfo := HashMap String FunctionData

/-- Of a template the parts that specialization reads and hands on. -/
structure TemplateData where
  name : String
  fileId : ℕ
  body : Statement
  nameOfParams : List String
  isParallel : Bool
  isCustomGate : Bool
  isExternC : Bool

/-! ## The call graph -/

/-- The template that an assigned expression constructs. -/
def constructedTemplate : Expression → Option String
  | .parallelOp _ rhe => constructedTemplate rhe
  | .call _ id _ => some id
  | _ => none

section CallGraph

variable (templates : HashMap String TemplateData)

mutual

def collectCalls : Statement → Finset String
  | .block _ stmts => collectAllCalls stmts
  | .initializationBlock _ _ initializations => collectAllCalls initializations
  | .ifThenElse _ _ ifCase none => collectCalls ifCase
  | .ifThenElse _ _ ifCase (some elseCase) => collectCalls ifCase ∪ collectCalls elseCase
  | .whileStmt _ _ stmt => collectCalls stmt
  | .substitution _ _ _ _ rhe =>
    match constructedTemplate rhe with
    | some id => if id ∈ templates then {id} else ∅
    | none => ∅
  | _ => ∅

def collectAllCalls : List Statement → Finset String
  | [] => ∅
  | stmt :: stmts => collectCalls stmt ∪ collectAllCalls stmts

end

def callGraph : HashMap String (Finset String) :=
  templates.mapValues fun template => collectCalls templates template.body

/-- The templates that construct a template, in the order in which the graph lists them. -/
def callers (callee : String) : List String :=
  (callGraph templates).pairs.filterMap fun e => if callee ∈ e.2 then some e.1 else none

/-- The pending templates are a stack; the last caller that was pushed is popped first. -/
def closeUnderCallers : ℕ → Finset String → List String → Option (Finset String)
  | _, result, [] => some result
  | 0, _, _ :: _ => none
  | fuel + 1, result, template :: pending =>
    if template ∈ result then closeUnderCallers fuel result pending
    else closeUnderCallers fuel (insert template result) ((callers templates template).reverse ++ pending)

/-- Includes a template and all callers that must propagate its specialized scalar arguments. -/
def callersOf (fuel : ℕ) (target : String) : Option (Finset String) :=
  closeUnderCallers templates fuel ∅ [target]

end CallGraph

inductive Flow where
  | continued
  | returned (value : ConstantValue)

namespace Evaluator

abbrev Budgeted := StateT ℕ (Except Failure)

abbrev Speculative := OptionT Budgeted

/-- Charges array allocation and copying as well as execution to the same finite budget. -/
def charge (steps : ℕ) : Speculative Unit := do
  let remaining ← get
  if steps ≤ remaining then set (remaining - steps)
  else
    set 0
    failure

/-- What is known without a charge. -/
def known {α : Type} (o : Option α) : Speculative α := OptionT.mk (pure o)

/-- A step of a function that returns a `Result<Option<_>>`. -/
def attempt {α : Type} (result : Except Failure (Option α)) : Speculative α :=
  OptionT.mk (liftM result)

/-- The memory for a list is not allocated when the budget is smaller. -/
def checkAllocation (length : ℕ) : Speculative Unit := do
  let remaining ← get
  if remaining < length then failure

def chargeSize (value : ConstantValue) : Speculative Unit := do
  let size ← known value.size
  charge size

/-- The cost of saving the value that a declaration hides. -/
def chargeShadowed (constants : Constants) (shadowed : Saved String ConstantValue) (name : String) :
    Speculative Unit :=
  if name ∈ shadowed then pure ()
  else match constants.lookup name with
    | some value => chargeSize value
    | none => pure ()

abbrev Frame := Constants × Saved String ConstantValue

section Steps

variable (knownValue : Expression → Constants → Speculative ConstantValue)
  (statement : Statement → Constants → Saved String ConstantValue → Speculative (Flow × Frame))

def value (expr : Expression) (constants : Constants) : Speculative ℕ := do
  let value ← knownValue expr constants
  known value.intoScalar

def accessIndices (constants : Constants) : List Access → Speculative (List ℕ)
  | [] => pure []
  | .componentAccess _ :: _ => failure
  | .arrayAccess index :: access => do
    let index ← value knownValue index constants
    let index ← known (toUsize index)
    let indices ← accessIndices constants access
    pure (index :: indices)

/-- The elements of an inline array must have one shape. -/
def arrayElements (constants : Constants) :
    List ConstantValue → List Expression → Speculative (List ConstantValue)
  | elements, [] => pure elements
  | elements, expr :: exprs => do
    let value ← knownValue expr constants
    if elements.head?.all fun first => first.sameShape value then
      arrayElements constants (elements ++ [value]) exprs
    else failure

/-- The constants after an assignment of a known value, `none` if the target has another shape. -/
def updated (constants : Constants) (var : String) (indices : List ℕ) (value : ConstantValue) :
    Option Constants :=
  let replace (old : ConstantValue) := if old.sameShape value then some value else none
  if indices.isEmpty then
    if (constants.lookup var).any fun old => !old.sameShape value then none
    else some (constants.insert var value)
  else do
    let target ← constants.lookup var
    let target ← target.modify replace indices
    some (constants.insert var target)

/-- Forgets the variable if the value or the access is not known, or the shapes differ. -/
def assign (var : String) (access : List Access) (expr : Expression) (constants : Constants) :
    Budgeted (Bool × Constants) := do
  let value ← (knownValue expr constants).run
  let indices ← (accessIndices knownValue constants access).run
  match value, indices with
  | some value, some indices =>
    match updated constants var indices value with
    | some constants => pure (true, constants)
    | none => pure (false, constants.erase var)
  | _, _ => pure (false, constants.erase var)

def scopedStatement (stmt : Statement) (constants : Constants) : Speculative (Flow × Constants) := do
  let (flow, constants, shadowed) ← statement stmt constants ∅
  pure (flow, shadowed.restore constants)

/-- The statements of a block up to one that returns. -/
def blockStatements :
    List Statement → Constants → Saved String ConstantValue → Speculative (Flow × Frame)
  | [], constants, shadowed => pure (.continued, constants, shadowed)
  | stmt :: stmts, constants, shadowed => do
    let (flow, constants, shadowed) ← statement stmt constants shadowed
    match flow with
    | .continued => blockStatements stmts constants shadowed
    | .returned value => pure (.returned value, constants, shadowed)

/-- The initializer is a uniform array of zeros with the declared dimensions. -/
def zeroInitializer (constants : Constants) : List Expression → Expression → Speculative Unit
  | [], .number _ value => if value = 0 then pure () else failure
  | [], _ => failure
  | declared :: dimensions, .uniformArray _ initializer dimension => do
    let length ← value knownValue declared constants
    let length' ← value knownValue dimension constants
    if length' = length then zeroInitializer constants dimensions initializer else failure
  | _ :: _, _ => failure

/-- Normal parsing establishes the declared shape with a zero initializer. With `--no_init` it is absent:
no shape is inferred from a later assignment. -/
def declaredShape (constants : Constants) (stmt : Statement) (next : Option Statement) :
    Speculative Unit :=
  match stmt with
  | .declaration _ .var name dimensions _ _ =>
    if dimensions.isEmpty then pure ()
    else match next with
      | some (.substitution _ var access .assignVar rhe) =>
        if var ≠ name ∨ !access.isEmpty then failure
        else zeroInitializer knownValue constants dimensions rhe
      | _ => failure
  | _ => pure ()

def initializations :
    List Statement → Constants → Saved String ConstantValue → Speculative (Flow × Frame)
  | [], constants, shadowed => pure (.continued, constants, shadowed)
  | stmt :: stmts, constants, shadowed => do
    declaredShape knownValue constants stmt stmts.head?
    let (flow, constants, shadowed) ← statement stmt constants shadowed
    match flow with
    | .continued => initializations stmts constants shadowed
    | .returned value => pure (.returned value, constants, shadowed)

/-- Evaluating the condition charges a step, so that the budget bounds the iterations too. -/
def whileLoop (cond : Expression) (stmt : Statement) :
    ℕ → Constants → Speculative (Flow × Constants)
  | 0, _ => do
    set 0
    failure
  | bound + 1, constants => do
    let condition ← value knownValue cond constants
    if condition = 0 then pure (.continued, constants)
    else do
      let (flow, constants) ← scopedStatement statement stmt constants
      match flow with
      | .continued => whileLoop cond stmt bound constants
      | .returned value => pure (.returned value, constants)

end Steps

section Recursion

variable (prime : ℕ) (functions : FunctionInfo)

mutual

def knownValue : ℕ → ℕ → Expression → Constants → Speculative ConstantValue
  | 0, _, _, _ => do
    set 0
    failure
  | fuel + 1, depth, expr, constants => do
    charge 1
    match expr with
    | .number info n =>
      let n ← attempt (tryComputeBiguint prime (.number info n))
      pure (.scalar n)
    | .var _ name access =>
      let indices ← accessIndices (knownValue fuel depth) constants access
      let value ← known (constants.lookup name)
      let value ← known (indices.foldlM ConstantValue.element value)
      chargeSize value
      pure value
    | .arrayInLine _ values =>
      checkAllocation values.length
      let elements ← arrayElements (knownValue fuel depth) constants [] values
      pure (.array elements)
    | .uniformArray _ initializer dimension =>
      let length ← value (knownValue fuel depth) dimension constants
      let length ← known (toUsize length)
      checkAllocation length
      let element ← knownValue fuel depth initializer constants
      let size ← known element.size
      let cost ← known (toUsize (size * length))
      charge cost
      pure (.array (List.replicate length element))
    | .infixOp info lhe infixOp rhe =>
      let lhs ← value (knownValue fuel depth) lhe constants
      let rhs ← value (knownValue fuel depth) rhe constants
      if (infixOp = .intDiv ∨ infixOp = .mod) ∧ rhs = 0 then
        attempt (.error (.error "division by zero in constant template expression"))
      else
        let n ← attempt
          (tryComputeBiguint prime (.infixOp info (.number info lhs) infixOp (.number info rhs)))
        pure (.scalar n)
    | .prefixOp info prefixOp rhe =>
      let rhs ← value (knownValue fuel depth) rhe constants
      let n ← attempt (tryComputeBiguint prime (.prefixOp info prefixOp (.number info rhs)))
      pure (.scalar n)
    | .inlineSwitchOp _ cond ifTrue ifFalse =>
      let condition ← value (knownValue fuel depth) cond constants
      knownValue fuel depth (if condition = 0 then ifFalse else ifTrue) constants
    | .call _ id args =>
      let function ← known (functions.lookup id)
      if depth ≥ 128 ∨ args.length ≠ function.numOfParams then failure
      else
        let parameters ← (function.nameOfParams.zip args).foldlM (fun (parameters : Constants) e => do
          let value ← knownValue fuel depth e.2 constants
          pure (parameters.insert e.1 value)) ∅
        let (flow, _) ← scopedStatement (statement fuel (depth + 1)) function.body parameters
        match flow with
        | .returned value => pure value
        | .continued => failure
    | _ => failure

def statement :
    ℕ → ℕ → Statement → Constants → Saved String ConstantValue → Speculative (Flow × Frame)
  | 0, _, _, _, _ => do
    set 0
    failure
  | fuel + 1, depth, stmt, constants, shadowed => do
    charge 1
    match stmt with
    | .block _ stmts =>
      let (flow, constants, locals) ← blockStatements (statement fuel depth) stmts constants ∅
      pure (flow, locals.restore constants, shadowed)
    | .initializationBlock _ _ inits =>
      initializations (knownValue fuel depth) (statement fuel depth) inits constants shadowed
    | .declaration _ .var name .. =>
      chargeShadowed constants shadowed name
      pure (.continued, constants.erase name, shadowed.save constants name)
    | .substitution _ var access .assignVar rhe =>
      let (updated, constants) ← OptionT.lift (assign (knownValue fuel depth) var access rhe constants)
      if updated then pure (.continued, constants, shadowed) else failure
    | .ifThenElse _ cond ifCase elseCase =>
      let condition ← value (knownValue fuel depth) cond constants
      if condition ≠ 0 then do
        let (flow, constants) ← scopedStatement (statement fuel depth) ifCase constants
        pure (flow, constants, shadowed)
      else match elseCase with
        | some stmt => do
          let (flow, constants) ← scopedStatement (statement fuel depth) stmt constants
          pure (flow, constants, shadowed)
        | none => pure (.continued, constants, shadowed)
    | .whileStmt _ cond stmt =>
      let (flow, constants) ←
        whileLoop (knownValue fuel depth) (statement fuel depth) cond stmt fuel constants
      pure (flow, constants, shadowed)
    | .returnStmt _ value =>
      let value ← knownValue fuel depth value constants
      pure (.returned value, constants, shadowed)
    | .assert _ arg =>
      let value ← value (knownValue fuel depth) arg constants
      if value ≠ 0 then pure (.continued, constants, shadowed) else failure
    | _ => failure

end

end Recursion

/-! ## The entry points -/

/-- The budget of a new evaluator. -/
def maxSteps : ℕ := 10000

def start {α : Type} (x : Speculative α) : Except Failure (Option α) := do
  let (result, _) ← (OptionT.run x).run maxSteps
  pure result

end Evaluator

section EntryPoints

variable (prime : ℕ) (functions : FunctionInfo)

/-- Every call charges a step, so that no recursion is deeper than the budget. -/
def knownValue (expr : Expression) (constants : Constants) : Except Failure (Option ConstantValue) :=
  Evaluator.start (Evaluator.knownValue prime functions Evaluator.maxSteps 0 expr constants)

def value (expr : Expression) (constants : Constants) : Except Failure (Option ℕ) :=
  Evaluator.start
    (Evaluator.value (Evaluator.knownValue prime functions Evaluator.maxSteps 0) expr constants)

def assign (var : String) (access : List Access) (expr : Expression) (constants : Constants) :
    Except Failure Constants := do
  let ((_, constants), _) ← (Evaluator.assign (Evaluator.knownValue prime functions Evaluator.maxSteps 0)
    var access expr constants).run Evaluator.maxSteps
  pure constants

end EntryPoints

end Circom.LlzkBackend
