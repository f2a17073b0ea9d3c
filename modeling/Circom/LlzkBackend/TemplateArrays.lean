import Circom.LlzkBackend.TemplateRecursion

/-!
# Fixed-shape array template parameters as scalars

The pass `template_arrays` of the crate `llzk_backend`. Identifiers of nodes and the wires that
`TemplateData::new` collects again are left out. A hash set is a finite set; what the source downcasts an error
to is a constructor of `Interruption`. The nesting of specializations and of statements is bounded by fuel.
-/

/-!
## Array arguments of templates

The functions of `template_arrays` that take an array argument apart into scalars and put it together again.
A shape is the list of the dimensions; the shape of a scalar is empty.
-/

namespace Circom.LlzkBackend

open Circom.Ast
open Circom.Lib (HashMap Saved)

mutual

/-- Selects an element of a known-shape argument in the caller's scope. -/
def arrayElement : Expression → List ℕ → Except Failure Expression
  | expr, [] => .ok expr
  | .var info name access, index :: rest =>
    .ok (.var info name
      (access ++ (index :: rest).map fun index : ℕ => .arrayAccess (.number info (index : ℤ))))
  | .arrayInLine _ values, index :: rest => elementOf index rest values index
  | .uniformArray _ value _, _ :: rest => arrayElement value rest
  | .inlineSwitchOp info cond ifTrue ifFalse, index :: rest => do
    let ifTrue ← arrayElement ifTrue (index :: rest)
    let ifFalse ← arrayElement ifFalse (index :: rest)
    .ok (.inlineSwitchOp info cond ifTrue ifFalse)
  | _, _ :: _ => .error (.error "cannot index array template argument")

/-- The last argument counts down to the selected value. -/
def elementOf (index : ℕ) (rest : List ℕ) : List Expression → ℕ → Except Failure Expression
  | [], _ => .error (.error s!"array template argument index {index} is out of bounds")
  | value :: _, 0 => arrayElement value rest
  | _ :: values, n + 1 => elementOf index rest values n

end

/-- Counts elements without materializing coordinates, preserving zero-sized dimensions. -/
def elementCount (shape : List ℕ) : Except Failure ℕ :=
  if 0 ∈ shape then .ok 0
  else match shape.foldlM (fun size dimension => toUsize (size * dimension)) 1 with
    | some size => .ok size
    | none => .error (.error "array template parameter size overflow")

/-- Enumerates row-major coordinates, checking the size before materializing parameters. -/
def indices (shape : List ℕ) : Except Failure (List (List ℕ)) := do
  let count ← elementCount shape
  if count = 0 then .ok []
  else
    .ok (shape.foldl (fun indices dimension =>
      indices.flatMap fun index => (List.range dimension).map fun i => index ++ [i]) [[]])

mutual

/-- Flattens a constant array after checking its declared shape, including empty dimensions. -/
def arrayScalars : ConstantValue → List ℕ → Except Failure (List ℕ)
  | .scalar value, [] => .ok [value]
  | .array values, dimension :: rest =>
    if values.length = dimension then allScalars values rest
    else .error (.error "constant array argument does not match its known shape")
  | _, _ => .error (.error "constant array argument does not match its known shape")

def allScalars : List ConstantValue → List ℕ → Except Failure (List ℕ)
  | [], _ => .ok []
  | value :: values, shape => do
    let scalars ← arrayScalars value shape
    let rest ← allScalars values shape
    .ok (scalars ++ rest)

end

/-- A uniform array of zeros that keeps the dimensions of an array without elements. -/
def zeroArray (info : Meta) (shape : List ℕ) : Expression :=
  shape.foldr (fun (dimension : ℕ) value => .uniformArray info value (.number info (dimension : ℤ)))
    (.number info 0)

/-- Calls a reader of the elements again and again. -/
def readTimes (read : List Expression → Except Failure (Expression × List Expression)) :
    ℕ → List Expression → Except Failure (List Expression × List Expression)
  | 0, elements => .ok ([], elements)
  | n + 1, elements => do
    let (value, elements) ← read elements
    let (values, elements) ← readTimes read n elements
    .ok (value :: values, elements)

/-- Reconstructs an array from row-major scalar expressions, preserving zero-sized dimensions. The second
component of the result are the elements that were not consumed. -/
def arrayInitializer (info : Meta) :
    List ℕ → List Expression → Except Failure (Expression × List Expression)
  | [], element :: elements => .ok (element, elements)
  | [], [] => .error (.error "missing constant array element")
  | dimension :: rest, elements =>
    if dimension = 0 then .ok (zeroArray info (0 :: rest), elements)
    else do
      let (values, elements) ← readTimes (arrayInitializer info rest) dimension elements
      .ok (.arrayInLine info values, elements)

/-! ## Fixed-shape array template parameters as scalars -/

/-- Lexically visible variable shapes; `none` means the shape is not statically known. -/
abbrev Shapes := HashMap String (Option (List ℕ))

/-- Original template name, array shapes, and bound values in formal parameter order. -/
structure Specialization where
  id : String
  shapes : List (Option (List ℕ))
  values : List (Option ConstantValue)
  deriving DecidableEq

/-- Bounds expansion before nonterminating recursion can exhaust the compiler's stack. -/
def maxRecursiveDepth : ℕ := 128

/-- Bounds speculative loop expansion, including nested iterations. -/
def maxLoopSteps : ℕ := 10000

inductive Interruption where
  | unresolvedLoop
  | expandRecursion (id : String)
  | bindArrayValues (id : String)
  | failed (failure : Failure)
  | outOfFuel

/-- What is fixed during an attempt. -/
structure Attempt where
  originals : HashMap String TemplateData
  functions : FunctionInfo
  prime : ℕ
  /-- Array recursion and its callers need scalar bindings to resolve a finite child graph. -/
  expanded : Finset String
  /-- Known array contents are bound only when scalar expansion could not resolve recursion. -/
  boundArrays : Finset String

/-- What changes while the reachable template graph is rebuilt. -/
structure Preparation where
  templates : HashMap String TemplateData
  specializations : HashMap Specialization String
  active : Finset Specialization
  /-- Active reentries into a template, excluding first visits through acyclic callers. -/
  recursiveDepth : ℕ
  /-- Speculative loop expansion defers constructors and shares one budget across nested loops. -/
  loopBudget : Option ℕ

abbrev Prepares := StateT Preparation (Except Interruption)

def orFailed {α : Type} : Except Failure α → Except Interruption α
  | .ok a => .ok a
  | .error failure => .error (.failed failure)

def prepared {α : Type} (result : Except Failure α) : Prepares α := liftM (orFailed result)

def interrupt {α : Type} (interruption : Interruption) : Prepares α := throw interruption

/-! ## Shapes -/

def isArrayAccess : Access → Bool
  | .arrayAccess _ => true
  | .componentAccess _ => false

section Shape

variable (attempt : Attempt)

/-- `BigUint::to_i64` followed by `usize::try_from`. -/
def toDimension (n : ℕ) : Option ℕ := if n < 2 ^ 63 then some n else none

/-- Resolves dimensions using the scalar bindings available at this point in the caller. -/
def dimension (constants : Constants) (expr : Expression) : Except Failure (Option ℕ) := do
  let value ← value attempt.prime attempt.functions expr constants
  .ok (value.bind toDimension)

/-- Gives synthesized array initializers the fixed dimensions of their declarations. -/
def bindUniformDimensions (constants : Constants) : Expression → Except Failure Expression
  | .uniformArray info value length => do
    let bound ← dimension attempt constants length
    let value ← bindUniformDimensions constants value
    .ok (.uniformArray info value
      (match bound with
        | some n => .number length.getMeta (n : ℤ)
        | none => length))
  | expr => .ok expr

variable (shapes : Shapes) (constants : Constants)

mutual

/-- A statically known shape; an empty shape denotes a scalar. -/
def shape : Expression → Except Failure (Option (List ℕ))
  | .number .. => .ok (some [])
  | .infixOp .. => .ok (some [])
  | .prefixOp .. => .ok (some [])
  | .var _ name access =>
    match shapes.lookup name with
    | some (some shape) =>
      if access.all isArrayAccess ∧ access.length ≤ shape.length then
        .ok (some (shape.drop access.length))
      else .ok none
    | _ => .ok none
  | .arrayInLine _ values => do
    let element ← elementShape none values
    .ok (element.map fun element => values.length :: element.getD [])
  | .uniformArray _ value length => do
    let length ← dimension attempt constants length
    let element ← shape value
    .ok (match length, element with
      | some length, some element => some (length :: element)
      | _, _ => none)
  | .inlineSwitchOp _ _ ifTrue ifFalse => do
    let first ← shape ifTrue
    let second ← shape ifFalse
    .ok (if first = second then first else none)
  | _ => .ok none

/-- The common shape of the elements of an array, `some none` if there is no element. -/
def elementShape : Option (List ℕ) → List Expression → Except Failure (Option (Option (List ℕ)))
  | known, [] => .ok (some known)
  | known, value :: values => do
    match ← shape value with
    | none => .ok none
    | some element =>
      if known.any (· ≠ element) then .ok none else elementShape (some element) values

end

end Shape

/-! ## Names and signatures -/

def numbersSuffix : List ℕ → String
  | [] => ""
  | n :: ns => "_" ++ toString n ++ numbersSuffix ns

/-- The shapes that are known, with their positions. -/
def shapesSuffix (position : ℕ) : List (Option (List ℕ)) → String
  | [] => ""
  | none :: shapes => shapesSuffix (position + 1) shapes
  | some shape :: shapes =>
    "$" ++ toString position ++ numbersSuffix shape ++ shapesSuffix (position + 1) shapes

/-- The values that are bound, with their positions. -/
def valuesSuffix (shapes : List (Option (List ℕ))) (position : ℕ) :
    List (Option ConstantValue) → Except Failure String
  | [] => .ok ""
  | none :: values => valuesSuffix shapes (position + 1) values
  | some (.scalar value) :: values => do
    let rest ← valuesSuffix shapes (position + 1) values
    .ok ("$" ++ toString position ++ "_" ++ toString value ++ rest)
  | some (.array elements) :: values =>
    match shapes[position]? with
    | some (some shape) => do
      let scalars ← arrayScalars (.array elements) shape
      let rest ← valuesSuffix shapes (position + 1) values
      .ok ("$" ++ toString position ++ "_array" ++ numbersSuffix scalars ++ rest)
    | some none => .error (.error "constant array argument has no known shape")
    | none => .error .panicked

def Specialization.arraysSuffix (key : Specialization) : String :=
  if key.shapes.any Option.isSome then "$arrays" ++ shapesSuffix 0 key.shapes else ""

def Specialization.boundSuffix (key : Specialization) : Except Failure String :=
  if key.values.any Option.isSome then do
    let suffix ← valuesSuffix key.shapes 0 key.values
    .ok ("$values" ++ suffix)
  else .ok ""

/-- The name of the specialized template. -/
def Specialization.name (key : Specialization) : Except Failure String := do
  let suffix ← key.boundSuffix
  .ok (key.id ++ key.arraysSuffix ++ suffix)

/-- The parameters of a specialized template, the statements that rebuild the formals, and what is known of
these at the beginning of the body. -/
structure Signature where
  params : List String
  preamble : List Statement
  shapes : Shapes
  constants : Constants

def Signature.empty : Signature := ⟨[], [], ∅, ∅⟩

/-- The declaration of a formal and its initial value. -/
def initialization (info : Meta) (formal : String) (shape : List ℕ) (rhe : Expression) :
    List Statement :=
  [.declaration info .var formal (shape.map fun dimension : ℕ => .number info (dimension : ℤ)) false false,
    .substitution info formal [] .assignVar rhe]

def elementName (formal : String) (element : ℕ) : String :=
  "$array$" ++ formal ++ "$" ++ toString element

def Signature.bind (info : Meta) (signature : Signature) (formal : String) (shape : Option (List ℕ))
    (value : Option ConstantValue) : Except Failure Signature :=
  let shapes := signature.shapes.insert formal (some (shape.getD []))
  match shape, value with
  | some shape, some value => do
    let scalars ← arrayScalars value shape
    let (rhe, _) ← arrayInitializer info shape (scalars.map fun n : ℕ => .number info (n : ℤ))
    .ok ⟨signature.params, signature.preamble ++ initialization info formal shape rhe, shapes,
      signature.constants.insert formal value⟩
  | some shape, none => do
    let count ← elementCount shape
    let names := (List.range count).map (elementName formal)
    let (rhe, _) ← arrayInitializer info shape (names.map fun name => .var info name [])
    .ok ⟨signature.params ++ names, signature.preamble ++ initialization info formal shape rhe, shapes,
      signature.constants⟩
  | none, some (.scalar value) =>
    -- The fixed value is removed from the signature, so that callers cannot override the specialization.
    .ok ⟨signature.params,
      signature.preamble ++ initialization info formal [] (.number info (value : ℤ)), shapes,
      signature.constants.insert formal (.scalar value)⟩
  | none, _ =>
    .ok ⟨signature.params ++ [formal], signature.preamble, shapes, signature.constants⟩

def bindFormals (info : Meta) : Signature → List String → List (Option (List ℕ)) →
    List (Option ConstantValue) → Except Failure Signature
  | signature, formal :: formals, shape :: shapes, value :: values => do
    let signature ← signature.bind info formal shape value
    bindFormals info signature formals shapes values
  | signature, _, _, _ => .ok signature

/-! ## Constructors -/

section Call

variable (attempt : Attempt)

def parameterShapes (shapes : Shapes) (constants : Constants) (args : List Expression) :
    Except Failure (List (Option (List ℕ))) :=
  args.mapM fun arg => do
    let shape ← shape attempt shapes constants arg
    .ok (shape.filter fun shape => !shape.isEmpty)

def parameterValue (id : String) (constants : Constants) (arg : Expression)
    (shape : Option (List ℕ)) : Except Failure (Option ConstantValue) :=
  if id ∉ attempt.expanded then .ok none
  else if shape.isNone then do
    let value ← value attempt.prime attempt.functions arg constants
    .ok (value.map .scalar)
  else if id ∈ attempt.boundArrays then knownValue attempt.prime attempt.functions arg constants
  else .ok none

def parameterValues (id : String) (constants : Constants) :
    List Expression → List (Option (List ℕ)) → Except Failure (List (Option ConstantValue))
  | arg :: args, shape :: shapes => do
    let value ← parameterValue attempt id constants arg shape
    let values ← parameterValues id constants args shapes
    .ok (value :: values)
  | _, _ => .ok []

/-- The arguments that are not bound, arrays element by element. -/
def scalarArguments : List Expression → List (Option (List ℕ)) → List (Option ConstantValue) →
    Except Failure (List Expression)
  | arg :: args, shape :: shapes, value :: values =>
    match value, shape with
    | some _, _ => scalarArguments args shapes values
    | none, some shape => do
      let coordinates ← indices shape
      let elements ← coordinates.mapM (arrayElement arg)
      let rest ← scalarArguments args shapes values
      .ok (elements ++ rest)
    | none, none => do
      let rest ← scalarArguments args shapes values
      .ok (arg :: rest)
  | _, _, _ => .ok []

/-- The call of a template stands in for a specialization of it that is under way with other arrays. -/
def repeatsWithArrays (id : String) (shapes : List (Option (List ℕ))) (active : Finset Specialization) :
    Prop :=
  ∃ key ∈ active, key.id = id ∧ (shapes.any Option.isSome ∨ key.shapes.any Option.isSome)

instance (id : String) (shapes : List (Option (List ℕ))) (active : Finset Specialization) :
    Decidable (repeatsWithArrays id shapes active) := by
  unfold repeatsWithArrays
  infer_instance

/-- Rewrites a component constructor and flattens its known array arguments in caller scope. -/
def call (specialize : Specialization → Prepares String) (shapes : Shapes) (constants : Constants) :
    Expression → Prepares Expression
  | .parallelOp info rhe => do
    let rhe ← call specialize shapes constants rhe
    pure (.parallelOp info rhe)
  | .call info id args =>
    if id ∉ attempt.originals then pure (.call info id args)
    else do
      let shapes ← prepared (parameterShapes attempt shapes constants args)
      let preparation ← get
      if id ∉ attempt.expanded ∧ repeatsWithArrays id shapes preparation.active then
        interrupt (.expandRecursion id)
      else do
        let values ← prepared (parameterValues attempt id constants args shapes)
        let name ← specialize ⟨id, shapes, values⟩
        let args ← prepared (scalarArguments args shapes values)
        pure (.call info name args)
  | expr => pure expr

end Call

/-! ## Statements -/

/-- Conservatively forgets enclosing bindings written on any path through a loop. -/
structure Forgotten where
  constants : Constants
  locals : List String

mutual

def invalidateWrites : Statement → Forgotten → Forgotten
  | .declaration _ _ name .., forgotten => { forgotten with locals := name :: forgotten.locals }
  | .substitution _ var _ .assignVar _, forgotten =>
    if var ∈ forgotten.locals then forgotten
    else { forgotten with constants := forgotten.constants.erase var }
  | .block _ stmts, forgotten =>
    { forgotten with constants := (invalidateAllWrites stmts forgotten).constants }
  | .initializationBlock _ _ initializations, forgotten =>
    invalidateAllWrites initializations forgotten
  | .ifThenElse _ _ ifCase none, forgotten =>
    { forgotten with constants := (invalidateWrites ifCase forgotten).constants }
  | .ifThenElse _ _ ifCase (some elseCase), forgotten =>
    let forgotten := { forgotten with constants := (invalidateWrites ifCase forgotten).constants }
    { forgotten with constants := (invalidateWrites elseCase forgotten).constants }
  | .whileStmt _ _ stmt, forgotten =>
    { forgotten with constants := (invalidateWrites stmt forgotten).constants }
  | _, forgotten => forgotten

def invalidateAllWrites : List Statement → Forgotten → Forgotten
  | [], forgotten => forgotten
  | stmt :: stmts, forgotten => invalidateAllWrites stmts (invalidateWrites stmt forgotten)

end

mutual

/-- The declarations in this lexical scope (initialization groups do not open a scope). -/
def localDeclarations : Statement → List String
  | .declaration _ _ name .. => [name]
  | .initializationBlock _ _ initializations => allLocalDeclarations initializations
  | _ => []

def allLocalDeclarations : List Statement → List String
  | [] => []
  | stmt :: stmts => localDeclarations stmt ++ allLocalDeclarations stmts

end

/-- Preserves assignments to enclosing bindings without leaking local shadows. -/
def leaveBlock (shapes : Shapes) (shadowed : Saved String ConstantValue) (nested constants : Constants) :
    Constants :=
  shapes.keys.foldl (fun constants name =>
    match (shadowed.lookup name).getD (nested.lookup name) with
    | some value => constants.insert name value
    | none => constants.erase name) constants

/-- What both paths establish for enclosing bindings. -/
def joinConstants (shapes : Shapes) (thenConstants elseConstants : Constants) : Constants :=
  thenConstants.retain fun name value => name ∈ shapes ∧ elseConstants.lookup name = some value

/-- A single statement that preserves enclosing bindings by itself. -/
def wrapped? : List Statement → Option Statement
  | [.block info stmts] => some (.block info stmts)
  | [.substitution info var access op rhe] => some (.substitution info var access op rhe)
  | _ => none

/-- A visit of a statement while a loop is expanded. -/
def visit : Prepares Unit := do
  let preparation ← get
  match preparation.loopBudget with
  | none => pure ()
  | some 0 => interrupt .unresolvedLoop
  | some (remaining + 1) => set { preparation with loopBudget := some remaining }

/-- A rewritten statement with the shapes and constants behind it. -/
abbrev Walked := Statement × Shapes × Constants

section Statements

variable (attempt : Attempt) (resolveRecursion : Bool)

def declaredLength (constants : Constants) (expr : Expression) : Except Failure (Option ℕ) :=
  if resolveRecursion then dimension attempt constants expr
  else do
    let value ← tryComputeBiguint attempt.prime expr
    .ok (value.bind toDimension)

/-- The dimensions of a declaration up to one that is not known. -/
def declaredLengths (constants : Constants) :
    List Expression → Except Failure (List Expression × Option (List ℕ))
  | [] => .ok ([], some [])
  | expr :: dimensions => do
    let length ← declaredLength attempt resolveRecursion constants expr
    match length with
    | none => .ok (expr :: dimensions, none)
    | some n => do
      let (dimensions, shape) ← declaredLengths constants dimensions
      .ok ((if resolveRecursion then .number expr.getMeta (n : ℤ) else expr) :: dimensions,
        shape.map (n :: ·))

/-- The dimensions of a declaration and the shape of what is declared. -/
def declaredVariable (xtype : VariableType) (constants : Constants) (dimensions : List Expression) :
    Except Failure (List Expression × Option (List ℕ)) :=
  if xtype = .var then declaredLengths attempt resolveRecursion constants dimensions
  else .ok (dimensions, none)

def boundInitializer (constants : Constants) (rhe : Expression) : Except Failure Expression :=
  if resolveRecursion then bindUniformDimensions attempt constants rhe else .ok rhe

def assignedConstants (var : String) (access : List Access) (op : AssignOp) (rhe : Expression)
    (constants : Constants) : Except Failure Constants :=
  if resolveRecursion ∧ op = .assignVar then
    assign attempt.prime attempt.functions var access rhe constants
  else .ok constants

def knownCondition (constants : Constants) (cond : Expression) : Except Failure (Option ℕ) :=
  if resolveRecursion then value attempt.prime attempt.functions cond constants else .ok none

variable (specialize : Specialization → Prepares String)
  (statement : Statement → Shapes → Constants → Prepares Walked)

/-- No constructor is specialized while a loop is expanded. -/
def construct (shapes : Shapes) (constants : Constants) (rhe : Expression) : Prepares Expression := do
  let preparation ← get
  if preparation.loopBudget.isNone then call attempt specialize shapes constants rhe else pure rhe

def substitution (var : String) (access : List Access) (op : AssignOp) (rhe : Expression)
    (shapes : Shapes) (constants : Constants) : Prepares (Expression × Constants) := do
  let rhe ← prepared (boundInitializer attempt resolveRecursion constants rhe)
  let rhe ← construct attempt specialize shapes constants rhe
  let constants ← prepared (assignedConstants attempt resolveRecursion var access op rhe constants)
  pure (rhe, constants)

/-- The statements of a block. A block may write an outer variable before declaring a shadow: its value is
saved at the declaration, not at entry to the block. -/
def blockStatements : List Statement → Shapes → Constants → Saved String ConstantValue →
    Prepares (List Statement × Constants × Saved String ConstantValue)
  | [], _, constants, shadowed => pure ([], constants, shadowed)
  | stmt :: stmts, shapes, constants, shadowed => do
    let shadowed := (localDeclarations stmt).foldl
      (fun (shadowed : Saved String ConstantValue) name => shadowed.save constants name) shadowed
    let (stmt, shapes, constants) ← statement stmt shapes constants
    let (stmts, constants, shadowed) ← blockStatements stmts shapes constants shadowed
    pure (stmt :: stmts, constants, shadowed)

def initializations : List Statement → Shapes → Constants → Prepares (List Statement × Shapes × Constants)
  | [], shapes, constants => pure ([], shapes, constants)
  | stmt :: stmts, shapes, constants => do
    let (stmt, shapes, constants) ← statement stmt shapes constants
    let (stmts, shapes, constants) ← initializations stmts shapes constants
    pure (stmt :: stmts, shapes, constants)

/-- The iterations of a loop that is expanded. -/
def iterations (cond : Expression) (body : Statement) (shapes : Shapes) :
    ℕ → Constants → Prepares (List Statement × Constants)
  | 0, _ => interrupt .outOfFuel
  | fuel + 1, constants => do
    let condition ← prepared (value attempt.prime attempt.functions cond constants)
    match condition with
    | none => interrupt .unresolvedLoop
    | some condition =>
      if condition = 0 then pure ([], constants)
      else do
        let (stmt, _, constants) ← statement (.block body.getMeta [body]) shapes constants
        let (stmts, constants) ← iterations cond body shapes fuel constants
        pure (stmt :: stmts, constants)

/-- Proves termination and expands nested loops before any calls are specialized. A failed probe leaves both
the statement and the preparation intact. -/
def probe (stmt : Statement) (shapes : Shapes) (constants : Constants) : Prepares (Option Statement) :=
  fun preparation =>
    match (statement stmt shapes constants).run { preparation with loopBudget := some maxLoopSteps } with
    | .ok ((expanded, _), after) => .ok (some expanded, { after with loopBudget := none })
    | .error .unresolvedLoop => .ok (none, preparation)
    | .error interruption => .error interruption

/-- Walks a loop body that can execute more than once: no call is specialized with a value that is only
known before the first iteration. -/
def loopBody (info : Meta) (cond : Expression) (body : Statement) (shapes : Shapes)
    (constants : Constants) : Prepares Walked := do
  let constants := (invalidateWrites body ⟨constants, []⟩).constants
  let (body, _) ← statement body shapes constants
  pure (.whileStmt info cond body, shapes, constants)

end Statements

section Recursion

variable (attempt : Attempt)

/-- Tracks declaration shapes while rewriting constructors without leaking nested bindings. -/
def statement (specialize : Specialization → Prepares String) (resolveRecursion : Bool) :
    ℕ → Statement → Shapes → Constants → Prepares Walked
  | 0, _, _, _ => interrupt .outOfFuel
  | fuel + 1, stmt, shapes, constants => do
    visit
    match stmt with
    | .block info stmts =>
      match wrapped? stmts with
      | some inner => do
        let (inner, shapes, constants) ← statement specialize resolveRecursion fuel inner shapes constants
        pure (.block info [inner], shapes, constants)
      | none => do
        let (stmts, nested, shadowed) ←
          blockStatements (statement specialize resolveRecursion fuel) stmts shapes constants ∅
        pure (.block info stmts, shapes, leaveBlock shapes shadowed nested constants)
    | .initializationBlock info xtype inits => do
      let (inits, shapes, constants) ←
        initializations (statement specialize resolveRecursion fuel) inits shapes constants
      pure (.initializationBlock info xtype inits, shapes, constants)
    | .declaration info xtype name dimensions isConstant isAnonymous => do
      let (dimensions, shape) ←
        prepared (declaredVariable attempt resolveRecursion xtype constants dimensions)
      pure (.declaration info xtype name dimensions isConstant isAnonymous, shapes.insert name shape,
        constants.erase name)
    | .substitution info var access op rhe => do
      let (rhe, constants) ←
        substitution attempt resolveRecursion specialize var access op rhe shapes constants
      pure (.substitution info var access op rhe, shapes, constants)
    | .ifThenElse info cond ifCase elseCase => do
      let condition ← prepared (knownCondition attempt resolveRecursion constants cond)
      match condition with
      | some condition =>
        -- An if branch introduces a scope even without explicit braces.
        let selected := if condition ≠ 0 then [ifCase] else elseCase.toList
        statement specialize resolveRecursion fuel (.block info selected) shapes constants
      | none => do
        let (ifCase, _, thenConstants) ← statement specialize resolveRecursion fuel ifCase shapes constants
        match elseCase with
        | none =>
          pure (.ifThenElse info cond ifCase none, shapes, joinConstants shapes thenConstants constants)
        | some elseCase => do
          let (elseCase, _, elseConstants) ←
            statement specialize resolveRecursion fuel elseCase shapes constants
          pure (.ifThenElse info cond ifCase (some elseCase), shapes,
            joinConstants shapes thenConstants elseConstants)
    | .whileStmt info cond body => do
      let preparation ← get
      if resolveRecursion then
        match preparation.loopBudget with
        | some _ => do
          let (stmts, constants) ← iterations attempt (statement specialize resolveRecursion fuel) cond body
            shapes fuel constants
          pure (.block info stmts, shapes, constants)
        | none => do
          let expanded ←
            probe (statement specialize resolveRecursion fuel) (.whileStmt info cond body) shapes constants
          match expanded with
          | some expanded => statement specialize resolveRecursion fuel expanded shapes constants
          | none => loopBody (statement specialize resolveRecursion fuel) info cond body shapes constants
      else loopBody (statement specialize resolveRecursion fuel) info cond body shapes constants
    | stmt => pure (stmt, shapes, constants)

/-! ## Specializations -/

/-- An incomplete expanded specialization must not be reused as a circular struct member. -/
def checkActive (key : Specialization) : Prepares Unit := do
  let preparation ← get
  if key.id ∈ attempt.expanded ∧ key ∈ preparation.active then
    if key.id ∉ attempt.boundArrays then interrupt (.bindArrayValues key.id)
    else interrupt (.failed (.error ("recursive template specialization repeats at " ++ key.id ++
      "; recursion needs a statically resolvable terminating base case")))

/-- An expanded template is entered again. -/
def Attempt.isRecursive (key : Specialization) (active : Finset Specialization) : Bool :=
  key.id ∈ attempt.expanded ∧ ∃ other ∈ active, other.id = key.id

def checkDepth (key : Specialization) : Prepares Unit := do
  let preparation ← get
  if attempt.isRecursive key preparation.active ∧ maxRecursiveDepth ≤ preparation.recursiveDepth then
    if key.id ∉ attempt.boundArrays then interrupt (.bindArrayValues key.id)
    else interrupt (.failed (.error ("recursive template specialization depth limit (128) exceeded at " ++
      key.id)))

/-- What is known of a template and of its specialization before the body is walked. -/
structure Opened where
  old : TemplateData
  name : String
  signature : Signature

/-- The checks of a new specialization, and its name and signature. -/
def Attempt.openTemplate (key : Specialization) : Except Failure Opened :=
  match attempt.originals.lookup key.id with
  | none => .error .panicked
  | some old =>
    if old.nameOfParams.length ≠ key.shapes.length then
      .error (.error ("incorrect parameter count for template " ++ key.id))
    else do
      let name ← key.name
      if name ≠ key.id ∧ name ∈ attempt.originals then
        .error (.error ("template specialization name collision: " ++ name))
      else do
        let signature ← bindFormals old.body.getMeta .empty old.nameOfParams key.shapes key.values
        .ok ⟨old, name, signature⟩

/-- The specialized template with the rewritten body. -/
def Opened.close (opened : Opened) (key : Specialization) : Statement → Except Failure TemplateData
  | .block info stmts =>
    .ok ⟨opened.name, opened.old.fileId, .block info (opened.signature.preamble ++ stmts),
      opened.signature.params, opened.old.isParallel, opened.old.isCustomGate, opened.old.isExternC⟩
  | _ => .error (.error ("template " ++ key.id ++ " body is not a block"))

/-- The specialization is under way. -/
def Preparation.enter (preparation : Preparation) (key : Specialization) (name : String)
    (recursive : Bool) : Preparation :=
  { preparation with
    recursiveDepth := preparation.recursiveDepth + recursive.toNat
    active := insert key preparation.active
    specializations := preparation.specializations.insert key name }

/-- The specialization is complete. -/
def Preparation.leave (preparation : Preparation) (key : Specialization) (name : String)
    (template : TemplateData) (recursive : Bool) : Preparation :=
  { preparation with
    templates := preparation.templates.insert name template
    active := preparation.active.erase key
    recursiveDepth := preparation.recursiveDepth - recursive.toNat }

/-- Rebuilds a template with the walker of its statements. -/
def specializeNew (walk : Bool → Statement → Shapes → Constants → Prepares Walked)
    (key : Specialization) : Prepares String := do
  let preparation ← get
  let recursive := attempt.isRecursive key preparation.active
  let opened ← prepared (attempt.openTemplate key)
  set (preparation.enter key opened.name recursive)
  let (body, _) ← walk (key.id ∈ attempt.expanded) opened.old.body opened.signature.shapes
    opened.signature.constants
  let template ← prepared (opened.close key body)
  modify fun preparation => preparation.leave key opened.name template recursive
  pure opened.name

/-- Creates or reuses a template with scalar element formals and reconstructed array locals. -/
def specialize (fuel : ℕ) : ℕ → Specialization → Prepares String
  | 0, _ => interrupt .outOfFuel
  | nesting + 1, key => do
    checkActive attempt key
    let preparation ← get
    match preparation.specializations.lookup key with
    | some name => pure name
    | none => do
      checkDepth attempt key
      specializeNew attempt
        (fun resolveRecursion => statement attempt (specialize fuel nesting) resolveRecursion fuel) key

end Recursion

/-! ## The pass -/

structure ProgramArchive where
  templates : HashMap String TemplateData
  functions : FunctionInfo
  initialTemplateCall : Expression

def ProgramArchive.attempt (program : ProgramArchive) (prime : ℕ) (expanded boundArrays : Finset String) :
    Attempt :=
  ⟨program.templates, program.functions, prime, expanded, boundArrays⟩

def Preparation.empty : Preparation := ⟨∅, ∅, ∅, 0, none⟩

/-- One round of the loop of `prepare`. -/
def Attempt.run (attempt : Attempt) (fuel nesting : ℕ) (main : Expression) :
    Except Interruption (Expression × Preparation) :=
  (call attempt (specialize attempt fuel nesting) ∅ ∅ main).run .empty

/-- Scalarizes array arguments before template declarations and types are collected. The names in the last
two arguments are what earlier rounds found. -/
def prepareFrom (program : ProgramArchive) (prime fuel nesting : ℕ) :
    ℕ → Finset String → Finset String → Except Interruption ProgramArchive
  | 0, _, _ => .error .outOfFuel
  | rounds + 1, expanded, boundArrays =>
    let attempt := program.attempt prime expanded boundArrays
    match attempt.run fuel nesting program.initialTemplateCall with
    | .ok (main, preparation) => .ok ⟨preparation.templates, program.functions, main⟩
    | .error (.expandRecursion id) =>
      match callersOf program.templates fuel id with
      | some callers => prepareFrom program prime fuel nesting rounds (expanded ∪ callers) boundArrays
      | none => .error .outOfFuel
    | .error (.bindArrayValues id) =>
      match callersOf program.templates fuel id with
      | some callers => prepareFrom program prime fuel nesting rounds expanded (boundArrays ∪ callers)
      | none => .error .outOfFuel
    | .error interruption => .error interruption

/-- The same bound is used for the rounds and for every recursion. -/
def prepare (fuel : ℕ) (program : ProgramArchive) (prime : ℕ) : Except Interruption ProgramArchive :=
  prepareFrom program prime fuel fuel fuel ∅ ∅

end Circom.LlzkBackend
