import Circom.Ast.Ast
import Circom.Lib.Outcomes

/-!
# The execution of statements and expressions

The control flow of `execute.rs` in the crate `constraint_generation`: which statements and expressions are
executed in which order, and what happens to the stack of unknown conditions. The parts of the source that
neither execute anything nor change this stack are functions of `Parts`, and what they work on (environments,
nodes, reports) is the field `rest` of the runtime. Debug assertions are left out. The nesting of executions and
the iterations of a loop are bounded by fuel. The events are not part of the source: they record with which stack
each statement starts and ends, and how the loops go on.
-/

namespace Circom.ConstraintGeneration

open Circom.Ast
open Circom.Lib

inductive BlockType where
  | known
  | unknown
  deriving DecidableEq, Repr

/-- The entries of `conditions_state`, the last one is on top. -/
abbrev Conditions := List (ℕ × Bool)

/-- What is observed of a run: a statement is reached or left, with the entries of the conditionals and loops
around it and with the stack; the condition of a loop has been evaluated after some iterations; a loop is left by
a `return`. -/
inductive Event where
  | reached (enclosing conditions : Conditions)
  | left (enclosing conditions : Conditions)
  | evaluated (iteration : ℕ) (value : Option Bool)
  | returned
  deriving DecidableEq, Repr

structure Runtime (R : Type) where
  blockType : BlockType
  conditionsState : Conditions
  unknownCounter : ℕ
  rest : R

/-- An error with its reports, or a panic. -/
inductive Fault where
  | error
  | panicked
  deriving DecidableEq, Repr

inductive Stop where
  | fault (fault : Fault)
  /-- `conditions_state.len() - 1` on an empty stack. -/
  | underflow
  | outOfFuel
  deriving DecidableEq, Repr

/-- The runtime is changed in place, also by what fails. -/
abbrev Executes (R α : Type) := Traced (Runtime R) Event Stop α

/-- A part of the source that executes nothing. It may read the type of the block. -/
abbrev Leaf (R α : Type) := BlockType → R → Except Fault α × R

structure AccessingInformation (E : Type) where
  beforeSignal : List E
  signalAccess : Option String
  afterSignal : List E
  tagAccess : Option String

/-- The indices before each field, and the field. -/
abbrev AccessingInformationBus (E : Type) := List (List E × Option String)

inductive TypesAccess (E : Type) where
  | bus (access : AccessingInformationBus E)
  | other (access : AccessingInformation E)

/-- `field_access.is_none()`: the access is to a component itself and not to one of its inputs. -/
def TypesAccess.isComponent {E : Type} : TypesAccess E → Bool
  | .bus ((_, none) :: _) => true
  | _ => false

/-- A component with the template that has been assigned to it, its arguments, and the tags of its inputs. -/
structure PreinitializedComponent (S T : Type) where
  isInitialized : Bool
  /-- The inputs with tags that have no value. -/
  unassignedTags : List (List String)
  templateName : String
  parameterInstances : List S
  inputsTags : T

def PreinitializedComponent.isReadyInitialize {S T : Type} (self : PreinitializedComponent S T) : Bool :=
  self.unassignedTags.isEmpty

/-- What an assignment ends with: the slices it equates, and the component if it was to one or to an input of one. -/
structure Assignment (S T D : Type) where
  constrained : Option D
  component : Option (PreinitializedComponent S T)

/-- The parts of the executor with the types of its folded values, arithmetic expressions, slices, tags and
constrained slices. -/
structure Parts (R V E S T D : Type) where
  -- Folded values.
  single : V → Option E
  slice : V → Option S
  nodePointer : V → Option V
  getBooleanEquivalence : R → E → Option Bool
  castIndex : E → Option ℕ
  biggestReturn : V → V → Option V
  -- The program archive.
  containsFunction : String → Bool
  containsTemplate : String → Bool
  containsBus : String → Bool
  functionBody : String → List Statement
  templateBody : String → List Statement
  busBody : String → List Statement
  -- The environment and the analysis.
  hasSignal : R → String → Bool
  hasComponent : R → String → Bool
  hasVariable : R → String → Bool
  hasBus : R → String → Bool
  anonymousComponents : R → List (String × Meta × List Expression)
  addVariableBlock : R → R
  removeVariableBlock : R → R
  reached : Meta → R → R
  computed : Meta → Bool → V → R → R
  -- Calls: the environment of the callee, and the return to the one of the caller.
  enterCall : String → List S → R → R
  leaveCall : R → R → R
  isKnownArgument : Meta → S → Leaf R Unit
  preexecuteTemplateCall : String → List S → Leaf R V
  identifyNode : String → List S → T → Leaf R (Option V)
  addNodeToScheme : String → List S → T → Leaf R V
  identifyBusNode : String → List S → Leaf R (Option V)
  addBusNodeToScheme : String → List S → Leaf R V
  -- Expressions.
  number : ℤ → V
  nonQuadratic : V
  executeVariable : Meta → String → AccessingInformation E → Leaf R V
  executeSignal : Meta → String → AccessingInformation E → Leaf R V
  executeComponent : Meta → String → AccessingInformationBus E → Leaf R V
  executeBus : Meta → String → AccessingInformationBus E → Leaf R V
  validIndexing : Meta → List E → Leaf R Unit
  arrayInLine : Meta → List V → Leaf R V
  uniformArray : Meta → ℕ → V → Leaf R V
  executeInfixOp : Meta → ExpressionInfixOpcode → E → E → Leaf R V
  executePrefixOp : ExpressionPrefixOpcode → E → Leaf R V
  -- Statements.
  declareAnonymousComponent : Meta → String → List Expression → Leaf R Unit
  declare : Meta → VariableType → String → Bool → List E → Leaf R Unit
  declareInBus : Meta → VariableType → String → List E → Leaf R Unit
  addComponent : String → Meta → List E → Leaf R Unit
  performAssign : Meta → String → AssignOp → TypesAccess E → V → Conditions → Leaf R (Assignment S T D)
  initializeComponent : Meta → String → TypesAccess E → V → Leaf R Unit
  addConstraints : Meta → AssignOp → Option D → Leaf R Unit
  performAssignInBus : Meta → String → AssignOp → TypesAccess E → V → Conditions → Leaf R Unit
  checkKnownBlock : Meta → Leaf R Unit
  constraintEquality : Meta → V → V → Leaf R Unit
  returnValue : V → Leaf R V
  assertion : Meta → E → Leaf R Bool
  underscore : Meta → AssignOp → V → Leaf R Unit

/-- The executors one level of nesting below. -/
structure Executors (R V : Type) where
  expression : Expression → Executes R V
  statement : Conditions → Statement → Executes R (Option V × Bool)
  busStatement : Statement → Executes R Unit

variable {R V E S T D α : Type}

/-! ## The runtime -/

/-- `unwrap` of what a part returns. -/
def unwrap : Option α → Executes R α
  | some a => pure a
  | none => Traced.fail (.fault .panicked)

def leaf (part : Leaf R α) : Executes R α := fun runtime =>
  match part runtime.blockType runtime.rest with
  | (.ok a, rest) => (.ok a, { runtime with rest }, [])
  | (.error fault, rest) => (.error (.fault fault), { runtime with rest }, [])

def getRest : Executes R R := do
  let runtime ← Traced.get
  pure runtime.rest

def modifyRest (f : R → R) : Executes R Unit := Traced.modify fun runtime => { runtime with rest := f runtime.rest }

def getConditions : Executes R Conditions := do
  let runtime ← Traced.get
  pure runtime.conditionsState

def setConditions (conditions : Conditions) : Executes R Unit :=
  Traced.modify fun runtime => { runtime with conditionsState := conditions }

/-- Sets the type of the block and returns the previous one. -/
def replaceBlockType (blockType : BlockType) : Executes R BlockType := do
  let runtime ← Traced.get
  Traced.modify fun runtime => { runtime with blockType }
  pure runtime.blockType

/-- Pushes an entry with the unknown counter, and returns the entry. -/
def pushCondition : Executes R (ℕ × Bool) := do
  let runtime ← Traced.get
  let entry := (runtime.unknownCounter, true)
  setConditions (runtime.conditionsState ++ [entry])
  Traced.modify fun runtime => { runtime with unknownCounter := runtime.unknownCounter + 1 }
  pure entry

/-- `pop` of an empty stack does nothing. -/
def popCondition : Executes R Unit :=
  Traced.modify fun runtime => { runtime with conditionsState := runtime.conditionsState.dropLast }

/-- Sets the branch of the last entry to false. -/
def negateLastCondition : Executes R Unit := do
  let conditions ← getConditions
  match conditions.getLast? with
  | none => Traced.fail .underflow
  | some entry => setConditions (conditions.dropLast ++ [(entry.1, false)])

/-! ## Accesses -/

/-- The array accesses before each component access, and those behind the last one. -/
def accessGroups : List Access → List (List Expression × Option String)
  | [] => [([], none)]
  | .componentAccess name :: access => ([], some name) :: accessGroups access
  | .arrayAccess index :: access =>
    match accessGroups access with
    | [] => [([index], none)]
    | (indices, name) :: groups => (index :: indices, name) :: groups

section Expressions

variable (parts : Parts R V E S T D) (executors : Executors R V)

/-- Executes expressions whose values are single arithmetic expressions. -/
def executeSingles : List Expression → Executes R (List E)
  | [] => pure []
  | expr :: exprs => do
    let folded ← executors.expression expr
    let value ← unwrap (parts.single folded)
    let values ← executeSingles exprs
    pure (value :: values)

def treatAccessing (info : Meta) (access : List Access) : Executes R (AccessingInformation E) := do
  let (before, signalAccess) := (accessGroups access).headD ([], none)
  let (after, tagAccess) := (accessGroups access).tail.headD ([], none)
  let beforeSignal ← executeSingles parts executors before
  let afterSignal ← executeSingles parts executors after
  leaf (parts.validIndexing info beforeSignal)
  leaf (parts.validIndexing info afterSignal)
  pure ⟨beforeSignal, signalAccess, afterSignal, tagAccess⟩

def treatAccessingBus (info : Meta) :
    List (List Expression × Option String) → Executes R (AccessingInformationBus E)
  | [] => pure []
  | (indices, fieldAccess) :: groups => do
    let arrayAccess ← executeSingles parts executors indices
    leaf (parts.validIndexing info arrayAccess)
    let remainingAccess ← treatAccessingBus info groups
    pure ((arrayAccess, fieldAccess) :: remainingAccess)

/-! ## Sequences and calls -/

/-- The anonymous components of a template are declared at its end. -/
def executeDelayedDeclarations : List (String × Meta × List Expression) → Executes R Unit
  | [] => pure ()
  | (name, info, dimensions) :: components => do
    let values ← executeSingles parts executors dimensions
    leaf (parts.addComponent name info values)
    executeDelayedDeclarations components

def executeSequenceOfStatements (enclosing : Conditions) (isCompleteTemplate : Bool) :
    List Statement → Bool → Executes R (Option V × Bool)
  | [], canBeSimplified => do
    if isCompleteTemplate then
      let rest ← getRest
      executeDelayedDeclarations parts executors (parts.anonymousComponents rest)
    pure (none, canBeSimplified)
  | stmt :: stmts, canBeSimplified => do
    let (value, canSimplify) ← executors.statement enclosing stmt
    match value with
    | some value => pure (some value, canBeSimplified && canSimplify)
    | none => executeSequenceOfStatements enclosing isCompleteTemplate stmts (canBeSimplified && canSimplify)

def executeSequenceOfBusStatements : List Statement → Executes R Unit
  | [] => pure ()
  | stmt :: stmts => do
    executors.busStatement stmt
    executeSequenceOfBusStatements stmts

/-- The body of a function is executed without the conditions of its caller. -/
def executeFunctionCall (id : String) : Executes R (V × Bool) := do
  let previousConditions ← getConditions
  setConditions []
  let previousBlock ← replaceBlockType .known
  let (result, canBeSimplified) ←
    executeSequenceOfStatements parts executors [] true (parts.functionBody id) true
  let _ ← replaceBlockType previousBlock
  setConditions previousConditions
  let value ← unwrap result
  pure (value, canBeSimplified)

def executeArguments (info : Meta) (isTemplate : Bool) : List Expression → Executes R (List S)
  | [] => pure []
  | arg :: args => do
    let folded ← executors.expression arg
    let value ← unwrap (parts.slice folded)
    if isTemplate then leaf (parts.isKnownArgument info value)
    let values ← executeArguments info isTemplate args
    pure (value :: values)

/-- A part that is executed in the environment of the callee, as a known block. -/
def insideCall (id : String) (args : List S) (body : Executes R α) : Executes R α := do
  let before ← getRest
  modifyRest (parts.enterCall id args)
  let previousBlock ← replaceBlockType .known
  let result ← body
  modifyRest (parts.leaveCall before)
  let _ ← replaceBlockType previousBlock
  pure result

def executeCall (info : Meta) (id : String) (args : List Expression) : Executes R (V × Bool) := do
  let values ← executeArguments parts executors info (parts.containsTemplate id) args
  if parts.containsFunction id then
    insideCall parts id values (executeFunctionCall parts executors id)
  else do
    let value ← leaf (parts.preexecuteTemplateCall id values)
    pure (value, true)

def executeTemplateCall (enclosing : Conditions) (id : String) (args : List S) (tags : T) :
    Executes R V := do
  match ← leaf (parts.identifyNode id args tags) with
  | some value => pure value
  | none => do
    let _ ← executeSequenceOfStatements parts executors enclosing true (parts.templateBody id) true
    leaf (parts.addNodeToScheme id args tags)

/-- The body of a template is executed with the conditions of the assignment that makes its component ready. -/
def executeTemplateCallComplete (enclosing : Conditions) (id : String) (args : List S) (tags : T) :
    Executes R V :=
  if parts.containsTemplate id then
    insideCall parts id args (executeTemplateCall parts executors enclosing id args tags)
  else Traced.fail (.fault .panicked)

def executeBusCall (id : String) (args : List S) : Executes R V := do
  match ← leaf (parts.identifyBusNode id args) with
  | some value => pure value
  | none => do
    executeSequenceOfBusStatements executors (parts.busBody id)
    leaf (parts.addBusNodeToScheme id args)

def executeBusCallComplete (info : Meta) (id : String) (args : List Expression) : Executes R V := do
  let values ← executeArguments parts executors info false args
  if parts.containsBus id then insideCall parts id values (executeBusCall parts executors id values)
  else Traced.fail (.fault .panicked)

/-! ## Expressions -/

/-- Executes expressions from the left to the right. -/
def executeAll : List Expression → Executes R (List V)
  | [] => pure []
  | expr :: exprs => do
    let folded ← executors.expression expr
    let rest ← executeAll exprs
    pure (folded :: rest)

def executeVariableExpression (info : Meta) (name : String) (access : List Access) : Executes R V := do
  let rest ← getRest
  if parts.hasSignal rest name then do
    let access ← treatAccessing parts executors info access
    leaf (parts.executeSignal info name access)
  else if parts.hasComponent rest name then do
    let access ← treatAccessingBus parts executors info (accessGroups access)
    leaf (parts.executeComponent info name access)
  else if parts.hasVariable rest name then do
    let access ← treatAccessing parts executors info access
    leaf (parts.executeVariable info name access)
  else if parts.hasBus rest name then do
    let access ← treatAccessingBus parts executors info (accessGroups access)
    leaf (parts.executeBus info name access)
  else Traced.fail (.fault .panicked)

/-- The value of an expression, and whether it can be simplified. -/
def executeExpressionCases : Expression → Executes R (V × Bool)
  | .number _ value => pure (parts.number value, true)
  | .var info name access => do
    let value ← executeVariableExpression parts executors info name access
    pure (value, true)
  | .arrayInLine info values => do
    let folded ← executeAll executors values
    let value ← leaf (parts.arrayInLine info folded)
    pure (value, true)
  | .uniformArray info value dimension => do
    let foldedDimension ← executors.expression dimension
    let arithmeticDimension ← unwrap (parts.single foldedDimension)
    let usableDimension ← unwrap (parts.castIndex arithmeticDimension)
    let folded ← executors.expression value
    let value ← leaf (parts.uniformArray info usableDimension folded)
    pure (value, true)
  | .infixOp info lhe infixOp rhe => do
    let lFold ← executors.expression lhe
    let rFold ← executors.expression rhe
    let lValue ← unwrap (parts.single lFold)
    let rValue ← unwrap (parts.single rFold)
    let value ← leaf (parts.executeInfixOp info infixOp lValue rValue)
    pure (value, true)
  | .prefixOp _ prefixOp rhe => do
    let folded ← executors.expression rhe
    let arithmeticValue ← unwrap (parts.single folded)
    let value ← leaf (parts.executePrefixOp prefixOp arithmeticValue)
    pure (value, true)
  | .inlineSwitchOp _ cond ifTrue ifFalse => do
    let foldedCond ← executors.expression cond
    let aeCond ← unwrap (parts.single foldedCond)
    let rest ← getRest
    match parts.getBooleanEquivalence rest aeCond with
    | some boolCond => do
      let value ← executors.expression (if boolCond then ifTrue else ifFalse)
      pure (value, true)
    | none => pure (parts.nonQuadratic, true)
  | .call info id args => executeCall parts executors info id args
  | .busCall info id args => do
    let value ← executeBusCallComplete parts executors info id args
    pure (value, true)
  | .parallelOp _ rhe => do
    let folded ← executors.expression rhe
    let value ← unwrap (parts.nodePointer folded)
    pure (value, true)
  | .anonymousComp .. => Traced.fail (.fault .panicked)
  | .tuple .. => Traced.fail (.fault .panicked)

def executeExpression (expr : Expression) : Executes R V := do
  let (value, canBeSimplified) ← executeExpressionCases parts executors expr
  modifyRest (parts.computed expr.getMeta canBeSimplified value)
  pure value

/-! ## Statements -/

/-- The branch of an `else` when the condition is unknown, and the biggest of the values returned. -/
def executeElse (enclosing : Conditions) (entry : ℕ × Bool) (returned : Option V) (canSimplify : Bool)
    (elseStmt : Statement) : Executes R (Option V × Bool) := do
  negateLastCondition
  let (elseReturned, canSimplifyElse) ← executors.statement (enclosing ++ [(entry.1, false)]) elseStmt
  match returned, elseReturned with
  | none, _ => pure (elseReturned, canSimplify && canSimplifyElse)
  | some value, none => pure (some value, canSimplify && canSimplifyElse)
  | some value, some elseValue => do
    let biggest ← unwrap (parts.biggestReturn value elseValue)
    pure (some biggest, canSimplify && canSimplifyElse)

/-- Both branches are executed when the condition is unknown. -/
def executeUnknownBranches (enclosing : Conditions) (trueCase : Statement) (falseCase : Option Statement) :
    Executes R (Option V × Bool × Option Bool) := do
  let previousBlockType ← replaceBlockType .unknown
  let entry ← pushCondition
  let (returned, canSimplify) ← executors.statement (enclosing ++ [entry]) trueCase
  let (returned, canSimplify) ← match falseCase with
    | some elseStmt => executeElse parts executors enclosing entry returned canSimplify elseStmt
    | none => pure (returned, canSimplify)
  popCondition
  let _ ← replaceBlockType previousBlockType
  pure (returned, canSimplify, none)

def executeCondition (condition : Expression) : Executes R (Option Bool) := do
  let foldedCond ← executors.expression condition
  let aeCond ← unwrap (parts.single foldedCond)
  let rest ← getRest
  pure (parts.getBooleanEquivalence rest aeCond)

def executeBranch (enclosing : Conditions) (possibleCondBoolValue : Option Bool) (trueCase : Statement)
    (falseCase : Option Statement) : Executes R (Option V × Bool × Option Bool) :=
  match possibleCondBoolValue with
  | some true => do
    let (returned, canSimplify) ← executors.statement enclosing trueCase
    pure (returned, canSimplify, some true)
  | some false =>
    match falseCase with
    | some elseStmt => do
      let (returned, canSimplify) ← executors.statement enclosing elseStmt
      pure (returned, canSimplify, some false)
    | none => pure (none, true, some false)
  | none => executeUnknownBranches parts executors enclosing trueCase falseCase

/-- Returns the possible value returned, whether it can be simplified and the value of the condition. The condition
of a loop is observed, after the given iterations of it. -/
def executeConditionalStatement (iteration : Option ℕ) (enclosing : Conditions) (condition : Expression)
    (trueCase : Statement) (falseCase : Option Statement) : Executes R (Option V × Bool × Option Bool) := do
  let possibleCondBoolValue ← executeCondition parts executors condition
  match iteration with
  | some iteration => Traced.emit (.evaluated iteration possibleCondBoolValue)
  | none => pure ()
  executeBranch parts executors enclosing possibleCondBoolValue trueCase falseCase

/-- The loop of a `while`, whose entry has been pushed before. -/
def executeLoop (enclosing : Conditions) (cond : Expression) (stmt : Statement) :
    ℕ → ℕ → Bool → Executes R (Option V × Bool)
  | 0, _, _ => Traced.fail .outOfFuel
  | fuel + 1, iteration, canBeSimplified => do
    let (returned, canSimplify, conditionResult) ←
      executeConditionalStatement parts executors (some iteration) enclosing cond stmt none
    match returned, conditionResult with
    | some value, _ => do
      Traced.emit .returned
      pure (some value, canBeSimplified && canSimplify)
    | none, none => do
      let (returned, _, _) ←
        executeConditionalStatement parts executors (some (iteration + 1)) enclosing cond stmt none
      pure (returned, canBeSimplified && canSimplify)
    | none, some false => pure (none, canBeSimplified && canSimplify)
    | none, some true => do
      popCondition
      executeLoop enclosing cond stmt fuel (iteration + 1) (canBeSimplified && canSimplify)

def accessInformation (info : Meta) (var : String) (access : List Access) : Executes R (TypesAccess E) := do
  let rest ← getRest
  if parts.hasBus rest var || parts.hasComponent rest var then do
    let access ← treatAccessingBus parts executors info (accessGroups access)
    pure (.bus access)
  else do
    let access ← treatAccessing parts executors info access
    pure (.other access)

/-- A template without tagged inputs is executed when it is assigned to its component, another one when the last of
these inputs is assigned. -/
def performAssign (enclosing : Conditions) (info : Meta) (var : String) (op : AssignOp) (access : TypesAccess E)
    (rFolded : V) : Executes R (Option D) := do
  let conditions ← getConditions
  let assignment ← leaf (parts.performAssign info var op access rFolded conditions)
  match assignment.component with
  | none => pure assignment.constrained
  | some component => do
    if (access.isComponent || !component.isInitialized) && component.isReadyInitialize then
      let node ← executeTemplateCallComplete parts executors enclosing component.templateName
        component.parameterInstances component.inputsTags
      leaf (parts.initializeComponent info var access node)
    pure assignment.constrained

def executeLogArguments : List LogArgument → Executes R Unit
  | [] => pure ()
  | .logStr _ :: args => executeLogArguments args
  | .logExp arg :: args => do
    let folded ← executors.expression arg
    let _ ← unwrap (parts.single folded)
    executeLogArguments args

/-- The value returned by a statement, and whether it can be simplified. -/
def executeStatementCases (fuel : ℕ) (enclosing : Conditions) : Statement → Executes R (Option V × Bool)
  | .initializationBlock _ _ initializations => do
    let (returned, _) ← executeSequenceOfStatements parts executors enclosing false initializations true
    pure (returned, true)
  | .declaration info .anonymousComponent name dimensions _ _ => do
    leaf (parts.declareAnonymousComponent info name dimensions)
    pure (none, true)
  | .declaration info xtype name dimensions _ isAnonymous => do
    let values ← executeSingles parts executors dimensions
    leaf (parts.declare info xtype name isAnonymous values)
    pure (none, true)
  | .substitution info var access op rhe => do
    let access ← accessInformation parts executors info var access
    let rFolded ← executors.expression rhe
    let constrained ← performAssign parts executors enclosing info var op access rFolded
    leaf (parts.addConstraints info op constrained)
    pure (none, true)
  | .constraintEquality info lhe rhe => do
    leaf (parts.checkKnownBlock info)
    let fLeft ← executors.expression lhe
    let fRight ← executors.expression rhe
    leaf (parts.constraintEquality info fLeft fRight)
    pure (none, true)
  | .returnStmt _ value => do
    let folded ← executors.expression value
    let returned ← leaf (parts.returnValue folded)
    pure (some returned, true)
  | .ifThenElse _ cond ifCase elseCase => do
    let (returned, canSimplify, _) ←
      executeConditionalStatement parts executors none enclosing cond ifCase elseCase
    pure (returned, canSimplify)
  | .whileStmt _ cond stmt => do
    let entry ← pushCondition
    executeLoop parts executors (enclosing ++ [entry]) cond stmt fuel 0 true
  | .block _ stmts => do
    modifyRest parts.addVariableBlock
    let result ← executeSequenceOfStatements parts executors enclosing false stmts true
    modifyRest parts.removeVariableBlock
    pure result
  | .logCall _ args => do
    executeLogArguments parts executors args
    pure (none, false)
  | .assert info arg => do
    let folded ← executors.expression arg
    let value ← unwrap (parts.single folded)
    let canBeSimplified ← leaf (parts.assertion info value)
    pure (none, canBeSimplified)
  | .underscoreSubstitution info op rhe => do
    let folded ← executors.expression rhe
    leaf (parts.underscore info op folded)
    pure (none, true)
  | .multSubstitution .. => Traced.fail (.fault .panicked)

def executeStatement (fuel : ℕ) (enclosing : Conditions) (stmt : Statement) : Executes R (Option V × Bool) := do
  modifyRest (parts.reached stmt.getMeta)
  let before ← getConditions
  Traced.emit (.reached enclosing before)
  let result ← executeStatementCases parts executors fuel enclosing stmt
  let after ← getConditions
  Traced.emit (.left enclosing after)
  pure result

/-- A bus has no components, so that an assignment in it executes nothing. -/
def executeBusStatement (stmt : Statement) : Executes R Unit := do
  modifyRest (parts.reached stmt.getMeta)
  match stmt with
  | .initializationBlock _ _ initializations => executeSequenceOfBusStatements executors initializations
  | .declaration info xtype name dimensions _ _ => do
    let values ← executeSingles parts executors dimensions
    leaf (parts.declareInBus info xtype name values)
  | .substitution info var access op rhe => do
    let access ← accessInformation parts executors info var access
    let rFolded ← executors.expression rhe
    let conditions ← getConditions
    leaf (parts.performAssignInBus info var op access rFolded conditions)
  | .block _ stmts => executeSequenceOfBusStatements executors stmts
  | _ => Traced.fail (.fault .panicked)

end Expressions

/-- The executors with the nesting bounded by `fuel`. -/
def executorsUpTo (parts : Parts R V E S T D) : ℕ → Executors R V
  | 0 => ⟨fun _ => Traced.fail .outOfFuel, fun _ _ => Traced.fail .outOfFuel, fun _ => Traced.fail .outOfFuel⟩
  | fuel + 1 =>
    let executors := executorsUpTo parts fuel
    ⟨executeExpression parts executors, executeStatement parts executors fuel, executeBusStatement parts executors⟩

end Circom.ConstraintGeneration
