import Circom.Ast.Predicates
import Circom.ProgramStructure.CircomEnvironment

/-!
# The names of a program

How type reduction, type check and known/unknown analysis look up the names of a body. The environments of the three
passes hold different contents; here they hold the declarations themselves, so that it can be said which one is
found. Next to the environment goes what lexical scoping says: the declarations that are visible, and all that stand
before.
-/

namespace Circom.TypeAnalysis.NameResolution

open Circom.Ast
open Circom.ProgramStructure (RawEnvironment)

structure Declared where
  name : String
  xtype : VariableType
  /-- The number of declarations that stand before. -/
  number : ℕ
  deriving DecidableEq

inductive SymbolKind where
  | var
  | signal
  | component
  | bus
  deriving DecidableEq, Repr

namespace Declared

def kind (d : Declared) : SymbolKind :=
  match d.xtype with
  | .var => .var
  | .signal .. => .signal
  | .component => .component
  | .anonymousComponent => .component
  | .bus .. => .bus

/-- Whether a signal or bus is an input, an output or neither. -/
def signalType (d : Declared) : Option SignalType :=
  match d.xtype with
  | .signal type _ => some type
  | .bus _ type _ => some type
  | _ => none

end Declared

abbrev Environment := RawEnvironment Declared Declared Declared Declared

/-! ## Occurrences of names -/

def hasField (access : List Access) : Bool :=
  access.any fun acc => match acc with
    | .componentAccess _ => true
    | .arrayAccess _ => false

mutual

/-- The names in an expression, and whether a field of them is accessed. -/
def symbols : Expression → List (String × Bool)
  | .infixOp _ lhe _ rhe => symbols lhe ++ symbols rhe
  | .prefixOp _ _ rhe => symbols rhe
  | .inlineSwitchOp _ cond ifTrue ifFalse => symbols cond ++ symbols ifTrue ++ symbols ifFalse
  | .parallelOp _ rhe => symbols rhe
  | .var _ name access => (name, hasField access) :: symbolsAccess access
  | .call _ _ args => symbolsAll args
  | .busCall _ _ args => symbolsAll args
  | .arrayInLine _ values => symbolsAll values
  | .uniformArray _ value dimension => symbols value ++ symbols dimension
  | _ => []

def symbolsAll : List Expression → List (String × Bool)
  | [] => []
  | expr :: exprs => symbols expr ++ symbolsAll exprs

def symbolsAccess : List Access → List (String × Bool)
  | [] => []
  | .arrayAccess index :: access => symbols index ++ symbolsAccess access
  | .componentAccess _ :: access => symbolsAccess access

end

def symbolsLog : List LogArgument → List (String × Bool)
  | [] => []
  | .logExp arg :: args => symbols arg ++ symbolsLog args
  | .logStr _ :: args => symbolsLog args

/-- The statement has no statements inside and declares nothing. -/
def isSimple : Statement → Bool
  | .declaration .. | .initializationBlock .. | .block .. | .ifThenElse .. | .whileStmt .. => false
  | _ => true

/-- The names in a simple statement. -/
def statementSymbols : Statement → List (String × Bool)
  | .returnStmt _ value => symbols value
  | .substitution _ var access _ rhe => (var, hasField access) :: (symbolsAccess access ++ symbols rhe)
  | .underscoreSubstitution _ _ rhe => symbols rhe
  | .constraintEquality _ lhe rhe => symbols lhe ++ symbols rhe
  | .logCall _ args => symbolsLog args
  | .assert _ arg => symbols arg
  | _ => []

/-- A name in a body. Of the declarations the latest one comes first. -/
structure Occurrence where
  name : String
  hasField : Bool
  /-- The declarations that are visible by the block structure. -/
  scope : List Declared
  /-- The declarations that stand before. -/
  past : List Declared
  /-- The declaration in whose dimensions the name stands. -/
  dimensionOf : Option Declared := none

/-- The innermost declaration of the name. -/
def Occurrence.visible (o : Occurrence) : Option Declared := o.scope.find? fun d => d.name = o.name

/-- A name that is looked up in an environment. -/
structure Lookup where
  occurrence : Occurrence
  environment : Environment

structure State where
  scope : List Declared
  past : List Declared
  environment : Environment

/-- The names that stand at a place of the program. -/
def lookups (scope past : List Declared) (dimensionOf : Option Declared) (environment : Environment)
    (names : List (String × Bool)) : List Lookup :=
  names.map fun (name, hasField) => ⟨⟨name, hasField, scope, past, dimensionOf⟩, environment⟩

def State.lookups (s : State) (names : List (String × Bool)) : List Lookup :=
  NameResolution.lookups s.scope s.past none s.environment names

/-- The declaration that comes next. -/
def State.next (s : State) (name : String) (xtype : VariableType) : Declared := ⟨name, xtype, s.past.length⟩

def State.declare (s : State) (d : Declared) (environment : Environment) : State where
  scope := d :: s.scope
  past := d :: s.past
  environment := environment

/-! ## Type reduction and type check -/

inductive Pass where
  | typeReduction
  | typeCheck
  deriving DecidableEq

/-- `reduce_types_in_declaration` on the environment. -/
def reduceTypesInDeclaration (environment : Environment) (d : Declared) : Environment :=
  match d.xtype with
  | .var => environment.addVariable d.name d
  | .component => environment.addComponent d.name d
  | .anonymousComponent => environment.addComponent d.name d
  | .bus .. => environment.addBus .intermediate d.name d
  | .signal .. => environment.addSignal .intermediate d.name d

/-- The declaration of `type_statement` on the environment. -/
def typeDeclaration (environment : Environment) (d : Declared) : Environment :=
  match d.xtype with
  | .signal type _ => environment.addSignal type d.name d
  | .var => environment.addVariable d.name d
  | .component => environment.addComponent d.name d
  | .anonymousComponent => environment.addComponent d.name d
  | .bus _ type _ => environment.addBus type d.name d

namespace Pass

def declare : Pass → Environment → Declared → Environment
  | typeReduction => reduceTypesInDeclaration
  | typeCheck => typeDeclaration

/-- Where the dimensions of a declaration are looked up: type reduction has added the declaration before. -/
def atDimensions : Pass → Environment → Declared → Environment
  | typeReduction, environment, d => reduceTypesInDeclaration environment d
  | typeCheck, environment, _ => environment

/-- Type reduction has no blocks. -/
def enterBlock : Pass → Environment → Environment
  | typeReduction, environment => environment
  | typeCheck, environment => environment.addVariableBlock

def leaveBlock : Pass → Environment → Environment
  | typeReduction, environment => environment
  | typeCheck, environment => environment.removeVariableBlock

mutual

def walk (pass : Pass) : Statement → State → List Lookup × State
  | .declaration _ xtype name dimensions _ _, s =>
    let d := s.next name xtype
    (lookups s.scope s.past (some d) (pass.atDimensions s.environment d) (symbolsAll dimensions),
      s.declare d (pass.declare s.environment d))
  | .initializationBlock _ _ initializations, s => walkAll pass initializations s
  | .block _ stmts, s =>
    let (found, s') := walkAll pass stmts { s with environment := pass.enterBlock s.environment }
    (found, { s' with scope := s.scope, environment := pass.leaveBlock s'.environment })
  | .ifThenElse _ cond ifCase none, s =>
    let (found, s') := walk pass ifCase s
    (s.lookups (symbols cond) ++ found, s')
  | .ifThenElse _ cond ifCase (some elseCase), s =>
    let (found, s') := walk pass ifCase s
    let (found', s'') := walk pass elseCase s'
    (s.lookups (symbols cond) ++ found ++ found', s'')
  | .whileStmt _ cond stmt, s =>
    let (found, s') := walk pass stmt s
    (s.lookups (symbols cond) ++ found, s')
  | stmt, s => (s.lookups (statementSymbols stmt), s)

def walkAll (pass : Pass) : List Statement → State → List Lookup × State
  | [], s => ([], s)
  | stmt :: stmts, s =>
    let (found, s') := walk pass stmt s
    let (found', s'') := walkAll pass stmts s'
    (found ++ found', s'')

end

end Pass

/-- The parameters are variables. -/
def State.ofParams (params : List String) : State :=
  params.foldl (fun s name =>
    s.declare (s.next name .var) (s.environment.addVariable name (s.next name .var))) ⟨[], [], {}⟩

/-- What a pass looks up in the body of a template, function or bus. -/
def Pass.lookups (pass : Pass) (params : List String) (body : List Statement) : List Lookup :=
  (pass.walkAll body (.ofParams params)).1

/-! ## Known/unknown analysis -/

/-- Both branches keep the variables that were declared before. -/
def mergeBranches (left right : Environment) : Environment := left.merge right fun d _ => d

/-- The rounds over the body of a loop. -/
inductive Rounds (round : State → List Lookup → State → Prop) : State → List Lookup → State → Prop
  | last {s s' : State} {found : List Lookup} (h : round s found s') : Rounds round s found s'
  | again {s s' s'' : State} {found found' : List Lookup} (h : round s found s')
      (h' : Rounds round { s with environment := s'.environment } found' s'') :
      Rounds round s (found ++ found') s''

mutual

/-- The analysis of a statement finds the names and ends in the state. The branches of a conditional start with the
same environment, and a loop is analysed one or more times before its condition. -/
def Analyzes : Statement → State → List Lookup → State → Prop
  | .declaration _ xtype name dimensions _ _, s, found, s' =>
    let d := s.next name xtype
    let environment := reduceTypesInDeclaration s.environment d
    found = lookups s.scope s.past (some d) environment (symbolsAll dimensions) ∧ s' = s.declare d environment
  | .initializationBlock _ _ initializations, s, found, s' => AnalyzesAll initializations s found s'
  | .block _ stmts, s, found, s' =>
    ∃ t, AnalyzesAll stmts { s with environment := s.environment.addVariableBlock } found t ∧
      s' = { t with scope := s.scope, environment := t.environment.removeVariableBlock }
  | .ifThenElse _ cond ifCase none, s, found, s' =>
    ∃ found' t, Analyzes ifCase s found' t ∧ found = s.lookups (symbols cond) ++ found' ∧
      s' = { t with environment := mergeBranches t.environment s.environment }
  | .ifThenElse _ cond ifCase (some elseCase), s, found, s' =>
    ∃ found' t found'' u, Analyzes ifCase s found' t ∧
      Analyzes elseCase { t with environment := s.environment } found'' u ∧
      found = s.lookups (symbols cond) ++ found' ++ found'' ∧
      s' = { u with environment := mergeBranches t.environment u.environment }
  | .whileStmt _ cond stmt, s, found, s' =>
    ∃ found', Rounds (Analyzes stmt) s found' s' ∧
      found = found' ++ NameResolution.lookups s.scope s.past none s'.environment (symbols cond)
  | stmt, s, found, s' => found = s.lookups (statementSymbols stmt) ∧ s' = s

def AnalyzesAll : List Statement → State → List Lookup → State → Prop
  | [], s, found, s' => found = [] ∧ s' = s
  | stmt :: stmts, s, found, s' =>
    ∃ found' t found'', Analyzes stmt s found' t ∧ AnalyzesAll stmts t found'' s' ∧ found = found' ++ found''

end

/-- A run of the analysis over a body. The body is a block. -/
def AnalyzesBody (params : List String) (body : List Statement) (found : List Lookup) : Prop :=
  ∃ s', AnalyzesAll body
    { State.ofParams params with environment := (State.ofParams params).environment.addVariableBlock } found s'

/-! ## What is found -/

/-- `reduce_types_in_variable` before the accesses: the kind, and the entry of a component or bus. -/
def reductionOf (environment : Environment) (name : String) : SymbolKind × Option Declared :=
  if environment.hasSignal name then (.signal, none)
  else if environment.hasComponent name then (.component, environment.getComponent name)
  else if environment.hasBus name then (.bus, environment.getBus name)
  else (.var, none)

/-- The entry of `apply_access_to_symbol`. -/
def entryOf (environment : Environment) (name : String) : SymbolKind × Option Declared :=
  if environment.hasComponent name then (.component, environment.getComponent name)
  else if environment.hasSignal name then (.signal, environment.getSignal name)
  else if environment.hasBus name then (.bus, environment.getBus name)
  else (.var, environment.getVariable name)

/-- The entry of `check_if_it_is_a_tag`; that of a variable is not needed. -/
def tagEntryOf (environment : Environment) (name : String) : SymbolKind × Option Declared :=
  if environment.hasComponent name then (.component, environment.getComponent name)
  else if environment.hasVariable name then (.var, none)
  else if environment.hasBus name then (.bus, environment.getBus name)
  else (.signal, environment.getSignal name)

/-- The kind of the symbol information that `apply_access_to_symbol` returns when no field is accessed. -/
def symbolInformationOf (environment : Environment) (name : String) : Option SymbolKind :=
  if environment.hasVariable name then some .var
  else if environment.hasSignal name then some .signal
  else if environment.hasBus name then some .bus
  else if environment.hasComponent name then some .component
  else none

/-! ## Lexical scoping -/

/-- The entry is that of the declaration, if the kind of symbols has one. -/
def expected (withEntry : SymbolKind → Bool) (d : Declared) : SymbolKind × Option Declared :=
  (d.kind, if withEntry d.kind then some d else none)

namespace Lookup

/-- Type reduction finds the kind of the innermost declaration, and the entry of a component or bus. -/
def Reduces (l : Lookup) : Prop :=
  ∀ d, l.occurrence.visible = some d →
    reductionOf l.environment l.occurrence.name = expected (fun k => k = .component ∨ k = .bus) d

/-- Type check finds the innermost declaration wherever it looks the name up. -/
def Types (l : Lookup) : Prop :=
  ∀ d, l.occurrence.visible = some d →
    entryOf l.environment l.occurrence.name = expected (fun _ => true) d ∧
      if l.occurrence.hasField then
        tagEntryOf l.environment l.occurrence.name = expected (fun k => k ≠ .var) d
      else symbolInformationOf l.environment l.occurrence.name = some d.kind

/-- The known/unknown analysis looks up variables and components. -/
def Tags (l : Lookup) : Prop :=
  ∀ d, l.occurrence.visible = some d →
    match d.kind with
    | .var => l.environment.getVariable l.occurrence.name = some d
    | .component => l.environment.getComponent l.occurrence.name = some d
    | _ => True

end Lookup

/-- The names of the body are resolved by lexical scope. -/
structure ResolvesByScope (params : List String) (body : List Statement) : Prop where
  /-- In the type reduction. -/
  reduces : ∀ l ∈ Pass.typeReduction.lookups params body, l.Reduces
  /-- In the type check. -/
  types : ∀ l ∈ Pass.typeCheck.lookups params body, l.Types
  /-- In the analysis of known conditions, which looks up tags. -/
  tags : ∀ found, AnalyzesBody params body found → ∀ l ∈ found, l.Tags

/-! ## When they are -/

/-- The latest declaration of a name as a symbol of a kind. -/
def latest (declared : List Declared) (name : String) (kind : SymbolKind) : Option Declared :=
  declared.find? fun d => d.name = name ∧ d.kind = kind

/-- The latest declaration of a signal or bus: those of inputs and outputs come before the others. -/
def latestWire (declared : List Declared) (name : String) (kind : SymbolKind) : Option Declared :=
  let ofType (type : SignalType) :=
    declared.find? fun d => d.name = name ∧ d.kind = kind ∧ d.signalType = some type
  ((ofType .input).or (ofType .output)).or (ofType .intermediate)

namespace Occurrence

/-- The declarations that stand before the end of the declaration that the name belongs to. -/
def pastWithOwn (o : Occurrence) : List Declared := o.dimensionOf.toList ++ o.past

def NeverDeclared (declared : List Declared) (name : String) (kind : SymbolKind) : Prop :=
  latest declared name kind = none

/-- No kind that type reduction looks up before is declared, in whatever block, and no component or bus after the
innermost declaration. -/
def Reducible (o : Occurrence) (d : Declared) : Prop :=
  match d.kind with
  | .signal => True
  | .component => NeverDeclared o.pastWithOwn o.name .signal ∧ latest o.pastWithOwn o.name .component = some d
  | .bus => NeverDeclared o.pastWithOwn o.name .signal ∧ NeverDeclared o.pastWithOwn o.name .component ∧
      latest o.pastWithOwn o.name .bus = some d
  | .var => NeverDeclared o.pastWithOwn o.name .signal ∧ NeverDeclared o.pastWithOwn o.name .component ∧
      NeverDeclared o.pastWithOwn o.name .bus

/-- No kind that type check looks up before is declared; variables count while they are visible. -/
def Typable (o : Occurrence) (d : Declared) : Prop :=
  match d.kind with
  | .component => latest o.past o.name .component = some d ∧
      (o.hasField = true ∨ NeverDeclared o.scope o.name .var ∧ NeverDeclared o.past o.name .signal ∧
        NeverDeclared o.past o.name .bus)
  | .signal => NeverDeclared o.past o.name .component ∧ latestWire o.past o.name .signal = some d ∧
      NeverDeclared o.scope o.name .var ∧ (o.hasField = true → NeverDeclared o.past o.name .bus)
  | .bus => NeverDeclared o.past o.name .component ∧ NeverDeclared o.past o.name .signal ∧
      latestWire o.past o.name .bus = some d ∧ NeverDeclared o.scope o.name .var
  | .var => NeverDeclared o.past o.name .component ∧ NeverDeclared o.past o.name .signal ∧
      NeverDeclared o.past o.name .bus

/-- A variable does not stand in the dimensions of a variable with its name. -/
def Taggable (o : Occurrence) (d : Declared) : Prop :=
  d.kind = .var → ∀ e ∈ o.dimensionOf, e.kind = .var → e.name = o.name → e = d

/-- All passes find the innermost declaration. -/
structure Unambiguous (o : Occurrence) (d : Declared) : Prop where
  reducible : o.Reducible d
  typable : o.Typable d
  taggable : o.Taggable d

end Occurrence

/-- The names of a body with what stands before them. -/
def occurrences (params : List String) (body : List Statement) : List Occurrence :=
  (Pass.typeCheck.lookups params body).map Lookup.occurrence

/-! ## What the parser gives -/

def isDeclaration : Statement → Bool
  | .declaration .. => true
  | .initializationBlock .. => true
  | _ => false

mutual

/-- What an assignment can become when its tuples and anonymous components are removed. -/
def isCompound : Statement → Bool
  | .block _ stmts => areCompound stmts
  | stmt => isSimple stmt

def areCompound : List Statement → Bool
  | [] => true
  | stmt :: stmts => isCompound stmt && areCompound stmts

end

/-- An initialization block has declarations and assignments, in a loop declarations of its type. -/
def ParsedInitializations (inLoop : Bool) (type : VariableType) : List Statement → Prop
  | [] => True
  | .declaration _ xtype _ _ _ _ :: initializations =>
    (inLoop = true → xtype = type) ∧ ParsedInitializations inLoop type initializations
  | stmt :: initializations => isCompound stmt = true ∧ ParsedInitializations inLoop type initializations

mutual

/-- What is left of a parsed body when tuples and anonymous components are removed. Branches and loop bodies are no
declarations. Declarations in loops stand in an initialization block of their type, and those of anonymous components
stand at the start of the body. -/
def Parsed (inLoop : Bool) : Statement → Prop
  | .ifThenElse _ _ ifCase none => isDeclaration ifCase = false ∧ Parsed inLoop ifCase
  | .ifThenElse _ _ ifCase (some elseCase) =>
    (isDeclaration ifCase = false ∧ Parsed inLoop ifCase) ∧ isDeclaration elseCase = false ∧ Parsed inLoop elseCase
  | .whileStmt _ _ stmt => isDeclaration stmt = false ∧ Parsed true stmt
  | .block _ stmts => ParsedAll inLoop stmts
  | .initializationBlock _ xtype initializations =>
    (inLoop = true → xtype ≠ .anonymousComponent) ∧ ParsedInitializations inLoop xtype initializations
  | .declaration .. => inLoop = false
  | _ => True

def ParsedAll (inLoop : Bool) : List Statement → Prop
  | [] => True
  | stmt :: stmts => Parsed inLoop stmt ∧ ParsedAll inLoop stmts

end

end Circom.TypeAnalysis.NameResolution
