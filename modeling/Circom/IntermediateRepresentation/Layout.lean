import Circom.Ast.Ast
import Circom.Lib.StackAllocation
import Circom.ProgramStructure.Environment

/-!
# The memory of a translated body

The part of `translate.rs` that reserves addresses for the symbols of a body and looks them up. The state keeps all
symbols in the order in which their addresses have been reserved; the position of a symbol in this list tells its
declaration from the others. Of the code that is emitted the accesses of variables remain. `none` is an
`unreachable!`, or an `unwrap` of a name that is not in the environment.
-/

namespace Circom.IntermediateRepresentation

open Circom.Ast
open Circom.Lib (Slot SlotCode)
open Circom.ProgramStructure (Variables)

/-- The stacks on which addresses are reserved. -/
inductive AddressSpace where
  | variables
  | signals
  | components
  deriving DecidableEq, Repr

structure SymbolInfo where
  space : AddressSpace
  slot : Slot
  dimensions : List ℕ
  isComponent : Bool
  isBus : Bool
  busId : Option ℕ
  deriving DecidableEq, Repr

structure Wire where
  name : String
  lengths : List ℕ
  size : ℕ
  /-- The bus of a wire that is not a signal. -/
  busId : Option ℕ

structure Component where
  name : String
  lengths : List ℕ

structure Argument where
  name : String
  values : List ℤ
  lengths : List ℕ

structure Param where
  name : String
  length : List ℕ

/-- `iter().fold(1, |p, c| p * (*c))` -/
def fullSize (lengths : List ℕ) : ℕ := lengths.foldl (fun p c => p * c) 1

namespace Layout

structure State where
  environment : Variables SymbolInfo
  signalStack : ℕ
  variableStack : ℕ
  maxStackDepth : ℕ
  componentAddressStack : ℕ
  /-- The symbols in the order of their reservation. -/
  reserved : List SymbolInfo

/-- The state of `State::new`. -/
def State.new : State := ⟨[∅], 0, 0, 0, 0, []⟩

/-- The variables of all blocks of the environment. -/
def State.live (state : State) : List Slot :=
  (state.environment.flatMap fun block => block.pairs.map Prod.snd).filterMap fun info =>
    if info.space = .variables then some info.slot else none

/-- A symbol with its address enters the innermost block. -/
def State.add (state : State) (name : String) (info : SymbolInfo) : State :=
  { state with environment := state.environment.addVariable name info, reserved := state.reserved ++ [info] }

/-- `reserve_variable` for a symbol, with the symbol added to the environment. -/
def State.reserveVariable (state : State) (name : String) (dimensions : List ℕ) : Slot × State :=
  let size := fullSize dimensions
  let slot : Slot := ⟨state.reserved.length, state.variableStack, size⟩
  let top := state.variableStack + size
  (slot, { state.add name ⟨.variables, slot, dimensions, false, false, none⟩ with
    variableStack := top, maxStackDepth := max state.maxStackDepth top })

def initializeParameters (state : State) : List Param → State × List SlotCode
  | [] => (state, [])
  | p :: params =>
    let (slot, state) := state.reserveVariable p.name p.length
    let (state, code) := initializeParameters state params
    (state, .reserve slot :: code)

/-- The values of a constant are stored once it has its address. -/
def initializeConstants (state : State) : List Argument → State × List SlotCode
  | [] => (state, [])
  | arg :: constants =>
    let (slot, state) := state.reserveVariable arg.name arg.lengths
    let (state, code) := initializeConstants state constants
    (state, .reserve slot :: (arg.values.map fun _ => .access slot) ++ code)

/-- `reserve_signal` for a wire, with the wire added to the environment. -/
def State.reserveSignal (state : State) (wire : Wire) : State :=
  let slot : Slot := ⟨state.reserved.length, state.signalStack, wire.size⟩
  { state.add wire.name ⟨.signals, slot, wire.lengths, false, wire.busId.isSome, wire.busId⟩ with
    signalStack := state.signalStack + wire.size }

/-- `reserve_component_address` for a component, with the component added to the environment. -/
def State.reserveComponentAddress (state : State) (component : Component) : State :=
  let size := fullSize component.lengths
  let slot : Slot := ⟨state.reserved.length, state.componentAddressStack, size⟩
  { state.add component.name ⟨.components, slot, component.lengths, true, false, none⟩ with
    componentAddressStack := state.componentAddressStack + size }

def initializeSignals (state : State) : List Wire → State
  | [] => state
  | wire :: wires => initializeSignals (state.reserveSignal wire) wires

def initializeComponents (state : State) : List Component → State
  | [] => state
  | component :: components => initializeComponents (state.reserveComponentAddress component) components

/-! ## Translation -/

/-- The access of a symbol; only variables are on the stack of variables. -/
def accessCode (state : State) (name : String) : Option (List SlotCode) := do
  let info ← state.environment.getVariable name
  some (if info.space = .variables then [.access info.slot] else [])

mutual

def translateExpression (state : State) : Expression → Option (List SlotCode)
  | .infixOp _ lhe _ rhe => do
    let lhi ← translateExpression state lhe
    let rhi ← translateExpression state rhe
    some (lhi ++ rhi)
  | .prefixOp _ _ rhe => translateExpression state rhe
  | .var _ name access => do
    let symbol ← accessCode state name
    let indexes ← translateAccesses state access
    some (symbol ++ indexes)
  | .number _ _ => some []
  | .call _ _ args => translateCallArguments state args
  | _ => none

def translateAccesses (state : State) : List Access → Option (List SlotCode)
  | [] => some []
  | .componentAccess _ :: access => translateAccesses state access
  | .arrayAccess index :: access => do
    let first ← translateExpression state index
    let rest ← translateAccesses state access
    some (first ++ rest)

def translateCallArguments (state : State) : List Expression → Option (List SlotCode)
  | [] => some []
  | arg :: args => do
    let first ← translateExpression state arg
    let rest ← translateCallArguments state args
    some (first ++ rest)

end

def translateLog (state : State) : List LogArgument → Option (List SlotCode)
  | [] => some []
  | .logStr _ :: args => translateLog state args
  | .logExp arg :: args => do
    let first ← translateExpression state arg
    let rest ← translateLog state args
    some (first ++ rest)

section

-- `get_memory_knowledge().get_concrete_dimensions()`
variable (concreteDimensions : Meta → List ℕ)

mutual

/-- The code of a statement begins with the point where it stands. -/
def translateStatement : Statement → State → Option (State × List SlotCode)
  | .declaration info _ name _ _ _, state =>
    let (slot, state') := state.reserveVariable name (concreteDimensions info)
    some (state', [.point state.live, .reserve slot])
  | .substitution _ var access _ rhe, state => do
    let symbol ← accessCode state var
    let indexes ← translateAccesses state access
    let src ← translateExpression state rhe
    some (state, .point state.live :: (symbol ++ indexes ++ src))
  | .block _ stmts, state => do
    let (inner, code) ← translateStatements stmts { state with environment := state.environment.addVariableBlock }
    some ({ inner with
        environment := inner.environment.removeVariableBlock, variableStack := state.variableStack },
      [.point state.live, .block code])
  | .ifThenElse _ cond ifCase none, state => do
    let condCode ← translateExpression state cond
    let (state', ifCode) ← translateStatement ifCase state
    some (state', .point state.live :: (condCode ++ [.branch ifCode []]))
  | .ifThenElse _ cond ifCase (some elseCase), state => do
    let condCode ← translateExpression state cond
    let (state', ifCode) ← translateStatement ifCase state
    let (state'', elseCode) ← translateStatement elseCase state'
    some (state'', .point state.live :: (condCode ++ [.branch ifCode elseCode]))
  | .whileStmt _ cond stmt, state => do
    let condCode ← translateExpression state cond
    let (state', body) ← translateStatement stmt state
    some (state', [.point state.live, .loop condCode body])
  | .assert _ arg, state => do
    let code ← translateExpression state arg
    some (state, .point state.live :: code)
  | .constraintEquality _ lhe rhe, state => do
    let lheCode ← translateExpression state lhe
    let rheCode ← translateExpression state rhe
    some (state, .point state.live :: (lheCode ++ rheCode))
  | .returnStmt _ value, state => do
    let code ← translateExpression state value
    some (state, .point state.live :: code)
  | .logCall _ args, state => do
    let code ← translateLog state args
    some (state, .point state.live :: code)
  | _, _ => none

/-- The statements of a block, and the point behind them. -/
def translateStatements : List Statement → State → Option (State × List SlotCode)
  | [], state => some (state, [.point state.live])
  | stmt :: stmts, state => do
    let (state, first) ← translateStatement stmt state
    let (state, rest) ← translateStatements stmts state
    some (state, first ++ rest)

end

structure CodeInfo where
  params : List Param
  wires : List Wire
  constants : List Argument
  components : List Component

structure CodeOutput where
  stackDepth : ℕ
  signalDepth : ℕ
  componentDepth : ℕ
  reserved : List SymbolInfo
  code : List SlotCode

def translateCode (body : Statement) (codeInfo : CodeInfo) : Option CodeOutput := do
  let state := initializeComponents .new codeInfo.components
  let state := initializeSignals state codeInfo.wires
  let (state, constants) := initializeConstants state codeInfo.constants
  let (state, params) := initializeParameters state codeInfo.params
  let (state, code) ← translateStatement concreteDimensions body state
  some ⟨state.maxStackDepth, state.signalStack, state.componentAddressStack, state.reserved,
    constants ++ params ++ code ++ [.point state.live]⟩

end

end Layout

end Circom.IntermediateRepresentation
