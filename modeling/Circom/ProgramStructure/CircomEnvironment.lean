import Circom.Ast.Ast
import Circom.ProgramStructure.Environment

/-!
# Environments with signals, buses and components

Only the variables of a `RawEnvironment` stand in blocks. Signals and buses have a table for the inputs, one for the
outputs and one for the others, and components have one table.
-/

namespace Circom.ProgramStructure

open Circom.Ast (SignalType)
open Circom.Lib (HashMap)

/-- The tables of the signals, and those of the buses. -/
structure Wires (C : Type) where
  inputs : HashMap String C := ∅
  outputs : HashMap String C := ∅
  intermediates : HashMap String C := ∅

namespace Wires

variable {C : Type}

def add (wires : Wires C) (type : SignalType) (name : String) (content : C) : Wires C :=
  match type with
  | .input => { wires with inputs := wires.inputs.insert name content }
  | .output => { wires with outputs := wires.outputs.insert name content }
  | .intermediate => { wires with intermediates := wires.intermediates.insert name content }

def has (wires : Wires C) (symbol : String) : Bool :=
  symbol ∈ wires.inputs || symbol ∈ wires.outputs || symbol ∈ wires.intermediates

def get (wires : Wires C) (symbol : String) : Option C :=
  if symbol ∈ wires.inputs then wires.inputs.lookup symbol
  else if symbol ∈ wires.outputs then wires.outputs.lookup symbol
  else if symbol ∈ wires.intermediates then wires.intermediates.lookup symbol
  else none

end Wires

/-- `extend` of a hash map. -/
def extend {V : Type} (left right : HashMap String V) : HashMap String V :=
  right.pairs.foldl (fun (table : HashMap String V) e => table.insert e.1 e.2) left

structure RawEnvironment (CC SC VC BC : Type) where
  /-- The innermost block comes first. -/
  vars : Variables VC := [∅]
  signals : Wires SC := {}
  buses : Wires BC := {}
  components : HashMap String CC := ∅

namespace RawEnvironment

variable {CC SC VC BC : Type} (environment : RawEnvironment CC SC VC BC)

def addVariable (name : String) (content : VC) : RawEnvironment CC SC VC BC :=
  { environment with vars := environment.vars.addVariable name content }

def hasVariable (symbol : String) : Bool := environment.vars.hasVariable symbol

def getVariable (symbol : String) : Option VC := environment.vars.getVariable symbol

def addVariableBlock : RawEnvironment CC SC VC BC :=
  { environment with vars := environment.vars.addVariableBlock }

def removeVariableBlock : RawEnvironment CC SC VC BC :=
  { environment with vars := environment.vars.removeVariableBlock }

def addComponent (name : String) (content : CC) : RawEnvironment CC SC VC BC :=
  { environment with components := environment.components.insert name content }

def hasComponent (symbol : String) : Bool := symbol ∈ environment.components

def getComponent (symbol : String) : Option CC := environment.components.lookup symbol

/-- `add_input`, `add_output` and `add_intermediate`. -/
def addSignal (type : SignalType) (name : String) (content : SC) : RawEnvironment CC SC VC BC :=
  { environment with signals := environment.signals.add type name content }

def hasSignal (symbol : String) : Bool := environment.signals.has symbol

def getSignal (symbol : String) : Option SC := environment.signals.get symbol

/-- `add_input_bus`, `add_output_bus` and `add_intermediate_bus`. -/
def addBus (type : SignalType) (name : String) (content : BC) : RawEnvironment CC SC VC BC :=
  { environment with buses := environment.buses.add type name content }

def hasBus (symbol : String) : Bool := environment.buses.has symbol

def getBus (symbol : String) : Option BC := environment.buses.get symbol

def merge (left right : RawEnvironment CC SC VC BC) (mergeFunction : VC → VC → VC) :
    RawEnvironment CC SC VC BC where
  vars := left.vars.merge right.vars mergeFunction
  signals :=
    { inputs := extend left.signals.inputs right.signals.inputs
      outputs := extend left.signals.outputs right.signals.outputs
      intermediates := extend left.signals.intermediates right.signals.intermediates }
  buses :=
    { inputs := extend left.buses.inputs right.buses.inputs
      outputs := extend left.buses.outputs right.buses.outputs
      intermediates := extend left.buses.intermediates right.buses.intermediates }
  components := extend left.components right.components

end RawEnvironment

end Circom.ProgramStructure
