import Circom.TypeAnalysis.Proofs.Noninterference

/-!
# What an accepted template guarantees

Runs of an accepted template with the same arguments build the same circuit, and reach a program point with
the same values of the variables that are tagged known there.
-/

set_option linter.unusedSectionVars false

namespace Circom.TypeAnalysis

open Circom.Ast
open Circom.Lib.Scopes
open Circom.ProgramStructure
open Circom.ProgramStructure.Variables

variable {V : Type} [DecidableEq V] {reducesTo : Meta → TypeReduction} {ops : Operators V}
  {signals₁ signals₂ : Wires V}

variable {environment : Environment} {exit : ExitInformation} {info : Meta} {reducesTo : Meta → TypeReduction}
variable {fuel : ℕ}

/-! ## Program points -/

def variableInfo : Meta := ⟨0, 0, none⟩

def signalInfo : Meta := ⟨1, 0, none⟩

def assign (name : String) (rhe : Expression) : Statement := .substitution variableInfo name [] .assignVar rhe

/-- A template that reads the signal `in` and declares a signal `x` with the given dimension at the end. -/
def templateBody (stmts : List Statement) (dimension : Expression) : Statement :=
  .block variableInfo
    (.declaration signalInfo (.signal .input []) "in" [] false false ::
      (stmts ++ [.declaration signalInfo (.signal .intermediate []) "x" [dimension] false false]))

/-- `i = i + 1` -/
def increment : Statement :=
  assign "i" (.infixOp variableInfo (.var variableInfo "i" []) .add (.number variableInfo 1))

end Circom.TypeAnalysis
