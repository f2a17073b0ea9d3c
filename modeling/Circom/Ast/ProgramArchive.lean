import Circom.Ast.Ast
import Mathlib.Data.Finset.Card

/-!
# The program archive

The definitions of a program with the parts the desugaring reads, and the reports it returns. A hash map of
definitions is the list of its entries in the order in which it iterates.
-/

namespace Circom.Ast

inductive ReportCode where
  | anonymousCompError
  | tupleError
  deriving DecidableEq, Repr

/-- An error report with its primary label. -/
structure Report where
  errorMessage : String
  errorCode : ReportCode
  start : ℕ
  fileId : ℕ
  label : String
  deriving DecidableEq, Repr

inductive Failure where
  | report (r : Report)
  | unreachable
  | panicked
  deriving DecidableEq, Repr

/-- A report with a primary label at a node; the file of the node must be known. -/
def reportAt (info : Meta) (errorMessage : String) (errorCode : ReportCode) (label : String) :
    Failure :=
  match info.fileId with
  | some fileId => .report ⟨errorMessage, errorCode, info.start, fileId, label⟩
  | none => .panicked

def anonymousInsideConditionError (info : Meta) : Failure :=
  reportAt info "An anonymous component cannot be used inside a condition " .anonymousCompError
    "This is an anonymous component used inside a condition"

def anonymousGeneralError (info : Meta) (msg : String) : Failure :=
  reportAt info msg .anonymousCompError "This is the anonymous component whose use is not allowed"

def tupleGeneralError (info : Meta) (msg : String) : Failure :=
  reportAt info msg .tupleError "This is the tuple whose use is not allowed"

theorem reportAt_ne_unreachable (info : Meta) (msg : String) (code : ReportCode) (label : String) :
    reportAt info msg code label ≠ .unreachable := by
  rw [reportAt]
  split
  · exact fun h => by cases h
  · exact fun h => by cases h

/-- The lines of the source files. -/
structure FileLibrary where
  getLine : ℕ → ℕ → Option ℕ

/-- Of the wires of a template the names are kept, as a set and in the order of declaration. -/
structure TemplateData where
  name : String
  body : Statement
  nameOfParams : List String
  inputWires : Finset String
  inputDeclarations : List String
  outputDeclarations : List String

structure FunctionData where
  body : Statement

structure BusData where
  body : Statement

structure ProgramArchive where
  fileLibrary : FileLibrary
  functions : List (String × FunctionData)
  templates : List (String × TemplateData)
  buses : List (String × BusData)
  initialTemplateCall : Expression

end Circom.Ast
