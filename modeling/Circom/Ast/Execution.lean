import Circom.Ast.Operators
import Circom.Ast.Predicates
import Mathlib.Logic.Function.Basic

/-!
# Executions of a body

A step relation for statements that follows the variables and records the assignments that are executed.
Elements of arrays, outputs of components, results of calls and inline switches have arbitrary values. A
run can stop anywhere, so that runs with a `return`, with a failed assertion or without an end are
observed by their beginnings.
-/

namespace Circom.Ast

open Circom.Algebra.ModularArithmetic (asBool modulus)

variable {stmts : List Statement}

abbrev Store := String → ℤ

/-- An executed assignment: the variable, the values of the array indices in its access, the operator. -/
structure Event where
  var : String
  index : List ℤ
  op : AssignOp

/-- The expressions whose value is computed. -/
def Expression.isArithmetic : Expression → Bool
  | .number .. => true
  | .var _ _ [] => true
  | .infixOp .. => true
  | .prefixOp .. => true
  | _ => false

inductive Evaluates (field : ℤ) (σ : Store) : Expression → ℤ → Prop
  | number {info : Meta} {value : ℤ} : Evaluates field σ (.number info value) (modulus value field)
  | var {info : Meta} {name : String} : Evaluates field σ (.var info name []) (σ name)
  | infixOp {info : Meta} {lhe rhe : Expression} {op : ExpressionInfixOpcode} {a b v : ℤ}
      (hl : Evaluates field σ lhe a) (hr : Evaluates field σ rhe b)
      (hv : op.value a b field = some v) : Evaluates field σ (.infixOp info lhe op rhe) v
  | prefixOp {info : Meta} {rhe : Expression} {op : ExpressionPrefixOpcode} {b : ℤ}
      (hr : Evaluates field σ rhe b) :
      Evaluates field σ (.prefixOp info op rhe) (op.value b field)
  | other {e : Expression} {v : ℤ} (h : e.isArithmetic = false) : Evaluates field σ e v

mutual

/-- The names that a statement declares in the scope it stands in. -/
def Statement.declares : Statement → List String
  | .declaration _ _ name .. => [name]
  | .initializationBlock _ _ initializations => declaredNames initializations
  | _ => []

def declaredNames : List Statement → List String
  | [] => []
  | stmt :: stmts => stmt.declares ++ declaredNames stmts

end

/-- The store after a scope: its own variables are as they were before. -/
def leaveScope (names : List String) (before after : Store) : Store :=
  fun name => if name ∈ names then before name else after name

/-- Runs of a sequence of statements, with the executed assignments and the store at the end, `none` for a
run that stopped. -/
inductive Exec (field : ℤ) : List Statement → Store → List Event → Option Store → Prop
  | done {σ : Store} : Exec field [] σ [] (some σ)
  | stop {stmts : List Statement} {σ : Store} : Exec field stmts σ [] none
  | declaration {info : Meta} {xtype : VariableType} {name : String} {dimensions : List Expression}
      {isConstant isAnonymous : Bool} {stmts : List Statement} {σ : Store} {trace : List Event}
      {out : Option Store} (v : ℤ) (h : Exec field stmts (Function.update σ name v) trace out) :
      Exec field (.declaration info xtype name dimensions isConstant isAnonymous :: stmts) σ trace out
  | initializationBlock {info : Meta} {xtype : VariableType} {inits stmts : List Statement}
      {σ : Store} {trace : List Event} {out : Option Store}
      (h : Exec field (inits ++ stmts) σ trace out) :
      Exec field (.initializationBlock info xtype inits :: stmts) σ trace out
  | block {info : Meta} {inner stmts : List Statement} {σ σ' : Store} {trace trace' : List Event}
      {out : Option Store} (h : Exec field inner σ trace (some σ'))
      (h' : Exec field stmts (leaveScope (declaredNames inner) σ σ') trace' out) :
      Exec field (.block info inner :: stmts) σ (trace ++ trace') out
  | blockStop {info : Meta} {inner stmts : List Statement} {σ : Store} {trace : List Event}
      (h : Exec field inner σ trace none) : Exec field (.block info inner :: stmts) σ trace none
  | ifTrue {info : Meta} {cond : Expression} {ifCase : Statement} {elseCase : Option Statement}
      {stmts : List Statement} {σ : Store} {trace : List Event} {out : Option Store} {c : ℤ}
      (hc : Evaluates field σ cond c) (hbool : asBool c field = true)
      (h : Exec field (ifCase :: stmts) σ trace out) :
      Exec field (.ifThenElse info cond ifCase elseCase :: stmts) σ trace out
  | ifFalse {info : Meta} {cond : Expression} {ifCase : Statement} {elseCase : Option Statement}
      {stmts : List Statement} {σ : Store} {trace : List Event} {out : Option Store} {c : ℤ}
      (hc : Evaluates field σ cond c) (hbool : asBool c field = false)
      (h : Exec field (elseCase.toList ++ stmts) σ trace out) :
      Exec field (.ifThenElse info cond ifCase elseCase :: stmts) σ trace out
  | whileTrue {info : Meta} {cond : Expression} {stmt : Statement} {stmts : List Statement}
      {σ : Store} {trace : List Event} {out : Option Store} {c : ℤ}
      (hc : Evaluates field σ cond c) (hbool : asBool c field = true)
      (h : Exec field (stmt :: .whileStmt info cond stmt :: stmts) σ trace out) :
      Exec field (.whileStmt info cond stmt :: stmts) σ trace out
  | whileFalse {info : Meta} {cond : Expression} {stmt : Statement} {stmts : List Statement}
      {σ : Store} {trace : List Event} {out : Option Store} {c : ℤ}
      (hc : Evaluates field σ cond c) (hbool : asBool c field = false)
      (h : Exec field stmts σ trace out) :
      Exec field (.whileStmt info cond stmt :: stmts) σ trace out
  | substitution {info : Meta} {var : String} {access : List Access} {op : AssignOp}
      {rhe : Expression} {stmts : List Statement} {σ : Store} {trace : List Event}
      {out : Option Store} {index : List ℤ} {v : ℤ}
      (hindex : List.Forall₂ (Evaluates field σ) (access.filterMap Access.index?) index)
      (hv : access = [] → Evaluates field σ rhe v)
      (h : Exec field stmts (Function.update σ var v) trace out) :
      Exec field (.substitution info var access op rhe :: stmts) σ (⟨var, index, op⟩ :: trace) out
  | underscoreSubstitution {info : Meta} {op : AssignOp} {rhe : Expression} {stmts : List Statement}
      {σ : Store} {trace : List Event} {out : Option Store} (h : Exec field stmts σ trace out) :
      Exec field (.underscoreSubstitution info op rhe :: stmts) σ trace out
  | constraintEquality {info : Meta} {lhe rhe : Expression} {stmts : List Statement} {σ : Store}
      {trace : List Event} {out : Option Store} (h : Exec field stmts σ trace out) :
      Exec field (.constraintEquality info lhe rhe :: stmts) σ trace out
  | logCall {info : Meta} {args : List LogArgument} {stmts : List Statement} {σ : Store}
      {trace : List Event} {out : Option Store} (h : Exec field stmts σ trace out) :
      Exec field (.logCall info args :: stmts) σ trace out
  | assert {info : Meta} {arg : Expression} {stmts : List Statement} {σ : Store}
      {trace : List Event} {out : Option Store} (h : Exec field stmts σ trace out) :
      Exec field (.assert info arg :: stmts) σ trace out

section Append

variable {field : ℤ}

/-- A run of two sequences, one after the other, goes through both or stops in the first. -/
def AppendRun (field : ℤ) (stmts stmts' : List Statement) (σ : Store) (trace : List Event)
    (out : Option Store) : Prop :=
  (∃ σ' trace' trace'', Exec field stmts σ trace' (some σ') ∧ Exec field stmts' σ' trace'' out ∧
    trace = trace' ++ trace'') ∨ out = none ∧ Exec field stmts σ trace none

variable {trace : List Event} {out : Option Store} {σ : Store}

theorem AppendRun.nil (h : Exec field stmts σ trace out) : AppendRun field [] stmts σ trace out :=
  Or.inl ⟨σ, [], trace, .done, h, rfl⟩

/-- A run that begins like the run of another first sequence. -/
theorem AppendRun.mapAppend {stmts₁ stmts' : List Statement} {σ₁ : Store} {before : List Event}
    (h : AppendRun field stmts₁ stmts' σ₁ trace out)
    (hstep : ∀ {trace out}, Exec field stmts₁ σ₁ trace out → Exec field stmts σ (before ++ trace) out) :
    AppendRun field stmts stmts' σ (before ++ trace) out := by
  rcases h with ⟨σ', trace', trace'', hfirst, hsecond, rfl⟩ | ⟨hout, hfirst⟩
  · exact Or.inl ⟨σ', _, trace'', hstep hfirst, hsecond, (List.append_assoc _ _ _).symm⟩
  · exact Or.inr ⟨hout, hstep hfirst⟩

theorem AppendRun.map {stmts₁ stmts' : List Statement} {σ₁ : Store} (h : AppendRun field stmts₁ stmts' σ₁ trace out)
    (hstep : ∀ {trace out}, Exec field stmts₁ σ₁ trace out → Exec field stmts σ trace out) :
    AppendRun field stmts stmts' σ trace out := by
  have hmap : AppendRun field stmts stmts' σ ([] ++ trace) out := h.mapAppend fun h => hstep h
  exact hmap

theorem Exec.appendRun {l : List Statement} (h : Exec field l σ trace out) :
    ∀ stmts stmts', l = stmts ++ stmts' → AppendRun field stmts stmts' σ trace out := by
  induction h with
  | done =>
    intro stmts stmts' hl
    obtain ⟨rfl, rfl⟩ := List.append_eq_nil_iff.mp hl.symm
    exact .nil .done
  | stop => exact fun _ _ _ => Or.inr ⟨rfl, .stop⟩
  | declaration v h ih =>
    intro stmts stmts' hl
    cases stmts with
    | nil => subst hl; exact .nil (.declaration v h)
    | cons s stmts =>
      obtain ⟨rfl, htail⟩ := List.cons.inj hl
      exact (ih stmts stmts' htail).map (.declaration v ·)
  | initializationBlock h ih =>
    intro stmts stmts' hl
    cases stmts with
    | nil => subst hl; exact .nil (.initializationBlock h)
    | cons s stmts =>
      obtain ⟨rfl, rfl⟩ := List.cons.inj hl
      exact (ih _ stmts' (List.append_assoc _ _ _).symm).map (.initializationBlock ·)
  | block h h' _ ih' =>
    intro stmts stmts' hl
    cases stmts with
    | nil => subst hl; exact .nil (.block h h')
    | cons s stmts =>
      obtain ⟨rfl, htail⟩ := List.cons.inj hl
      exact (ih' stmts stmts' htail).mapAppend (.block h ·)
  | blockStop h _ =>
    intro stmts stmts' hl
    cases stmts with
    | nil => subst hl; exact .nil (.blockStop h)
    | cons s stmts =>
      obtain ⟨rfl, -⟩ := List.cons.inj hl
      exact Or.inr ⟨rfl, .blockStop h⟩
  | ifTrue hc hbool h ih =>
    intro stmts stmts' hl
    cases stmts with
    | nil => subst hl; exact .nil (.ifTrue hc hbool h)
    | cons s stmts =>
      obtain ⟨rfl, rfl⟩ := List.cons.inj hl
      exact (ih (_ :: stmts) stmts' rfl).map (.ifTrue hc hbool ·)
  | ifFalse hc hbool h ih =>
    intro stmts stmts' hl
    cases stmts with
    | nil => subst hl; exact .nil (.ifFalse hc hbool h)
    | cons s stmts =>
      obtain ⟨rfl, rfl⟩ := List.cons.inj hl
      exact (ih _ stmts' (List.append_assoc _ _ _).symm).map (.ifFalse hc hbool ·)
  | whileTrue hc hbool h ih =>
    intro stmts stmts' hl
    cases stmts with
    | nil => subst hl; exact .nil (.whileTrue hc hbool h)
    | cons s stmts =>
      obtain ⟨rfl, rfl⟩ := List.cons.inj hl
      exact (ih (_ :: _ :: stmts) stmts' rfl).map (.whileTrue hc hbool ·)
  | whileFalse hc hbool h ih =>
    intro stmts stmts' hl
    cases stmts with
    | nil => subst hl; exact .nil (.whileFalse hc hbool h)
    | cons s stmts =>
      obtain ⟨rfl, htail⟩ := List.cons.inj hl
      exact (ih stmts stmts' htail).map (.whileFalse hc hbool ·)
  | @substitution info var access op rhe _ _ _ _ index _ hindex hv h ih =>
    intro stmts stmts' hl
    cases stmts with
    | nil => subst hl; exact .nil (.substitution hindex hv h)
    | cons s stmts =>
      obtain ⟨rfl, htail⟩ := List.cons.inj hl
      have hmap : AppendRun field (.substitution info var access op rhe :: stmts) stmts' _
          ([⟨var, index, op⟩] ++ _) _ :=
        (ih stmts stmts' htail).mapAppend (.substitution hindex hv ·)
      exact hmap
  | underscoreSubstitution h ih =>
    intro stmts stmts' hl
    cases stmts with
    | nil => subst hl; exact .nil (.underscoreSubstitution h)
    | cons s stmts =>
      obtain ⟨rfl, htail⟩ := List.cons.inj hl
      exact (ih stmts stmts' htail).map (.underscoreSubstitution ·)
  | constraintEquality h ih =>
    intro stmts stmts' hl
    cases stmts with
    | nil => subst hl; exact .nil (.constraintEquality h)
    | cons s stmts =>
      obtain ⟨rfl, htail⟩ := List.cons.inj hl
      exact (ih stmts stmts' htail).map (.constraintEquality ·)
  | logCall h ih =>
    intro stmts stmts' hl
    cases stmts with
    | nil => subst hl; exact .nil (.logCall h)
    | cons s stmts =>
      obtain ⟨rfl, htail⟩ := List.cons.inj hl
      exact (ih stmts stmts' htail).map (.logCall ·)
  | assert h ih =>
    intro stmts stmts' hl
    cases stmts with
    | nil => subst hl; exact .nil (.assert h)
    | cons s stmts =>
      obtain ⟨rfl, htail⟩ := List.cons.inj hl
      exact (ih stmts stmts' htail).map (.assert ·)

end Append

end Circom.Ast
