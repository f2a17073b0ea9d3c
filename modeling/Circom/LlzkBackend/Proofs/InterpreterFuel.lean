import Circom.LlzkBackend.FunctionInterpreter
import Circom.Lib.Outcomes

/-!
# More fuel

What the interpreter of functions returns with some fuel it returns with more.
-/

namespace Circom.LlzkBackend.Interpreter

open Circom.Ast
open Circom.Lib (Extends HashMap)

variable {ops : Operators}

section Steps

variable {eval eval' : Expression → Scoped → Except Stop ConstantValue}
  {exec exec' : Statement → Scoped → Except Stop (Flow × Scoped)}

theorem extends_scalar (h : ∀ expr env, Extends (eval expr env) (eval' expr env)) (expr : Expression)
    (env : Scoped) : Extends (scalar eval expr env) (scalar eval' expr env) :=
  (h expr env).bind fun _ => Extends.refl _

theorem extends_scalars (h : ∀ expr env, Extends (eval expr env) (eval' expr env)) (env : Scoped)
    (exprs : List Expression) : Extends (scalars eval env exprs) (scalars eval' env exprs) := by
  induction exprs with
  | nil => exact Extends.refl _
  | cons expr exprs ih => exact (extends_scalar h expr env).bind fun _ => ih.bind fun _ => Extends.refl _

theorem extends_accessIndices (h : ∀ expr env, Extends (eval expr env) (eval' expr env)) (env : Scoped)
    (access : List Access) : Extends (accessIndices eval env access) (accessIndices eval' env access) := by
  induction access with
  | nil => exact Extends.refl _
  | cons item access ih =>
    cases item with
    | componentAccess name => exact Extends.error
    | arrayAccess index =>
      exact (extends_scalar h index env).bind fun _ => ih.bind fun _ => Extends.refl _

theorem extends_arrayElements (h : ∀ expr env, Extends (eval expr env) (eval' expr env)) (env : Scoped)
    (elements : List ConstantValue) (exprs : List Expression) :
    Extends (arrayElements eval env elements exprs) (arrayElements eval' env elements exprs) := by
  induction exprs generalizing elements with
  | nil => exact Extends.refl _
  | cons expr exprs ih => exact (h expr env).bind fun _ => Extends.ite (ih _) (Extends.refl _)

theorem extends_assign (h : ∀ expr env, Extends (eval expr env) (eval' expr env)) (var : String)
    (access : List Access) (expr : Expression) (env : Scoped) :
    Extends (assign eval var access expr env) (assign eval' var access expr env) :=
  (h expr env).bind fun _ => (extends_accessIndices h env access).bind fun _ => Extends.refl _

theorem extends_parameters (h : ∀ expr env, Extends (eval expr env) (eval' expr env)) (env : Scoped)
    (args : List (String × Expression)) (parameters : HashMap String ConstantValue) :
    Extends
      (args.foldlM (fun (parameters : HashMap String ConstantValue) e => do
        let value ← eval e.2 env
        .ok (parameters.insert e.1 value)) parameters)
      (args.foldlM (fun (parameters : HashMap String ConstantValue) e => do
        let value ← eval' e.2 env
        .ok (parameters.insert e.1 value)) parameters) := by
  induction args generalizing parameters with
  | nil => exact Extends.refl _
  | cons arg args ih =>
    rw [List.foldlM_cons, List.foldlM_cons]
    exact ((h arg.2 env).bind fun _ => Extends.refl _).bind fun parameters => ih parameters

theorem extends_inScope (h : ∀ stmt env, Extends (exec stmt env) (exec' stmt env)) (stmt : Statement)
    (env : Scoped) : Extends (inScope exec stmt env) (inScope exec' stmt env) :=
  (h stmt _).bind fun _ => Extends.refl _

theorem extends_sequence (h : ∀ stmt env, Extends (exec stmt env) (exec' stmt env))
    (stmts : List Statement) (env : Scoped) :
    Extends (sequence exec stmts env) (sequence exec' stmts env) := by
  induction stmts generalizing env with
  | nil => exact Extends.refl _
  | cons stmt stmts ih =>
    refine (h stmt env).bind fun frame => ?_
    obtain ⟨flow, env'⟩ := frame
    cases flow with
    | continued => exact ih env'
    | returned value => exact Extends.refl _

theorem extends_whileLoop (h : ∀ expr env, Extends (eval expr env) (eval' expr env))
    (hexec : ∀ stmt env, Extends (exec stmt env) (exec' stmt env)) (cond : Expression) (stmt : Statement)
    (fuel : ℕ) (env : Scoped) :
    Extends (whileLoop ops eval exec cond stmt fuel env)
      (whileLoop ops eval' exec' cond stmt (fuel + 1) env) := by
  induction fuel generalizing env with
  | zero => exact Extends.error
  | succ fuel ih =>
    refine (extends_scalar h cond env).bind fun condition => Extends.ite ?_ (Extends.refl _)
    refine (extends_inScope hexec stmt env).bind fun frame => ?_
    obtain ⟨flow, env'⟩ := frame
    cases flow with
    | continued => exact ih env'
    | returned value => exact Extends.refl _

end Steps

variable (ops) (functions : FunctionInfo)

theorem extends_eval_succ {fuel : ℕ}
    (heval : ∀ expr env, Extends (eval ops functions fuel expr env)
      (eval ops functions (fuel + 1) expr env))
    (hexec : ∀ stmt env, Extends (exec ops functions fuel stmt env)
      (exec ops functions (fuel + 1) stmt env)) (expr : Expression) (env : Scoped) :
    Extends (eval ops functions (fuel + 1) expr env) (eval ops functions (fuel + 2) expr env) := by
  cases expr with
  | var info name access =>
    exact (extends_accessIndices heval env access).bind fun _ => Extends.refl _
  | arrayInLine info values =>
    exact (extends_arrayElements heval env [] values).bind fun _ => Extends.refl _
  | uniformArray info value dimension =>
    exact (extends_scalar heval dimension env).bind fun _ => (heval value env).bind fun _ =>
      Extends.refl _
  | infixOp info lhe op rhe =>
    exact (extends_scalar heval lhe env).bind fun _ => (extends_scalar heval rhe env).bind fun _ =>
      Extends.refl _
  | prefixOp info op rhe => exact (extends_scalar heval rhe env).bind fun _ => Extends.refl _
  | inlineSwitchOp info cond ifTrue ifFalse =>
    exact (extends_scalar heval cond env).bind fun _ => heval _ env
  | call info id args =>
    refine (Extends.refl _).bind fun function => Extends.ite (Extends.refl _) ?_
    refine (extends_parameters heval env _ ∅).bind fun parameters => ?_
    exact (extends_inScope hexec function.body _).bind fun _ => Extends.refl _
  | _ => exact Extends.refl _

theorem extends_exec_succ {fuel : ℕ}
    (heval : ∀ expr env, Extends (eval ops functions fuel expr env)
      (eval ops functions (fuel + 1) expr env))
    (hexec : ∀ stmt env, Extends (exec ops functions fuel stmt env)
      (exec ops functions (fuel + 1) stmt env)) (stmt : Statement) (env : Scoped) :
    Extends (exec ops functions (fuel + 1) stmt env) (exec ops functions (fuel + 2) stmt env) := by
  cases stmt with
  | block info stmts => exact (extends_sequence hexec stmts _).bind fun _ => Extends.refl _
  | initializationBlock info xtype inits => exact extends_sequence hexec inits env
  | declaration info xtype name dimensions isConstant isAnonymous =>
    cases xtype with
    | var => exact (extends_scalars heval env dimensions).bind fun _ => Extends.refl _
    | _ => exact Extends.refl _
  | substitution info var access op rhe =>
    cases op with
    | assignVar => exact (extends_assign heval var access rhe env).bind fun _ => Extends.refl _
    | _ => exact Extends.refl _
  | ifThenElse info cond ifCase elseCase =>
    refine (extends_scalar heval cond env).bind fun _ => Extends.ite (extends_inScope hexec ifCase env) ?_
    cases elseCase with
    | none => exact Extends.refl _
    | some elseCase => exact extends_inScope hexec elseCase env
  | whileStmt info cond stmt => exact extends_whileLoop heval hexec cond stmt fuel env
  | returnStmt info value => exact (heval value env).bind fun _ => Extends.refl _
  | assert info arg => exact (extends_scalar heval arg env).bind fun _ => Extends.refl _
  | logCall info args => exact (extends_scalars heval env _).bind fun _ => Extends.refl _
  | _ => exact Extends.refl _

theorem extends_succ (fuel : ℕ) :
    (∀ expr env, Extends (eval ops functions fuel expr env) (eval ops functions (fuel + 1) expr env)) ∧
      ∀ stmt env, Extends (exec ops functions fuel stmt env) (exec ops functions (fuel + 1) stmt env) := by
  induction fuel with
  | zero => exact ⟨fun _ _ => Extends.error, fun _ _ => Extends.error⟩
  | succ fuel ih =>
    exact ⟨extends_eval_succ ops functions ih.1 ih.2, extends_exec_succ ops functions ih.1 ih.2⟩

/-- More fuel returns the same value. -/
theorem eval_eq_ok_of_le {fuel fuel' : ℕ} (hle : fuel ≤ fuel') {expr : Expression} {env : Scoped}
    {value : ConstantValue} (h : eval ops functions fuel expr env = .ok value) :
    eval ops functions fuel' expr env = .ok value := by
  induction hle with
  | refl => exact h
  | step _ ih => exact (extends_succ ops functions _).1 expr env value ih

end Circom.LlzkBackend.Interpreter
