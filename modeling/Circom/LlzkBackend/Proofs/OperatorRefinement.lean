import Circom.Lib.Outcomes
import Circom.LlzkBackend.FunctionInterpreter

/-!
# Interpreters with different operators

Two runs of the interpreter whose operators agree on field elements, except that those of the second can stop
at a shift: the second returns what the first returns, or stops there.
-/

namespace Circom.LlzkBackend

open Circom.Ast
open Circom.Lib (HashMap bind_eq_ok)
open Circom.ProgramStructure (Variables)

variable {value : ConstantValue}

/-! ## Field elements -/

mutual

def ConstantValue.InField (p : ℕ) : ConstantValue → Prop
  | .scalar n => n < p
  | .array values => AllInField p values

def AllInField (p : ℕ) : List ConstantValue → Prop
  | [] => True
  | value :: values => value.InField p ∧ AllInField p values

end

def Scoped.InField (p : ℕ) (env : Scoped) : Prop :=
  ∀ scope ∈ env, ∀ name value, scope.lookup name = some value → value.InField p

def Flow.InField (p : ℕ) : Flow → Prop
  | .continued => True
  | .returned value => value.InField p

section InField

variable {p : ℕ}

theorem allInField_iff {values : List ConstantValue} :
    AllInField p values ↔ ∀ value ∈ values, value.InField p := by
  induction values with
  | nil => simp [AllInField]
  | cons value values ih => simp [AllInField, ih]

theorem inField_intoScalar (h : value.InField p) {n : ℕ} (hn : value.intoScalar = some n) : n < p := by
  cases value with
  | scalar m => exact Option.some.inj hn ▸ h
  | array values => cases hn

theorem inField_element (h : value.InField p) {index : ℕ} {element : ConstantValue}
    (helement : value.element index = some element) : element.InField p := by
  cases value with
  | scalar n => cases helement
  | array values => exact allInField_iff.mp h _ (List.mem_of_getElem? helement)

theorem inField_elements {indices : List ℕ} {element : ConstantValue} (h : value.InField p)
    (helement : indices.foldlM ConstantValue.element value = some element) : element.InField p := by
  induction indices generalizing value with
  | nil =>
    cases helement
    exact h
  | cons index indices ih =>
    rw [List.foldlM_cons] at helement
    obtain ⟨next, hnext, helement⟩ := Option.bind_eq_some_iff.mp helement
    exact ih (inField_element h hnext) helement

theorem inField_uniform {cell : ℕ} (h : cell < p) (lengths : List ℕ) :
    (ConstantValue.uniform cell lengths).InField p := by
  induction lengths with
  | nil => exact h
  | cons length lengths ih =>
    refine allInField_iff.mpr fun value hvalue => ?_
    rw [List.eq_of_mem_replicate hvalue]
    exact ih

mutual

theorem inField_overwrite {old new : ConstantValue} (hold : old.InField p) (hnew : new.InField p) :
    (old.overwrite new).InField p := by
  cases old with
  | scalar n => cases new with
    | scalar m => exact hnew
    | array values => exact hnew
  | array olds => cases new with
    | scalar m => exact hold
    | array news => exact allInField_overwriteAll hold hnew

theorem allInField_overwriteAll {olds news : List ConstantValue} (hold : AllInField p olds)
    (hnew : AllInField p news) : AllInField p (ConstantValue.overwriteAll olds news) := by
  cases olds with
  | nil => cases news with
    | nil => exact hold
    | cons new news => exact hold
  | cons old olds => cases news with
    | nil => exact hold
    | cons new news =>
      exact ⟨inField_overwrite hold.1 hnew.1, allInField_overwriteAll hold.2 hnew.2⟩

end

theorem inField_modify {f : ConstantValue → Option ConstantValue}
    (hf : ∀ value value', value.InField p → f value = some value' → value'.InField p)
    {indices : List ℕ} {value' : ConstantValue} (h : value.InField p)
    (hmodify : value.modify f indices = some value') : value'.InField p := by
  induction indices generalizing value value' with
  | nil => exact hf value value' h hmodify
  | cons index indices ih =>
    cases value with
    | scalar n => cases hmodify
    | array values =>
      obtain ⟨target, htarget, hmodify⟩ := Option.bind_eq_some_iff.mp hmodify
      obtain ⟨target', htarget', hmodify⟩ := Option.bind_eq_some_iff.mp hmodify
      cases hmodify
      have hvalues := allInField_iff.mp h
      refine allInField_iff.mpr fun element helement => ?_
      rcases List.mem_or_eq_of_mem_set helement with helement | rfl
      · exact hvalues element helement
      · exact ih (hvalues target (List.mem_of_getElem? htarget)) htarget'

variable {env : Scoped}

theorem inField_getVariable (h : env.InField p) {name : String}
    (hvalue : env.getVariable name = some value) : value.InField p := by
  obtain ⟨scope, hscope, hlookup⟩ := List.exists_of_findSome?_eq_some hvalue
  exact h scope hscope name value hlookup

theorem inField_insert {scope : HashMap String ConstantValue} {name : String}
    (h : ∀ n v, scope.lookup n = some v → v.InField p) (hvalue : value.InField p) {n : String} {v : ConstantValue}
    (hv : (scope.insert name value).lookup n = some v) : v.InField p := by
  by_cases hn : n = name
  · subst hn
    rw [AList.lookup_insert] at hv
    exact Option.some.inj hv ▸ hvalue
  · rw [AList.lookup_insert_ne hn] at hv
    exact h n v hv

theorem inField_addVariable (h : env.InField p) (name : String)
    (hvalue : value.InField p) : Scoped.InField p (env.addVariable name value) := by
  cases env with
  | nil => exact h
  | cons scope env =>
    intro scope' hscope' n v hv
    rcases List.mem_cons.mp hscope' with rfl | hscope'
    · exact inField_insert (h scope List.mem_cons_self) hvalue hv
    · exact h scope' (List.mem_cons_of_mem _ hscope') n v hv

theorem inField_setVariable (h : env.InField p) (name : String)
    (hvalue : value.InField p) : Scoped.InField p (Variables.setVariable name value env) := by
  induction env with
  | nil => exact h
  | cons scope env ih =>
    rw [Variables.setVariable]
    by_cases hname : name ∈ scope
    · rw [if_pos hname]
      exact inField_addVariable h name hvalue
    · rw [if_neg hname]
      have htail : Scoped.InField p (Variables.setVariable name value env) :=
        ih fun scope' hscope' => h scope' (List.mem_cons_of_mem _ hscope')
      intro scope' hscope'
      rcases List.mem_cons.mp hscope' with rfl | hscope'
      · exact h _ List.mem_cons_self
      · exact htail scope' hscope'

theorem inField_addVariableBlock (h : env.InField p) : Scoped.InField p env.addVariableBlock := by
  intro scope hscope
  rcases List.mem_cons.mp hscope with rfl | hscope
  · intro name value hvalue
    cases hvalue
  · exact h scope hscope

theorem inField_removeVariableBlock (h : env.InField p) : Scoped.InField p env.removeVariableBlock :=
  fun scope hscope => h scope (List.mem_of_mem_tail hscope)

end InField

/-! ## Refinement -/

/-- What the first computation returns satisfies `P`, and the second returns it too or stops at a shift. -/
def Refines {α : Type} (P : α → Prop) (x y : Except Stop α) : Prop :=
  ∀ a, x = .ok a → P a ∧ (y = .ok a ∨ y = .error .shift)

section Refines

variable {α β : Type} {P : α → Prop} {Q : β → Prop} {x y : Except Stop α}

theorem Refines.ok {a : α} (h : P a) : Refines P (.ok a) (.ok a) := by
  intro b hb
  cases hb
  exact ⟨h, Or.inl rfl⟩

theorem Refines.error (stop : Stop) : Refines P (.error stop) y := fun _ h => by cases h

theorem Refines.bind (h : Refines P x y) {f g : α → Except Stop β}
    (hf : ∀ a, P a → Refines Q (f a) (g a)) : Refines Q (x >>= f) (y >>= g) := by
  intro b hb
  obtain ⟨a, ha, hb⟩ := bind_eq_ok hb
  obtain ⟨hP, hy⟩ := h a ha
  obtain ⟨hQ, hg⟩ := hf a hP b hb
  refine ⟨hQ, ?_⟩
  rcases hy with rfl | rfl
  · exact hg
  · exact Or.inr rfl

theorem Refines.orStop {o : Option α} (stop : Stop) (h : ∀ a, o = some a → P a) :
    Refines P (Interpreter.orStop stop o) (Interpreter.orStop stop o) := by
  cases o with
  | none => exact Refines.error stop
  | some a => exact Refines.ok (h a rfl)

theorem Refines.ite {c : Prop} [Decidable c] {x' y' : Except Stop α} (h : Refines P x y)
    (h' : Refines P x' y') : Refines P (if c then x else x') (if c then y else y') := by
  by_cases hc : c
  · rw [if_pos hc, if_pos hc]
    exact h
  · rw [if_neg hc, if_neg hc]
    exact h'

end Refines

/-! ## The interpreter -/

/-- The operators agree on field elements, up to the shifts. -/
structure RefinedBy (p : ℕ) (ops ops' : Operators) : Prop where
  number (n : ℤ) : ops.number n < p ∧ ops'.number n = ops.number n
  infixOp (op : ExpressionInfixOpcode) {a b : ℕ} (ha : a < p) (hb : b < p) :
    Refines (fun n => n < p) (ops.infixOp op a b) (ops'.infixOp op a b)
  prefixOp (op : ExpressionPrefixOpcode) {a : ℕ} (ha : a < p) :
    ops.prefixOp op a < p ∧ ops'.prefixOp op a = ops.prefixOp op a
  truth {a : ℕ} (ha : a < p) : ops'.truth a = ops.truth a
  uninitialized : ops.uninitialized < p ∧ ops'.uninitialized = ops.uninitialized

/-- The flow and the scopes that a statement leaves. -/
def FrameInField (p : ℕ) (frame : Flow × Scoped) : Prop := frame.1.InField p ∧ frame.2.InField p

section Steps

variable {p : ℕ} {ops ops' : Operators} {eval eval' : Expression → Scoped → Except Stop ConstantValue}
  {exec exec' : Statement → Scoped → Except Stop (Flow × Scoped)}

def EvalRefines (p : ℕ) (eval eval' : Expression → Scoped → Except Stop ConstantValue) : Prop :=
  ∀ expr ⦃env⦄, env.InField p → Refines (ConstantValue.InField p) (eval expr env) (eval' expr env)

def ExecRefines (p : ℕ) (exec exec' : Statement → Scoped → Except Stop (Flow × Scoped)) : Prop :=
  ∀ stmt ⦃env⦄, env.InField p → Refines (FrameInField p) (exec stmt env) (exec' stmt env)

variable {env : Scoped}

theorem EvalRefines.scalar (h : EvalRefines p eval eval') (henv : env.InField p) (expr : Expression) :
    Refines (fun n => n < p) (Interpreter.scalar eval expr env) (Interpreter.scalar eval' expr env) :=
  (h expr henv).bind fun _ hvalue => Refines.orStop .type fun _ hn => inField_intoScalar hvalue hn

theorem EvalRefines.scalars (h : EvalRefines p eval eval') (henv : env.InField p)
    (exprs : List Expression) :
    Refines (fun _ => True) (Interpreter.scalars eval env exprs) (Interpreter.scalars eval' env exprs) := by
  induction exprs with
  | nil => exact Refines.ok trivial
  | cons expr exprs ih =>
    exact (h.scalar henv expr).bind fun _ _ => ih.bind fun _ _ => Refines.ok trivial

theorem EvalRefines.accessIndices (h : EvalRefines p eval eval') (henv : env.InField p)
    (access : List Access) :
    Refines (fun _ => True) (Interpreter.accessIndices eval env access)
      (Interpreter.accessIndices eval' env access) := by
  induction access with
  | nil => exact Refines.ok trivial
  | cons item access ih =>
    cases item with
    | componentAccess name => exact Refines.error .type
    | arrayAccess index =>
      exact (h.scalar henv index).bind fun _ _ => ih.bind fun _ _ => Refines.ok trivial

theorem EvalRefines.arrayElements (h : EvalRefines p eval eval') (henv : env.InField p)
    (exprs : List Expression) {elements : List ConstantValue} (helements : AllInField p elements) :
    Refines (AllInField p) (Interpreter.arrayElements eval env elements exprs)
      (Interpreter.arrayElements eval' env elements exprs) := by
  induction exprs generalizing elements with
  | nil => exact Refines.ok helements
  | cons expr exprs ih =>
    refine (h expr henv).bind fun value hvalue => Refines.ite (ih ?_) (Refines.error .type)
    refine allInField_iff.mpr fun element helement => ?_
    rcases List.mem_append.mp helement with helement | helement
    · exact allInField_iff.mp helements element helement
    · rw [List.mem_singleton.mp helement]
      exact hvalue

theorem EvalRefines.assign (h : EvalRefines p eval eval') (henv : env.InField p) (var : String)
    (access : List Access) (expr : Expression) :
    Refines (Scoped.InField p) (Interpreter.assign eval var access expr env)
      (Interpreter.assign eval' var access expr env) := by
  refine (h expr henv).bind fun value hvalue => (h.accessIndices henv access).bind fun indices _ => ?_
  refine (Refines.orStop .undeclared fun old hold => inField_getVariable henv hold).bind
    fun old hold => ?_
  refine (Refines.orStop .outOfBounds fun new hnew => inField_modify ?_ hold hnew).bind
    fun new hnew => Refines.ok (inField_setVariable henv var hnew)
  intro cell cell' hcell hoverwrite
  cases hoverwrite
  exact inField_overwrite hcell hvalue

theorem ExecRefines.inScope (h : ExecRefines p exec exec') (henv : env.InField p) (stmt : Statement) :
    Refines (FrameInField p) (Interpreter.inScope exec stmt env)
      (Interpreter.inScope exec' stmt env) :=
  (h stmt (inField_addVariableBlock henv)).bind fun _ hframe =>
    Refines.ok ⟨hframe.1, inField_removeVariableBlock hframe.2⟩

theorem ExecRefines.sequence (h : ExecRefines p exec exec') (henv : env.InField p)
    (stmts : List Statement) :
    Refines (FrameInField p) (Interpreter.sequence exec stmts env)
      (Interpreter.sequence exec' stmts env) := by
  induction stmts generalizing env with
  | nil => exact Refines.ok ⟨trivial, henv⟩
  | cons stmt stmts ih =>
    refine (h stmt henv).bind fun frame hframe => ?_
    obtain ⟨flow, env'⟩ := frame
    cases flow with
    | continued => exact ih hframe.2
    | returned value => exact Refines.ok hframe

theorem ExecRefines.whileLoop (h : ExecRefines p exec exec') (heval : EvalRefines p eval eval')
    (hops : RefinedBy p ops ops') (cond : Expression) (stmt : Statement) (fuel : ℕ)
    (henv : env.InField p) :
    Refines (FrameInField p) (Interpreter.whileLoop ops eval exec cond stmt fuel env)
      (Interpreter.whileLoop ops' eval' exec' cond stmt fuel env) := by
  induction fuel generalizing env with
  | zero => exact Refines.error .fuel
  | succ fuel ih =>
    refine (heval.scalar henv cond).bind fun condition hcond => ?_
    rw [hops.truth hcond]
    refine Refines.ite ((h.inScope henv stmt).bind fun frame hframe => ?_) (Refines.ok ⟨trivial, henv⟩)
    obtain ⟨flow, env'⟩ := frame
    cases flow with
    | continued => exact ih hframe.2
    | returned value => exact Refines.ok hframe

theorem EvalRefines.parameters (h : EvalRefines p eval eval') (henv : env.InField p)
    (args : List (String × Expression)) {parameters : HashMap String ConstantValue}
    (hparameters : ∀ name value, parameters.lookup name = some value → value.InField p) :
    Refines (fun (parameters : HashMap String ConstantValue) =>
        ∀ name value, parameters.lookup name = some value → value.InField p)
      (args.foldlM (fun (parameters : HashMap String ConstantValue) e => do
        let value ← eval e.2 env
        .ok (parameters.insert e.1 value)) parameters)
      (args.foldlM (fun (parameters : HashMap String ConstantValue) e => do
        let value ← eval' e.2 env
        .ok (parameters.insert e.1 value)) parameters) := by
  induction args generalizing parameters with
  | nil => exact Refines.ok hparameters
  | cons arg args ih =>
    rw [List.foldlM_cons, List.foldlM_cons]
    refine Refines.bind (P := fun (parameters : HashMap String ConstantValue) =>
      ∀ name value, parameters.lookup name = some value → value.InField p) ?_ fun _ h => ih h
    exact (h arg.2 henv).bind fun value hvalue =>
      Refines.ok fun _ _ hv => inField_insert hparameters hvalue hv

end Steps

section Recursion

variable {p : ℕ} {ops ops' : Operators} (functions : FunctionInfo)

theorem evalRefines_succ (hops : RefinedBy p ops ops') {fuel : ℕ}
    (heval : EvalRefines p (Interpreter.eval ops functions fuel) (Interpreter.eval ops' functions fuel))
    (hexec : ExecRefines p (Interpreter.exec ops functions fuel) (Interpreter.exec ops' functions fuel)) :
    EvalRefines p (Interpreter.eval ops functions (fuel + 1))
      (Interpreter.eval ops' functions (fuel + 1)) := by
  intro expr env henv
  unfold Interpreter.eval
  cases expr with
  | number info value =>
    obtain ⟨hlt, heq⟩ := hops.number value
    dsimp only
    rw [heq]
    exact Refines.ok hlt
  | var info name access =>
    refine (heval.accessIndices henv access).bind fun indices _ => ?_
    refine (Refines.orStop .undeclared fun value hvalue => inField_getVariable henv hvalue).bind
      fun value hvalue => ?_
    exact Refines.orStop .outOfBounds fun element helement => inField_elements hvalue helement
  | arrayInLine info values =>
    have hnil : AllInField p [] := trivial
    exact (heval.arrayElements henv values hnil).bind fun _ h => Refines.ok h
  | uniformArray info value dimension =>
    refine (heval.scalar henv dimension).bind fun length _ => (heval value henv).bind fun element h => ?_
    refine Refines.ok (allInField_iff.mpr fun v hv => ?_)
    rw [List.eq_of_mem_replicate hv]
    exact h
  | infixOp info lhe op rhe =>
    refine (heval.scalar henv lhe).bind fun left hleft => (heval.scalar henv rhe).bind
      fun right hright => ?_
    exact (hops.infixOp op hleft hright).bind fun n hn => Refines.ok hn
  | prefixOp info op rhe =>
    refine (heval.scalar henv rhe).bind fun right hright => ?_
    obtain ⟨hlt, heq⟩ := hops.prefixOp op hright
    rw [heq]
    exact Refines.ok hlt
  | inlineSwitchOp info cond ifTrue ifFalse =>
    refine (heval.scalar henv cond).bind fun condition hcond => ?_
    rw [hops.truth hcond]
    exact heval _ henv
  | call info id args =>
    refine Refines.bind (P := fun _ => True) (Refines.orStop .undeclared fun _ _ => trivial)
      fun function _ => Refines.ite (Refines.error .type) ?_
    have hempty : ∀ name value, (∅ : HashMap String ConstantValue).lookup name = some value →
        value.InField p := fun _ _ h => by cases h
    refine (heval.parameters henv (function.nameOfParams.zip args) hempty).bind
      fun parameters hparameters => ?_
    have hscope : Scoped.InField p [parameters] := by
      intro scope hscope
      rw [List.mem_singleton.mp hscope]
      exact hparameters
    refine (hexec.inScope hscope function.body).bind fun frame hframe => ?_
    obtain ⟨flow, env'⟩ := frame
    cases flow with
    | continued => exact Refines.error .type
    | returned value => exact Refines.ok hframe.1
  | parallelOp info rhe => exact Refines.error .type
  | busCall info id args => exact Refines.error .type
  | anonymousComp info id isParallel params signals names => exact Refines.error .type
  | tuple info values => exact Refines.error .type

theorem execRefines_succ (hops : RefinedBy p ops ops') {fuel : ℕ}
    (heval : EvalRefines p (Interpreter.eval ops functions fuel) (Interpreter.eval ops' functions fuel))
    (hexec : ExecRefines p (Interpreter.exec ops functions fuel) (Interpreter.exec ops' functions fuel)) :
    ExecRefines p (Interpreter.exec ops functions (fuel + 1))
      (Interpreter.exec ops' functions (fuel + 1)) := by
  intro stmt env henv
  unfold Interpreter.exec
  cases stmt with
  | block info stmts =>
    exact (hexec.sequence (inField_addVariableBlock henv) stmts).bind fun _ hframe =>
      Refines.ok ⟨hframe.1, inField_removeVariableBlock hframe.2⟩
  | initializationBlock info xtype inits => exact hexec.sequence henv inits
  | declaration info xtype name dimensions isConstant isAnonymous =>
    cases xtype with
    | var =>
      obtain ⟨hlt, heq⟩ := hops.uninitialized
      refine (heval.scalars henv dimensions).bind fun lengths _ => ?_
      rw [heq]
      exact Refines.ok ⟨trivial, inField_addVariable henv name (inField_uniform hlt lengths)⟩
    | _ => exact Refines.error .type
  | substitution info var access op rhe =>
    cases op with
    | assignVar =>
      exact (heval.assign henv var access rhe).bind fun _ henv' => Refines.ok ⟨trivial, henv'⟩
    | _ => exact Refines.error .type
  | ifThenElse info cond ifCase elseCase =>
    refine (heval.scalar henv cond).bind fun condition hcond => ?_
    rw [hops.truth hcond]
    refine Refines.ite (hexec.inScope henv ifCase) ?_
    cases elseCase with
    | none => exact Refines.ok ⟨trivial, henv⟩
    | some elseCase => exact hexec.inScope henv elseCase
  | whileStmt info cond stmt => exact hexec.whileLoop heval hops cond stmt fuel henv
  | returnStmt info value =>
    exact (heval value henv).bind fun _ hvalue => Refines.ok ⟨hvalue, henv⟩
  | assert info arg =>
    refine (heval.scalar henv arg).bind fun value hvalue => ?_
    rw [hops.truth hvalue]
    exact Refines.ite (Refines.ok ⟨trivial, henv⟩) (Refines.error .assertion)
  | logCall info args =>
    exact (heval.scalars henv _).bind fun _ _ => Refines.ok ⟨trivial, henv⟩
  | multSubstitution info lhe op rhe => exact Refines.error .type
  | underscoreSubstitution info op rhe => exact Refines.error .type
  | constraintEquality info lhe rhe => exact Refines.error .type

/-- With the same fuel the two interpreters take the same steps. -/
theorem interpreter_refines (hops : RefinedBy p ops ops') (fuel : ℕ) :
    EvalRefines p (Interpreter.eval ops functions fuel) (Interpreter.eval ops' functions fuel) ∧
      ExecRefines p (Interpreter.exec ops functions fuel) (Interpreter.exec ops' functions fuel) := by
  induction fuel with
  | zero => exact ⟨fun _ _ _ => Refines.error .fuel, fun _ _ _ => Refines.error .fuel⟩
  | succ fuel ih =>
    exact ⟨evalRefines_succ functions hops ih.1 ih.2, execRefines_succ functions hops ih.1 ih.2⟩

end Recursion

end Circom.LlzkBackend
