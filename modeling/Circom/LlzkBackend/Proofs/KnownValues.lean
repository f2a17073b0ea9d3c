import Circom.LlzkBackend.Proofs.ConstantFolding
import Circom.LlzkBackend.Proofs.EvaluatorRecursion
import Circom.LlzkBackend.Proofs.OperatorRefinement

/-!
# Known values are values

What the evaluator of template preparation finds is what the interpreter computes with `modular_arithmetic`,
unless that stops at a shift whose count is too large for a machine word. An assignment keeps the constants
right, unless it infers the shape of an array that was not known.
-/

namespace Circom.LlzkBackend

open Circom.Algebra.ModularArithmetic (asBool modulus)
open Circom.Ast
open Circom.Lib (HashMap Scopes bind_eq_ok)
open Circom.ProgramStructure (Variables)
open Filter

variable {p : ℕ} {uninitialized : ℤ} {functions : FunctionInfo}
variable {value : ConstantValue} {constants : Constants} {expr : Expression} {access : List Access}
variable {env env' : Scoped} {var : String} {depth fuel : ℕ}

/-! ## The operators -/

/-- The backend and `modular_arithmetic` agree for the prime two as well. -/
theorem computeInfix_eq_two (op : ExpressionInfixOpcode) :
    ∀ a < 2, ∀ b < 2, (op.isDivision = true → b ≠ 0) →
      ∃ n < 2, computeInfix op a b 2 = .ok n ∧ (op.value a b (2 : ℕ)).getD 0 = (n : ℤ) := by
  cases op
  all_goals decide +kernel

theorem computeInfix_eq_of_prime (hp : p.Prime) {a b : ℕ} (ha : a < p) (hb : b < p)
    (op : ExpressionInfixOpcode) (h : op.isDivision = true → b ≠ 0) :
    ∃ n < p, computeInfix op a b p = .ok n ∧ (op.value a b p).getD 0 = (n : ℤ) := by
  rcases hp.eq_two_or_odd' with rfl | hodd
  · exact computeInfix_eq_two op a ha b hb h
  · exact computeInfix_eq hp hodd ha hb op h

theorem infixOp_refines (hp : p.Prime) (op : ExpressionInfixOpcode) {a b : ℕ} (ha : a < p) (hb : b < p) :
    Refines (fun n => n < p) ((backendOperators p 0).infixOp op a b)
      ((modularArithmetic p uninitialized).infixOp op a b) := by
  intro n hn
  simp only [backendOperators, Nat.mod_eq_of_lt ha, Nat.mod_eq_of_lt hb] at hn
  by_cases hzero : op.isDivision = true ∧ b = 0
  · obtain ⟨hop, rfl⟩ := hzero
    obtain ⟨f, hf, -⟩ := computeInfix_zero hp.one_lt a hop
    rw [hf] at hn
    cases hn
  · obtain ⟨m, hm, hcompute, hvalue⟩ :=
      computeInfix_eq_of_prime hp ha hb op fun hop h0 => hzero ⟨hop, h0⟩
    rw [hcompute] at hn
    cases hn
    refine ⟨hm, ?_⟩
    simp only [modularArithmetic]
    cases hv : op.value a b p with
    | some v =>
      rw [hv, Option.getD_some] at hvalue
      exact Or.inl (by rw [hvalue]; rfl)
    | none =>
      have hop : ¬ op.isDivision = true :=
        fun hop => value_isSome hp ha hb (fun h0 => hzero ⟨hop, h0⟩) hop hv
      exact Or.inr (by rw [if_neg hop])

theorem modulus_toNat_lt (hp : 0 < p) (n : ℤ) : (modulus n p).toNat < p := by
  have hp' : (0 : ℤ) < p := by exact_mod_cast hp
  obtain ⟨hnonneg, hlt⟩ := Algebra.ModularArithmetic.modulus_inField (a := n) hp'
  omega

/-- The interpreter with the operators of the backend is refined by the one with those of
`modular_arithmetic`. -/
theorem refinedBy_modularArithmetic (hp : p.Prime) (uninitialized : ℤ) :
    RefinedBy p (backendOperators p (modulus uninitialized p).toNat)
      (modularArithmetic p uninitialized) where
  number n := ⟨modulus_toNat_lt hp.pos n, rfl⟩
  infixOp op _ _ ha hb := infixOp_refines hp op ha hb
  prefixOp op a ha := by
    obtain ⟨hlt, heq⟩ := computePrefix_eq hp.one_lt ha op
    simp only [backendOperators, modularArithmetic, Nat.mod_eq_of_lt ha, heq]
    exact ⟨hlt, rfl⟩
  truth ha := asBool_eq ha
  uninitialized := ⟨modulus_toNat_lt hp.pos uninitialized, rfl⟩

/-! ## The interpreter of `modular_arithmetic` -/

namespace Interpreter

variable (p uninitialized functions) in
/-- With enough fuel the expression has the value. -/
def Returns (expr : Expression) (env : Scoped) (value : ConstantValue) : Prop :=
  ∀ᶠ fuel in atTop, eval (modularArithmetic p uninitialized) functions fuel expr env = .ok value

variable (p uninitialized functions) in
/-- However much fuel there is, the evaluation meets a shift whose count does not fit into a machine word. -/
def StopsAtShift (expr : Expression) (env : Scoped) : Prop :=
  ∃ᶠ fuel in atTop, eval (modularArithmetic p uninitialized) functions fuel expr env = .error .shift

variable (p uninitialized functions) in
/-- With enough fuel the assignment leaves the scopes. -/
def Assigns (var : String) (access : List Access) (expr : Expression) (env env' : Scoped) : Prop :=
  ∀ᶠ fuel in atTop,
    assign (eval (modularArithmetic p uninitialized) functions fuel) var access expr env = .ok env'

end Interpreter

/-- What is found with the operators of the backend is found with the others, up to a shift. -/
theorem eventually_refined (hp : p.Prime) (uninitialized : ℤ)
    (henv : env.InField p)
    (h : ∀ᶠ fuel in atTop, Interpreter.eval (backendOperators p (modulus uninitialized p).toNat)
      functions fuel expr env = .ok value) :
    ∀ᶠ fuel in atTop,
      Interpreter.eval (modularArithmetic p uninitialized) functions fuel expr env = .ok value ∨
      Interpreter.eval (modularArithmetic p uninitialized) functions fuel expr env = .error .shift := by
  filter_upwards [h] with fuel hfuel
  have hrefines := (interpreter_refines functions (refinedBy_modularArithmetic hp uninitialized)
    fuel).1 expr henv
  exact (hrefines value hfuel).2

theorem knownValue_returns_iff (hp : p.Prime) (hfunctions : functions.WellScoped) (henv : env.InField p)
    (hagree : env.AgreesWith constants)
    (h : Evaluator.Yields (Evaluator.knownValue p functions fuel depth expr constants) value) :
    Interpreter.Returns p uninitialized functions expr env value ↔
      ¬ Interpreter.StopsAtShift p uninitialized functions expr env := by
  have hvalue := (followsAt hp.pos hfunctions (modulus uninitialized p).toNat fuel).knownValue depth
    hagree h
  have hrefined := eventually_refined hp uninitialized henv hvalue
  constructor
  · intro hreturns hstops
    obtain ⟨fuel, hshift, hok⟩ := (hstops.and_eventually hreturns).exists
    rw [hshift] at hok
    cases hok
  · intro hstops
    filter_upwards [hrefined, not_frequently.mp hstops] with fuel hfuel hshift
    exact hfuel.resolve_right hshift

/-! ## Assignments -/

/-- What an assignment that succeeds has done. -/
theorem assign_eq_ok {eval : Expression → Scoped → Except Stop ConstantValue}
    (h : Interpreter.assign eval var access expr env = .ok env') :
    ∃ value indices old new, eval expr env = .ok value ∧
      Interpreter.accessIndices eval env access = .ok indices ∧ env.getVariable var = some old ∧
      old.modify (fun old => some (old.overwrite value)) indices = some new ∧
      env' = env.setVariable var new := by
  obtain ⟨value, hvalue, h⟩ := bind_eq_ok h
  obtain ⟨indices, hindices, h⟩ := bind_eq_ok h
  obtain ⟨old, hold, h⟩ := bind_eq_ok h
  obtain ⟨new, hnew, h⟩ := bind_eq_ok h
  cases h
  have hsome : ∀ {α : Type} {stop : Stop} {o : Option α} {a : α},
      Interpreter.orStop stop o = .ok a → o = some a := by
    intro α stop o a ho
    cases o with
    | none => cases ho
    | some b => exact congrArg some (Except.ok.inj ho)
  exact ⟨value, indices, old, new, hvalue, hindices, hsome hold, hsome hnew, rfl⟩

section Agreement

variable {env : Scoped} {constants : Constants} {var : String} {new : ConstantValue}

theorem getVariable_setVariable (hvar : (env.getVariable var).isSome) (new : ConstantValue)
    (name : String) : (Variables.setVariable var new env).getVariable name =
      if name = var then some new else env.getVariable name := by
  rw [setVariable_eq_set]
  exact Scopes.find_set hvar new name

/-- A forgotten variable can be assigned to. -/
theorem agreesWith_erase_setVariable (h : env.AgreesWith constants)
    (hvar : (env.getVariable var).isSome) (new : ConstantValue) :
    Scoped.AgreesWith (Variables.setVariable var new env) (constants.erase var) := by
  intro name value hvalue
  rw [getVariable_setVariable hvar]
  by_cases hname : name = var
  · subst hname
    rw [AList.lookup_erase] at hvalue
    cases hvalue
  · rw [if_neg hname]
    rw [AList.lookup_erase_ne hname] at hvalue
    exact h name value hvalue

/-- A recorded value is right if it is the one that the variable gets. -/
theorem agreesWith_insert_setVariable_iff (h : env.AgreesWith constants)
    (hvar : (env.getVariable var).isSome) (new known : ConstantValue) :
    Scoped.AgreesWith (Variables.setVariable var new env) (constants.insert var known) ↔
      new = known := by
  constructor
  · intro hagree
    have heq := hagree var known (AList.lookup_insert constants)
    rw [getVariable_setVariable hvar, if_pos rfl] at heq
    exact Option.some.inj heq
  · rintro rfl name value hvalue
    rw [getVariable_setVariable hvar]
    by_cases hname : name = var
    · subst hname
      rw [AList.lookup_insert] at hvalue
      rw [if_pos rfl, hvalue]
    · rw [if_neg hname]
      rw [AList.lookup_insert_ne hname] at hvalue
      exact h name value hvalue

end Agreement

/-- The variable is known, or the assignment is to a part of it, or the value has its shape. -/
def AssignmentFits (p : ℕ) (uninitialized : ℤ) (functions : FunctionInfo) (var : String)
    (access : List Access) (expr : Expression) (constants : Constants) (env : Scoped) : Prop :=
  var ∈ constants ∨ access ≠ [] ∨ ∀ old value, env.getVariable var = some old →
    Interpreter.Returns p uninitialized functions expr env value → old.overwrite value = value

/-- What the interpreter does in an assignment whose value and indices the evaluator knows. -/
theorem assigns_of_known (hp : p.Prime) (hfunctions : functions.WellScoped) (henv : env.InField p)
    (hagree : env.AgreesWith constants) {indices : List ℕ}
    (hvalue : Evaluator.Yields (Evaluator.knownValue p functions fuel depth expr constants) value)
    (hindices : Evaluator.Yields (Evaluator.accessIndices (Evaluator.knownValue p functions fuel depth) constants access) indices)
    (hassigns : Interpreter.Assigns p uninitialized functions var access expr env env') :
    Interpreter.Returns p uninitialized functions expr env value ∧
      ∃ old new, env.getVariable var = some old ∧
        old.modify (fun old => some (old.overwrite value)) indices = some new ∧
        env' = Variables.setVariable var new env := by
  have hfollows := (followsAt hp.pos hfunctions (modulus uninitialized p).toNat fuel).knownValue depth
  have hreturns : Interpreter.Returns p uninitialized functions expr env value := by
    filter_upwards [eventually_refined hp uninitialized henv (hfollows hagree hvalue), hassigns]
      with n hn hassign
    obtain ⟨value', -, -, -, hvalue', -⟩ := assign_eq_ok hassign
    rcases hn with hn | hn
    · exact hn
    · rw [hvalue'] at hn
      cases hn
  have haccess : ∀ᶠ n in atTop, Interpreter.accessIndices
      (Interpreter.eval (modularArithmetic p uninitialized) functions n) env access = .ok indices := by
    filter_upwards [hfollows.accessIndices hagree hindices, hassigns] with n hn hassign
    obtain ⟨-, indices', -, -, -, hindices', -⟩ := assign_eq_ok hassign
    have heval := (interpreter_refines functions (refinedBy_modularArithmetic hp uninitialized) n).1
    rcases (heval.accessIndices henv access indices hn).2 with hn | hn
    · exact hn
    · rw [hindices'] at hn
      cases hn
  obtain ⟨n, hassign, hn, haccess⟩ := (hassigns.and (hreturns.and haccess)).exists
  obtain ⟨value', indices', old, new, hvalue', hindices', hold, hnew, henv'⟩ := assign_eq_ok hassign
  rw [hn] at hvalue'
  rw [haccess] at hindices'
  cases hvalue'
  cases hindices'
  exact ⟨hreturns, old, new, hold, hnew, henv'⟩

theorem accessIndices_yields_nil {known : Expression → Constants → Evaluator.Speculative ConstantValue}
    (h : Evaluator.Yields (Evaluator.accessIndices known constants access) []) : access = [] := by
  cases access with
  | nil => rfl
  | cons item access =>
    cases item with
    | componentAccess name => exact absurd h Evaluator.not_yields_failure
    | arrayAccess index =>
      obtain ⟨_, -, h⟩ := h.of_bind
      obtain ⟨_, -, h⟩ := h.of_bind
      obtain ⟨_, -, h⟩ := h.of_bind
      cases h.of_pure

theorem assign_agrees_iff (hp : p.Prime) (hfunctions : functions.WellScoped) {constants' : Constants}
    (henv : env.InField p) (hagree : env.AgreesWith constants) {updated : Bool} {s s' : ℕ}
    (h : (Evaluator.assign (Evaluator.knownValue p functions fuel depth) var access expr constants).run s = .ok ((updated, constants'), s'))
    (hassigns : Interpreter.Assigns p uninitialized functions var access expr env env') :
    env'.AgreesWith constants' ↔
      (updated = true → AssignmentFits p uninitialized functions var access expr constants env) := by
  rcases assign_cases h with
    ⟨rfl, rfl⟩ | ⟨rfl, value, indices, new, hvalue, hindices, rfl, hnew⟩
  · obtain ⟨n, hn⟩ := hassigns.exists
    obtain ⟨-, -, old, new, -, -, hold, -, rfl⟩ := assign_eq_ok hn
    have hvar := Option.isSome_iff_exists.mpr ⟨old, hold⟩
    exact iff_of_true (agreesWith_erase_setVariable hagree hvar new) fun h => by cases h
  · obtain ⟨hreturns, old, new', hold, hnew', rfl⟩ :=
      assigns_of_known hp hfunctions henv hagree hvalue hindices hassigns
    have hvar := Option.isSome_iff_exists.mpr ⟨old, hold⟩
    rw [agreesWith_insert_setVariable_iff hagree hvar]
    rcases hnew with ⟨hnone, rfl, rfl⟩ | ⟨old', hold', hmodify⟩
    · -- nothing is known of the variable, and the whole of it is assigned to
      cases accessIndices_yields_nil hindices
      cases hnew'
      constructor
      · intro hshape _
        refine Or.inr (Or.inr fun old' value' hold' hvalue' => ?_)
        rw [hold] at hold'
        cases hold'
        cases eq_of_eventually hreturns hvalue'
        exact hshape
      · intro hfits
        rcases hfits rfl with hknown | haccess | hshape
        · exact absurd hknown (AList.lookup_eq_none.mp hnone)
        · exact absurd rfl haccess
        · exact hshape old _ hold hreturns
    · have heq := hagree var old' hold'
      rw [hold] at heq
      cases heq
      rw [hmodify] at hnew'
      cases hnew'
      exact iff_of_true rfl fun _ => Or.inl (AList.mem_iff_exists_lookup.mpr ⟨old, hold'⟩)

/-- The evaluator finds the values of the interpreter wherever no shift has a count that is too large, and an
assignment keeps the constants right if and only if it infers no other shape. -/
theorem evaluator_neverGuesses_iff (hp : p.Prime) (hfunctions : functions.WellScoped)
    (uninitialized : ℤ) :
    (∀ (fuel depth : ℕ) (expr : Expression) (constants : Constants) (env : Scoped)
      (value : ConstantValue), env.InField p → env.AgreesWith constants →
      Evaluator.Yields (Evaluator.knownValue p functions fuel depth expr constants) value →
      (Interpreter.Returns p uninitialized functions expr env value ↔
        ¬ Interpreter.StopsAtShift p uninitialized functions expr env)) ∧
    (∀ (fuel depth : ℕ) (var : String) (access : List Access) (expr : Expression)
      (constants constants' : Constants) (env env' : Scoped) (updated : Bool) (s s' : ℕ),
      env.InField p → env.AgreesWith constants →
      (Evaluator.assign (Evaluator.knownValue p functions fuel depth) var access expr
        constants).run s = .ok ((updated, constants'), s') →
      Interpreter.Assigns p uninitialized functions var access expr env env' →
      (env'.AgreesWith constants' ↔
        (updated = true →
          AssignmentFits p uninitialized functions var access expr constants env))) :=
  ⟨fun _ _ _ _ _ _ henv hagree h => knownValue_returns_iff hp hfunctions henv hagree h,
    fun _ _ _ _ _ _ _ _ _ _ _ _ henv hagree h hassigns =>
      assign_agrees_iff hp hfunctions henv hagree h hassigns⟩

/-! ## A function and an assignment -/

def numberOf (n : ℤ) : Expression := .number ⟨0, 0, none⟩ n

/-- `function f(n) { var a[2]; a[0] = n; return a; }` -/
def pairFunction : FunctionData where
  nameOfParams := ["n"]
  body := .block ⟨0, 0, none⟩
    [.initializationBlock ⟨1, 0, none⟩ .var
      [.declaration ⟨2, 0, none⟩ .var "a" [numberOf 2] false false,
        .substitution ⟨3, 0, none⟩ "a" [] .assignVar
          (.uniformArray ⟨4, 0, none⟩ (numberOf 0) (numberOf 2))],
      .substitution ⟨5, 0, none⟩ "a" [.arrayAccess (numberOf 0)] .assignVar
        (.var ⟨6, 0, none⟩ "n" []),
      .returnStmt ⟨7, 0, none⟩ (.var ⟨8, 0, none⟩ "a" [])]

def pairFunctions : FunctionInfo := (∅ : FunctionInfo).insert "f" pairFunction

def pairCall : Expression := .call ⟨0, 0, none⟩ "f" [numberOf 3]

def pairValue : ConstantValue := .array [.scalar 3, .scalar 0]

/-- A scope with one array of zeros. -/
def arrayScope (length : ℕ) : Scoped :=
  [(∅ : HashMap String ConstantValue).insert "x" (.uniform 0 [length])]

theorem pairFunctions_wellScoped : pairFunctions.WellScoped := by
  intro id function h
  by_cases hid : id = "f"
  · subst hid
    cases (AList.lookup_insert _).symm.trans h
    simp [pairFunction, WellScoped, AllWellScoped, InitializationsWellScoped, IsDeclaration,
      Statement.declares, declaredNames]
  · cases (AList.lookup_insert_ne hid).symm.trans h

theorem inField_arrayScope (length : ℕ) : (arrayScope length).InField 7 := by
  intro scope hscope name value hvalue
  rw [List.mem_singleton.mp hscope] at hvalue
  have hnone : ∀ n v, (∅ : HashMap String ConstantValue).lookup n = some v → v.InField 7 :=
    fun _ _ h => by cases h
  exact inField_insert hnone (inField_uniform (by decide) [length]) hvalue

theorem agreesWith_empty (env : Scoped) : env.AgreesWith ∅ := fun _ _ h => by cases h

/-- The call of the function in an assignment to an array of two cells. -/
theorem evaluator_neverGuesses_iff_pair :
    (Interpreter.Returns 7 0 pairFunctions pairCall (arrayScope 2) pairValue ↔
      ¬ Interpreter.StopsAtShift 7 0 pairFunctions pairCall (arrayScope 2)) ∧
    (Scoped.AgreesWith [(∅ : HashMap String ConstantValue).insert "x" pairValue]
      ((∅ : Constants).insert "x" pairValue) ↔
      (true = true → AssignmentFits 7 0 pairFunctions "x" [] pairCall ∅ (arrayScope 2))) := by
  have hp : Nat.Prime 7 := by norm_num
  obtain ⟨hknown, hassign⟩ := evaluator_neverGuesses_iff hp pairFunctions_wellScoped 0
  constructor
  · exact hknown 60 0 pairCall ∅ (arrayScope 2) pairValue (inField_arrayScope 2) (agreesWith_empty _)
      ⟨60, 38, rfl⟩
  · refine hassign 60 0 "x" [] pairCall ∅ _ (arrayScope 2) _ true 60 38 (inField_arrayScope 2)
      (agreesWith_empty _) rfl (eventually_atTop.mpr ⟨10, fun fuel hfuel => ?_⟩)
    obtain ⟨k, rfl⟩ := Nat.exists_eq_add_of_le' hfuel
    rfl

/-- An array of three cells about which nothing is known is taken for one of two cells. -/
theorem assign_infersShape :
    (arrayScope 3).InField 7 ∧ (arrayScope 3).AgreesWith ∅ ∧
      (Evaluator.assign (Evaluator.knownValue 7 ∅ 10 0) "x" [] (.arrayInLine ⟨0, 0, none⟩
        [numberOf 1, numberOf 2]) ∅).run 10 =
          .ok ((true, (∅ : Constants).insert "x" (.array [.scalar 1, .scalar 2])), 7) ∧
      Interpreter.Assigns 7 0 ∅ "x" [] (.arrayInLine ⟨0, 0, none⟩ [numberOf 1, numberOf 2])
        (arrayScope 3)
        [(∅ : HashMap String ConstantValue).insert "x" (.array [.scalar 1, .scalar 2, .scalar 0])] ∧
      ¬ Scoped.AgreesWith
        [(∅ : HashMap String ConstantValue).insert "x" (.array [.scalar 1, .scalar 2, .scalar 0])]
        ((∅ : Constants).insert "x" (.array [.scalar 1, .scalar 2])) := by
  refine ⟨inField_arrayScope 3, agreesWith_empty _, rfl, ?_, ?_⟩
  · exact eventually_of_succ (eventually_of_succ (Eventually.of_forall fun _ => rfl))
  · intro h
    have hx := h "x" _ rfl
    cases hx

end Circom.LlzkBackend
