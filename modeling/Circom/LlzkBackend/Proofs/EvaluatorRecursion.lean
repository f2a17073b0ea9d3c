import Circom.LlzkBackend.Proofs.EvaluatorSteps
import Circom.LlzkBackend.Proofs.Operators

/-!
# The recursion of the evaluator

By induction on the depth of its recursion the evaluator follows the interpreter that has the operators of
the backend.
-/

namespace Circom.LlzkBackend

open Circom.Algebra.ModularArithmetic (modulus)
open Circom.Ast
open Circom.Lib (HashMap Saved Scopes Represents Tracks)
open Circom.ProgramStructure (Variables)
open Filter

variable {prime : ℕ} {functions : FunctionInfo}

/-- The operators of the backend. -/
def backendOperators (prime uninitialized : ℕ) : Operators where
  number n := (modulus n prime).toNat
  infixOp op left right :=
    match computeInfix op (left % prime) (right % prime) prime with
    | .ok value => .ok value
    | .error _ => .error .zeroDivisor
  prefixOp op right := computePrefix op (right % prime) prime
  truth n := n ≠ 0
  uninitialized := uninitialized

variable (prime functions) in
/-- What the evaluator is shown to do at one depth of its recursion. -/
structure FollowsAt (uninitialized fuel : ℕ) : Prop where
  knownValue (depth : ℕ) : Follows (Evaluator.knownValue prime functions fuel depth)
    (Interpreter.eval (backendOperators prime uninitialized) functions)
  statement (depth : ℕ) : FollowsStatement (Evaluator.statement prime functions fuel depth)
    (Interpreter.exec (backendOperators prime uninitialized) functions)
  array (depth : ℕ) : FollowsArray (Evaluator.statement prime functions fuel depth)
    (Interpreter.eval (backendOperators prime uninitialized) functions)
    (Interpreter.exec (backendOperators prime uninitialized) functions)

variable {uninitialized fuel depth : ℕ} {constants constants' : Constants} {env : Scoped}

theorem tryComputeBiguint_number (hprime : 0 < prime) {info : Meta} {value : ℤ} {n : ℕ}
    (h : tryComputeBiguint prime (.number info value) = .ok (some n)) :
    n = (modulus value prime).toNat := by
  unfold tryComputeBiguint at h
  split_ifs at h with hvalue
  obtain ⟨m, rfl⟩ := Int.eq_ofNat_of_zero_le hvalue
  rw [modulus_natCast hprime, Int.toNat_natCast]
  cases h
  rfl

theorem tryComputeBiguint_natCast (info : Meta) (n : ℕ) :
    tryComputeBiguint prime (.number info n) = .ok (some (n % prime)) := by
  unfold tryComputeBiguint
  rw [if_pos (Int.natCast_nonneg n), Int.toNat_natCast]

theorem backendOperators_infixOp {info : Meta} {op : ExpressionInfixOpcode} {left right n : ℕ}
    (h : tryComputeBiguint prime (.infixOp info (.number info left) op (.number info right)) =
      .ok (some n)) : (backendOperators prime uninitialized).infixOp op left right = .ok n := by
  rw [tryComputeBiguint, tryComputeBiguint_natCast, tryComputeBiguint_natCast] at h
  obtain ⟨m, hm, h⟩ := Lib.bind_eq_ok (x := computeInfix op (left % prime) (right % prime) prime) h
  cases h
  simp only [backendOperators, hm]

theorem backendOperators_prefixOp {info : Meta} {op : ExpressionPrefixOpcode} {right n : ℕ}
    (h : tryComputeBiguint prime (.prefixOp info op (.number info right)) = .ok (some n)) :
    (backendOperators prime uninitialized).prefixOp op right = n := by
  rw [tryComputeBiguint, tryComputeBiguint_natCast] at h
  cases h
  rfl

/-- A call binds every parameter. -/
theorem mem_of_parameters {known : Expression → Constants → Evaluator.Speculative ConstantValue}
    {args : List (String × Expression)} {parameters parameters' : HashMap String ConstantValue}
    (h : Evaluator.Yields (args.foldlM (fun (parameters : Constants) e => do
      let value ← known e.2 constants
      pure (parameters.insert e.1 value)) parameters) parameters') {name : String}
    (hname : name ∈ args.map Prod.fst ∨ name ∈ parameters) : name ∈ parameters' := by
  induction args generalizing parameters with
  | nil =>
    rw [h.of_pure]
    exact hname.resolve_left List.not_mem_nil
  | cons arg args ih =>
    rw [List.foldlM_cons] at h
    obtain ⟨next, hnext, h⟩ := h.of_bind
    obtain ⟨value, -, hnext⟩ := hnext.of_bind
    rw [hnext.of_pure] at h
    apply ih h
    rw [AList.mem_insert]
    rw [List.map_cons, List.mem_cons] at hname
    tauto

theorem FollowsAt.knownValue_succ (h : FollowsAt prime functions uninitialized fuel)
    (hprime : 0 < prime) (hfunctions : functions.WellScoped) (depth : ℕ) :
    Follows (Evaluator.knownValue prime functions (fuel + 1) depth)
      (Interpreter.eval (backendOperators prime uninitialized) functions) := by
  intro expr constants env value hagree hyields
  have hknown := h.knownValue depth
  unfold Evaluator.knownValue at hyields
  obtain ⟨⟨⟩, -, hyields⟩ := hyields.of_bind
  apply eventually_of_succ
  cases expr with
  | number info n =>
    obtain ⟨m, hm, hyields⟩ := hyields.of_bind
    rw [hyields.of_pure, tryComputeBiguint_number hprime hm.of_attempt]
    exact Eventually.of_forall fun _ => rfl
  | var info name access =>
    obtain ⟨indices, hindices, hyields⟩ := hyields.of_bind
    obtain ⟨content, hcontent, hyields⟩ := hyields.of_bind
    obtain ⟨element, helement, hyields⟩ := hyields.of_bind
    obtain ⟨⟨⟩, -, hyields⟩ := hyields.of_bind
    rw [hyields.of_pure]
    filter_upwards [hknown.accessIndices hagree hindices] with fuel hfuel
    rw [Interpreter.eval, hfuel, hagree name content hcontent.of_known]
    exact congrArg (Interpreter.orStop .outOfBounds) helement.of_known
  | arrayInLine info values =>
    obtain ⟨⟨⟩, -, hyields⟩ := hyields.of_bind
    obtain ⟨elements, helements, hyields⟩ := hyields.of_bind
    rw [hyields.of_pure]
    filter_upwards [hknown.arrayElements hagree helements] with fuel hfuel
    rw [Interpreter.eval, hfuel]
    rfl
  | uniformArray info initializer dimension =>
    obtain ⟨length, hlength, hyields⟩ := hyields.of_bind
    obtain ⟨length', hlength', hyields⟩ := hyields.of_bind
    obtain ⟨⟨⟩, -, hyields⟩ := hyields.of_bind
    obtain ⟨element, helement, hyields⟩ := hyields.of_bind
    obtain ⟨size, -, hyields⟩ := hyields.of_bind
    obtain ⟨cost, -, hyields⟩ := hyields.of_bind
    obtain ⟨⟨⟩, -, hyields⟩ := hyields.of_bind
    rw [hyields.of_pure, eq_of_toUsize hlength'.of_known]
    filter_upwards [hknown.scalar hagree hlength, hknown hagree helement] with fuel hlength helement
    rw [Interpreter.eval, hlength, helement]
    rfl
  | infixOp info lhe op rhe =>
    obtain ⟨left, hleft, hyields⟩ := hyields.of_bind
    obtain ⟨right, hright, hyields⟩ := hyields.of_bind
    rcases hyields.of_ite with ⟨-, hzero⟩ | ⟨-, hyields⟩
    · cases hzero.of_attempt
    · obtain ⟨n, hn, hyields⟩ := hyields.of_bind
      rw [hyields.of_pure]
      filter_upwards [hknown.scalar hagree hleft, hknown.scalar hagree hright] with fuel hl hr
      rw [Interpreter.eval, hl, hr]
      show ((backendOperators prime uninitialized).infixOp op left right >>= _) = _
      rw [backendOperators_infixOp hn.of_attempt]
      rfl
  | prefixOp info op rhe =>
    obtain ⟨right, hright, hyields⟩ := hyields.of_bind
    obtain ⟨n, hn, hyields⟩ := hyields.of_bind
    rw [hyields.of_pure, ← backendOperators_prefixOp hn.of_attempt]
    filter_upwards [hknown.scalar hagree hright] with fuel hr
    rw [Interpreter.eval, hr]
    rfl
  | inlineSwitchOp info cond ifTrue ifFalse =>
    obtain ⟨condition, hcond, hyields⟩ := hyields.of_bind
    filter_upwards [hknown.scalar hagree hcond, hknown hagree hyields] with fuel hcond hbranch
    rw [Interpreter.eval, hcond]
    refine Eq.trans ?_ hbranch
    show Interpreter.eval _ functions fuel
      (if decide (condition ≠ 0) = true then ifTrue else ifFalse) env = _
    by_cases hzero : condition = 0
    · simp [hzero]
    · simp [hzero]
  | call info id args =>
    obtain ⟨function, hfunction, hyields⟩ := hyields.of_bind
    rcases hyields.of_ite with ⟨-, hyields⟩ | ⟨harity, hyields⟩
    · exact absurd hyields Evaluator.not_yields_failure
    · rw [not_or, not_not] at harity
      obtain ⟨parameters, hparameters, hyields⟩ := hyields.of_bind
      obtain ⟨⟨flow, constants'⟩, hbody, hyields⟩ := hyields.of_bind
      have hvisible : Visible [parameters.mapValues fun _ => none] function.nameOfParams := by
        intro name hname
        refine ⟨_, List.mem_singleton.mpr rfl, (AList.mem_mapValues _ _).mpr ?_⟩
        apply mem_of_parameters hparameters
        left
        rw [List.map_fst_zip (le_of_eq harity.2.symm)]
        exact hname
      obtain ⟨env', hrun, -⟩ := (h.statement (depth + 1)).scoped (Lib.tracks_singleton parameters)
        (hfunctions id function hfunction.of_known) hvisible hbody
      cases flow with
      | continued => exact absurd hyields Evaluator.not_yields_failure
      | returned result =>
        rw [hyields.of_pure]
        filter_upwards [hknown.parameters hagree hparameters, hrun] with fuel hfuel hbody
        rw [Interpreter.eval, hfunction.of_known]
        show (if args.length ≠ function.numOfParams then _ else _) = _
        rw [if_neg (not_not.mpr harity.2), hfuel]
        show (Interpreter.inScope _ function.body [parameters] >>= _) = _
        rw [hbody]
        rfl
  | parallelOp info rhe => exact absurd hyields Evaluator.not_yields_failure
  | busCall info id args => exact absurd hyields Evaluator.not_yields_failure
  | anonymousComp info id isParallel params signals names =>
    exact absurd hyields Evaluator.not_yields_failure
  | tuple info values => exact absurd hyields Evaluator.not_yields_failure

theorem Runs.of_succ {run : ℕ → Except Stop (Flow × Scoped)} {flow : Flow}
    {saves : List (Saved String ConstantValue)}
    (h : Runs (fun fuel => run (fuel + 1)) flow constants saves) : Runs run flow constants saves := by
  obtain ⟨env, hrun, htracks⟩ := h
  exact ⟨env, eventually_of_succ hrun, htracks⟩

theorem Runs.congr {run run' : ℕ → Except Stop (Flow × Scoped)} {flow : Flow}
    {saves : List (Saved String ConstantValue)} (h : Runs run flow constants saves)
    (hrun : ∀ᶠ fuel in atTop, run' fuel = run fuel) : Runs run' flow constants saves := by
  obtain ⟨env, henv, htracks⟩ := h
  refine ⟨env, ?_, htracks⟩
  filter_upwards [hrun, henv] with fuel hfuel henv
  rw [hfuel, henv]

theorem FollowsAt.statement_succ (h : FollowsAt prime functions uninitialized fuel) (depth : ℕ) :
    FollowsStatement (Evaluator.statement prime functions (fuel + 1) depth)
      (Interpreter.exec (backendOperators prime uninitialized) functions) := by
  intro names stmt constants shadowed saves env flow constants' shadowed' htracks hscoped hvisible
    hyields
  have hknown := h.knownValue depth
  have hstatement := h.statement depth
  have hagree := agreesWith_of_tracks htracks
  unfold Evaluator.statement at hyields
  obtain ⟨⟨⟩, -, hyields⟩ := hyields.of_bind
  have hkept : shadowed' = shadowed → stmt.declares = [] →
      flow = .continued → ∀ name, name ∈ shadowed ∨ name ∈ stmt.declares → name ∈ shadowed' := by
    intro hshadowed hdeclares _ name hname
    rw [hdeclares] at hname
    exact hshadowed ▸ hname.resolve_right List.not_mem_nil
  cases stmt with
  | block info stmts =>
    obtain ⟨⟨flow', constants'', locals⟩, hblock, hyields⟩ := hyields.of_bind
    obtain ⟨rfl, rfl, rfl⟩ := hyields.of_pure_frame
    refine ⟨Runs.of_succ ?_, hkept rfl rfl⟩
    exact (hstatement.block htracks.enter hscoped hvisible.weaken hblock).leave
  | initializationBlock info xtype inits =>
    obtain ⟨hrun, hnames⟩ :=
      hstatement.initializations (h.array depth) hknown htracks hscoped hvisible hyields
    exact ⟨Runs.of_succ hrun, hnames⟩
  | declaration info xtype name dimensions isConstant isAnonymous =>
    cases xtype with
    | var =>
      obtain ⟨⟨⟩, -, hyields⟩ := hyields.of_bind
      obtain ⟨rfl, rfl, rfl⟩ := hyields.of_pure_frame
      obtain rfl := hscoped rfl
      refine ⟨Runs.of_succ ?_, fun _ n hn => ?_⟩
      · cases env with
        | nil => exact htracks.elim
        | cons scope env =>
          refine ⟨_, Eventually.of_forall fun _ => rfl, fun _ => ?_⟩
          refine htracks.declare (fun j hj => AList.lookup_erase_ne hj) (Or.inr ⟨?_, _, rfl⟩)
          exact AList.lookup_erase name constants
      · rw [Saved.mem_save]
        exact hn.symm.imp_left List.mem_singleton.mp
    | _ => exact absurd hyields Evaluator.not_yields_failure
  | substitution info var access op rhe =>
    cases op with
    | assignVar =>
      obtain ⟨⟨updated, constants''⟩, hassign, hyields⟩ := hyields.of_bind
      obtain ⟨s, s', hassign⟩ := hassign.of_lift
      rcases hyields.of_ite with ⟨htrue, hyields⟩ | ⟨-, hyields⟩
      · obtain ⟨rfl, rfl, rfl⟩ := hyields.of_pure_frame
        rcases assign_cases hassign with
          ⟨rfl, -⟩ | ⟨-, value, indices, new, hvalue, hindices, rfl, hnew⟩
        · cases htrue
        · obtain ⟨env', hrun, htracks'⟩ :=
            hknown.assign_tracks htracks (hvisible var hscoped) hvalue hindices hnew
          refine ⟨Runs.of_succ ⟨env', ?_, fun _ => htracks'⟩, hkept rfl rfl⟩
          filter_upwards [hrun] with fuel hfuel
          rw [Interpreter.exec, hfuel]
          rfl
      · exact absurd hyields Evaluator.not_yields_failure
    | _ => exact absurd hyields Evaluator.not_yields_failure
  | ifThenElse info cond ifCase elseCase =>
    obtain ⟨condition, hyieldsCond, hyields⟩ := hyields.of_bind
    have hcond := hknown.scalar hagree hyieldsCond
    have hifCase : WellScoped names ifCase := by
      cases elseCase with
      | none => exact hscoped
      | some elseCase => exact hscoped.1
    rcases hyields.of_ite with ⟨hzero, hyields⟩ | ⟨hzero, hyields⟩
    · obtain ⟨⟨flow', constants''⟩, hbranch, hyields⟩ := hyields.of_bind
      obtain ⟨rfl, rfl, rfl⟩ := hyields.of_pure_frame
      refine ⟨Runs.of_succ ((hstatement.scoped htracks hifCase hvisible hbranch).congr ?_),
        hkept rfl rfl⟩
      filter_upwards [hcond] with fuel hfuel
      show (Interpreter.scalar (Interpreter.eval _ functions fuel) cond env >>= _) = _
      rw [hfuel]
      exact if_pos (decide_eq_true hzero)
    · have hfalse : ¬ (backendOperators prime uninitialized).truth condition = true :=
        fun h => hzero (of_decide_eq_true h)
      cases elseCase with
      | none =>
        obtain ⟨rfl, rfl, rfl⟩ := hyields.of_pure_frame
        refine ⟨Runs.of_succ ⟨env, ?_, fun _ => htracks⟩, hkept rfl rfl⟩
        filter_upwards [hcond] with fuel hfuel
        show (Interpreter.scalar (Interpreter.eval _ functions fuel) cond env >>= _) = _
        rw [hfuel]
        exact if_neg hfalse
      | some elseCase =>
        obtain ⟨⟨flow', constants''⟩, hbranch, hyields⟩ := hyields.of_bind
        obtain ⟨rfl, rfl, rfl⟩ := hyields.of_pure_frame
        refine ⟨Runs.of_succ ((hstatement.scoped htracks hscoped.2 hvisible hbranch).congr ?_),
          hkept rfl rfl⟩
        filter_upwards [hcond] with fuel hfuel
        show (Interpreter.scalar (Interpreter.eval _ functions fuel) cond env >>= _) = _
        rw [hfuel]
        exact if_neg hfalse
  | whileStmt info cond stmt =>
    obtain ⟨⟨flow', constants''⟩, hloop, hyields⟩ := hyields.of_bind
    obtain ⟨rfl, rfl, rfl⟩ := hyields.of_pure_frame
    have hbody : WellScoped names stmt := hscoped
    have htruth : ∀ n, (backendOperators prime uninitialized).truth n = decide (n ≠ 0) := fun _ => rfl
    obtain ⟨env', hrun, htracks'⟩ :=
      hstatement.whileLoop hknown htruth hbody hvisible fuel htracks hloop
    refine ⟨Runs.of_succ ⟨env', ?_, htracks'⟩, hkept rfl rfl⟩
    filter_upwards [hrun, eventually_ge_atTop fuel] with n hn hge
    exact hn n hge
  | returnStmt info value =>
    obtain ⟨result, hresult, hyields⟩ := hyields.of_bind
    obtain ⟨rfl, hrest⟩ := Prod.mk.inj hyields.of_pure
    refine ⟨Runs.of_succ ⟨env, ?_, fun h => by cases h⟩, fun h => by cases h⟩
    filter_upwards [hknown hagree hresult] with fuel hfuel
    rw [Interpreter.exec, hfuel]
    rfl
  | assert info arg =>
    obtain ⟨value, hvalue, hyields⟩ := hyields.of_bind
    rcases hyields.of_ite with ⟨hvalue', hyields⟩ | ⟨-, hyields⟩
    · obtain ⟨rfl, rfl, rfl⟩ := hyields.of_pure_frame
      refine ⟨Runs.of_succ ⟨env, ?_, fun _ => htracks⟩, hkept rfl rfl⟩
      filter_upwards [hknown.scalar hagree hvalue] with fuel hfuel
      rw [Interpreter.exec, hfuel]
      exact if_pos (decide_eq_true hvalue')
    · exact absurd hyields Evaluator.not_yields_failure
  | multSubstitution info lhe op rhe => exact absurd hyields Evaluator.not_yields_failure
  | underscoreSubstitution info op rhe => exact absurd hyields Evaluator.not_yields_failure
  | constraintEquality info lhe rhe => exact absurd hyields Evaluator.not_yields_failure
  | logCall info args => exact absurd hyields Evaluator.not_yields_failure

/-- The value of the initializer has the declared shape. -/
theorem ZeroInitializer.eval_eq (hprime : 0 < prime) {dimensions : List Expression} {initializer : Expression}
    {lengths : List ℕ} (h : ZeroInitializer
      (Interpreter.eval (backendOperators prime uninitialized) functions) env dimensions initializer
      lengths) :
    ∀ᶠ fuel in atTop, Interpreter.eval (backendOperators prime uninitialized) functions fuel
      initializer env = .ok (ConstantValue.uniform 0 lengths) := by
  induction h with
  | number =>
    apply eventually_of_succ
    refine Eventually.of_forall fun fuel => ?_
    rw [Interpreter.eval]
    show Except.ok (ConstantValue.scalar (modulus (0 : ℕ) prime).toNat) = _
    rw [modulus_natCast hprime, Nat.zero_mod]
    rfl
  | uniformArray _ hdimension _ ih =>
    apply eventually_of_succ
    filter_upwards [hdimension, ih] with fuel hdimension hinitializer
    rw [Interpreter.eval, hdimension, hinitializer]
    rfl

theorem agreesWith_erase (h : env.AgreesWith constants) (name : String) :
    Scoped.AgreesWith env (constants.erase name) := by
  intro n value hn
  by_cases hname : n = name
  · subst hname
    rw [AList.lookup_erase] at hn
    cases hn
  · rw [AList.lookup_erase_ne hname] at hn
    exact h n value hn

theorem agreesWith_declared {scope : HashMap String ConstantValue}
    (h : Scoped.AgreesWith (scope :: env) constants) (name : String) (value : ConstantValue) :
    Scoped.AgreesWith (scope.insert name value :: env) (constants.erase name) := by
  intro n known hn
  have hagree := agreesWith_erase h name n known hn
  by_cases hname : n = name
  · subst hname
    rw [AList.lookup_erase] at hn
    cases hn
  · exact (Scopes.find_insert scope env name n value).trans ((if_neg hname).trans hagree)

theorem FollowsAt.array_succ (h : FollowsAt prime functions uninitialized fuel) (hprime : 0 < prime)
    (depth : ℕ) :
    FollowsArray (Evaluator.statement prime functions (fuel + 1) depth)
      (Interpreter.eval (backendOperators prime uninitialized) functions)
      (Interpreter.exec (backendOperators prime uninitialized) functions) := by
  intro info info' name dimensions isConstant isAnonymous rhe lengths constants shadowed saves env flow
    constants' shadowed' htracks hzero hdeclaration
  have hknown := h.knownValue depth
  unfold Evaluator.statement at hdeclaration
  obtain ⟨⟨⟩, -, hdeclaration⟩ := hdeclaration.of_bind
  obtain ⟨⟨⟩, -, hdeclaration⟩ := hdeclaration.of_bind
  obtain ⟨rfl, rfl, rfl⟩ := hdeclaration.of_pure_frame
  refine ⟨rfl, fun flow' constants'' shadowed'' hyields => ?_⟩
  unfold Evaluator.statement at hyields
  obtain ⟨⟨⟩, -, hyields⟩ := hyields.of_bind
  obtain ⟨⟨updated, constants₁⟩, hassign, hyields⟩ := hyields.of_bind
  obtain ⟨s, s', hassign⟩ := hassign.of_lift
  rcases hyields.of_ite with ⟨htrue, hyields⟩ | ⟨-, hyields⟩
  · obtain ⟨rfl, rfl, rfl⟩ := hyields.of_pure_frame
    rcases assign_cases hassign with ⟨rfl, -⟩ | ⟨-, value, indices, new, hvalue, hindices, rfl, hnew⟩
    · cases htrue
    · cases hindices.of_pure
      -- the shape of the value is found out in the scopes before the declaration
      have hvalue' : value = ConstantValue.uniform 0 lengths :=
        eq_of_eventually (hknown (agreesWith_erase (agreesWith_of_tracks htracks) name) hvalue)
          (hzero.eval_eq hprime)
      have hnew' : new = value := by
        rcases hnew with ⟨-, -, h⟩ | ⟨old, hold, -⟩
        · exact h
        · rw [AList.lookup_erase] at hold
          cases hold
      subst hnew' hvalue'
      cases env with
      | nil => exact htracks.elim
      | cons scope env =>
        refine ⟨rfl, ⟨scope.insert name (ConstantValue.uniform uninitialized lengths) :: env,
          scope.insert name (ConstantValue.uniform 0 lengths) :: env, ?_, ?_, ?_⟩, fun n hn => ?_⟩
        · apply eventually_of_succ
          filter_upwards [hzero.scalars] with fuel hfuel
          rw [Interpreter.exec, hfuel]
          rfl
        · apply eventually_of_succ
          have hagree := agreesWith_declared (agreesWith_of_tracks htracks) name
            (ConstantValue.uniform uninitialized lengths)
          have hold : Variables.getVariable
              (scope.insert name (ConstantValue.uniform uninitialized lengths) :: env) name = some _ :=
            (Scopes.find_insert scope env name name _).trans (if_pos rfl)
          have hshape := ConstantValue.overwrite_of_sameShape
            (ConstantValue.sameShape_uniform uninitialized 0 lengths)
          filter_upwards [hknown.assign hagree hvalue hindices hold (congrArg some hshape)] with fuel hfuel
          rw [Interpreter.exec, hfuel, setVariable_eq_set, Scopes.set,
            if_pos ((AList.mem_insert _).mpr (Or.inl rfl)), AList.insert_insert]
          rfl
        · exact htracks.declare (fun j hj => by rw [AList.lookup_insert_ne hj, AList.lookup_erase_ne hj])
            (Or.inl (AList.lookup_insert _))
        · rw [Saved.mem_save]
          exact hn.symm.imp_left List.mem_singleton.mp
  · exact absurd hyields Evaluator.not_yields_failure

/-- The evaluator follows the interpreter at every depth of its recursion. -/
theorem followsAt (hprime : 0 < prime) (hfunctions : functions.WellScoped) (uninitialized fuel : ℕ) :
    FollowsAt prime functions uninitialized fuel := by
  induction fuel with
  | zero =>
    refine ⟨fun depth => ?_, fun depth => ?_, fun depth => ?_⟩
    · intro _ _ _ _ _ hyields
      exact absurd hyields Evaluator.not_yields_exhausted
    · intro _ _ _ _ _ _ _ _ _ _ _ _ hyields
      exact absurd hyields Evaluator.not_yields_exhausted
    · intro _ _ _ _ _ _ _ _ _ _ _ _ _ _ _ _ _ hyields
      exact absurd hyields Evaluator.not_yields_exhausted
  | succ fuel ih =>
    exact ⟨ih.knownValue_succ hprime hfunctions, ih.statement_succ, ih.array_succ hprime⟩

end Circom.LlzkBackend
