import Circom.Lib.Outcomes
import Circom.LlzkBackend.FunctionInterpreter
import Mathlib.Order.Filter.AtTopBot.Basic

/-!
# The evaluator follows the interpreter

A value that the evaluator finds is the one that the interpreter finds with the same operators. The constants
stand for the scopes of the interpreter: a scalar variable may be unknown, an array that is declared in a
function always is known.
-/

namespace Circom.LlzkBackend

open Circom.Ast
open Circom.Lib (HashMap Saved Scopes Represents Tracks)
open Circom.ProgramStructure (Variables)
open Filter

variable {value : ConstantValue} {dimensions : List Expression} {indices : List ℕ} {stmt : Statement} {n : ℕ}

/-! ## Shapes -/

namespace ConstantValue

mutual

theorem overwrite_of_sameShape {old new : ConstantValue} (h : old.sameShape new = true) :
    old.overwrite new = new := by
  cases old with
  | scalar n => cases new with
    | scalar m => rfl
    | array values => rfl
  | array olds => cases new with
    | scalar m => cases h
    | array news =>
      rw [sameShape] at h
      rw [overwrite, overwriteAll_of_sameShapes h]

theorem overwriteAll_of_sameShapes {olds news : List ConstantValue}
    (h : sameShapes olds news = true) : overwriteAll olds news = news := by
  cases olds with
  | nil => cases news with
    | nil => rfl
    | cons new news => cases h
  | cons old olds => cases news with
    | nil => cases h
    | cons new news =>
      rw [sameShapes, Bool.and_eq_true] at h
      rw [overwriteAll, overwrite_of_sameShape h.1, overwriteAll_of_sameShapes h.2]

end

theorem modify_mono {f g : ConstantValue → Option ConstantValue} (h : ∀ v w, f v = some w → g v = some w)
    {value' : ConstantValue} (hf : modify f indices value = some value') : modify g indices value = some value' := by
  induction indices generalizing value value' with
  | nil => exact h _ _ hf
  | cons index indices ih =>
    cases value with
    | scalar n => cases hf
    | array values =>
      simp only [modify, Option.bind_eq_bind, Option.bind_eq_some_iff] at hf ⊢
      obtain ⟨target, htarget, target', hmodify, hvalue⟩ := hf
      exact ⟨target, htarget, target', ih hmodify, hvalue⟩

theorem sameShape_uniform (n m : ℕ) (lengths : List ℕ) :
    (uniform n lengths).sameShape (uniform m lengths) = true := by
  induction lengths with
  | nil => rfl
  | cons length lengths ih =>
    have hrows : ∀ k, sameShapes (List.replicate k (uniform n lengths))
        (List.replicate k (uniform m lengths)) = true := by
      intro k
      induction k with
      | zero => rfl
      | succ k ihk =>
        rw [List.replicate_succ, List.replicate_succ, sameShapes, ih, ihk]
        rfl
    exact hrows length

end ConstantValue

/-! ## What the evaluator returns -/

namespace Evaluator

/-- With some budget the value is returned. -/
def Yields {α : Type} (x : Speculative α) (a : α) : Prop :=
  ∃ s s', (OptionT.run x).run s = .ok (some a, s')

variable {α β : Type}

theorem Yields.of_bind {x : Speculative α} {f : α → Speculative β} {b : β} (h : Yields (x >>= f) b) :
    ∃ a, Yields x a ∧ Yields (f a) b := by
  obtain ⟨s, s', h⟩ := h
  rw [OptionT.run_bind, Option.elimM, StateT.run_bind] at h
  obtain ⟨⟨o, t⟩, hx, h⟩ := Lib.bind_eq_ok h
  cases o with
  | none => cases h
  | some a => exact ⟨a, ⟨s, t, hx⟩, t, s', h⟩

theorem Yields.of_pure {a b : α} (h : Yields (pure a) b) : b = a := by
  obtain ⟨s, s', h⟩ := h
  cases h
  rfl

theorem Yields.of_pure_frame {γ : Type} {a a' : α} {b b' : β} {c c' : γ}
    (h : Yields (pure (a, b, c)) (a', b', c')) : a' = a ∧ b' = b ∧ c' = c := by
  simpa using h.of_pure

theorem not_yields_failure {a : α} : ¬ Yields failure a := by
  rintro ⟨s, s', h⟩
  cases h

theorem Yields.of_known {o : Option α} {a : α} (h : Yields (known o) a) : o = some a := by
  obtain ⟨s, s', h⟩ := h
  cases h
  rfl

theorem Yields.of_attempt {r : Except Failure (Option α)} {a : α} (h : Yields (attempt r) a) :
    r = .ok (some a) := by
  obtain ⟨s, s', h⟩ := h
  cases r with
  | error e => cases h
  | ok o =>
    cases h
    rfl

theorem Yields.of_lift {x : Budgeted α} {a : α} (h : Yields (OptionT.lift x) a) :
    ∃ s s', x.run s = .ok (a, s') := by
  obtain ⟨s, s', h⟩ := h
  obtain ⟨⟨b, t⟩, hx, h⟩ := Lib.bind_eq_ok (x := x.run s) h
  cases h
  exact ⟨s, _, hx⟩

theorem Yields.of_ite {c : Prop} [Decidable c] {x y : Speculative α} {a : α}
    (h : Yields (if c then x else y) a) : c ∧ Yields x a ∨ ¬ c ∧ Yields y a := by
  by_cases hc : c
  · rw [if_pos hc] at h
    exact Or.inl ⟨hc, h⟩
  · rw [if_neg hc] at h
    exact Or.inr ⟨hc, h⟩

theorem not_yields_exhausted {a : α} : ¬ Yields (do set 0; failure : Speculative α) a := by
  intro h
  obtain ⟨_, _, h⟩ := h.of_bind
  exact not_yields_failure h

end Evaluator

/-! ## A round of a loop -/

namespace Interpreter

section Round

variable {ops : Operators} {eval : Expression → Scoped → Except Stop ConstantValue}
  {exec : Statement → Scoped → Except Stop (Flow × Scoped)} {cond : Expression} {stmt : Statement}
  {env env' : Scoped} {condition : ℕ}

theorem whileLoop_false (hcond : scalar eval cond env = .ok condition)
    (hfalse : ops.truth condition = false) (fuel : ℕ) :
    whileLoop ops eval exec cond stmt (fuel + 1) env = .ok (.continued, env) := by
  rw [whileLoop, hcond]
  exact if_neg (by simp [hfalse])

theorem whileLoop_true (hcond : scalar eval cond env = .ok condition)
    (htrue : ops.truth condition = true) (hbody : inScope exec stmt env = .ok (.continued, env'))
    {fuel : ℕ} :
    whileLoop ops eval exec cond stmt (fuel + 1) env = whileLoop ops eval exec cond stmt fuel env' := by
  rw [whileLoop, hcond]
  refine (if_pos htrue).trans ?_
  rw [hbody]
  rfl

theorem whileLoop_returned (hcond : scalar eval cond env = .ok condition) (htrue : ops.truth condition = true)
    (hbody : inScope exec stmt env = .ok (.returned value, env')) (fuel : ℕ) :
    whileLoop ops eval exec cond stmt (fuel + 1) env = .ok (.returned value, env') := by
  rw [whileLoop, hcond]
  refine (if_pos htrue).trans ?_
  rw [hbody]
  rfl

end Round

end Interpreter

/-! ## Expressions -/

theorem eventually_of_succ {P : ℕ → Prop} (h : ∀ᶠ fuel in atTop, P (fuel + 1)) :
    ∀ᶠ fuel in atTop, P fuel := by
  rw [← map_add_atTop_eq_nat 1]
  exact h

/-- What a family of computations returns with enough fuel is unique. -/
theorem eq_of_eventually {α : Type} {x : ℕ → Except Stop α} {a b : α}
    (ha : ∀ᶠ fuel in atTop, x fuel = .ok a) (hb : ∀ᶠ fuel in atTop, x fuel = .ok b) : a = b := by
  obtain ⟨fuel, ha, hb⟩ := (ha.and hb).exists
  rw [ha] at hb
  exact Except.ok.inj hb

/-- The evaluation returns, with enough fuel, every value that becomes known. -/
def Follows (known : Expression → Constants → Evaluator.Speculative ConstantValue)
    (eval : ℕ → Expression → Scoped → Except Stop ConstantValue) : Prop :=
  ∀ ⦃expr constants env value⦄, Scoped.AgreesWith env constants →
    Evaluator.Yields (known expr constants) value → ∀ᶠ fuel in atTop, eval fuel expr env = .ok value

section Expressions

variable {known : Expression → Constants → Evaluator.Speculative ConstantValue}
  {eval : ℕ → Expression → Scoped → Except Stop ConstantValue} {constants : Constants} {env : Scoped}

theorem eq_of_toUsize {m : ℕ} (h : toUsize n = some m) : m = n := by
  unfold toUsize at h
  split_ifs at h
  exact (Option.some.inj h).symm

theorem intoScalar_eq_some (h : value.intoScalar = some n) : value = .scalar n := by
  cases value with
  | scalar m => exact congrArg ConstantValue.scalar (Option.some.inj h)
  | array values => cases h

theorem Follows.scalar (h : Follows known eval) (hagree : env.AgreesWith constants) {expr : Expression}
    (hn : Evaluator.Yields (Evaluator.value known expr constants) n) :
    ∀ᶠ fuel in atTop, Interpreter.scalar (eval fuel) expr env = .ok n := by
  obtain ⟨value, hvalue, hn⟩ := hn.of_bind
  have hscalar := intoScalar_eq_some hn.of_known
  filter_upwards [h hagree hvalue] with fuel hfuel
  rw [Interpreter.scalar, hfuel, hscalar]
  rfl

theorem Follows.accessIndices (h : Follows known eval) (hagree : env.AgreesWith constants) {access : List Access}
    (hindices : Evaluator.Yields (Evaluator.accessIndices known constants access) indices) :
    ∀ᶠ fuel in atTop, Interpreter.accessIndices (eval fuel) env access = .ok indices := by
  induction access generalizing indices with
  | nil =>
    have heq := hindices.of_pure
    subst heq
    exact Eventually.of_forall fun _ => rfl
  | cons item access ih =>
    cases item with
    | componentAccess name => exact absurd hindices Evaluator.not_yields_failure
    | arrayAccess index =>
      obtain ⟨n, hn, hindices⟩ := hindices.of_bind
      obtain ⟨m, hm, hindices⟩ := hindices.of_bind
      obtain ⟨ns, hns, hindices⟩ := hindices.of_bind
      rw [hindices.of_pure, eq_of_toUsize hm.of_known]
      filter_upwards [h.scalar hagree hn, ih hns] with fuel hindex haccess
      rw [Interpreter.accessIndices, hindex, haccess]
      rfl

theorem Follows.arrayElements (h : Follows known eval) (hagree : env.AgreesWith constants)
    {exprs : List Expression} {elements values : List ConstantValue}
    (hvalues : Evaluator.Yields (Evaluator.arrayElements known constants elements exprs) values) :
    ∀ᶠ fuel in atTop, Interpreter.arrayElements (eval fuel) env elements exprs = .ok values := by
  induction exprs generalizing elements with
  | nil =>
    rw [hvalues.of_pure]
    exact Eventually.of_forall fun _ => rfl
  | cons expr exprs ih =>
    obtain ⟨value, hvalue, hvalues⟩ := hvalues.of_bind
    rcases hvalues.of_ite with ⟨hshape, hvalues⟩ | ⟨-, hvalues⟩
    · filter_upwards [h hagree hvalue, ih hvalues] with fuel hexpr hexprs
      rw [Interpreter.arrayElements, hexpr]
      exact (if_pos hshape).trans hexprs
    · exact absurd hvalues Evaluator.not_yields_failure

/-- The parameters of a call. -/
theorem Follows.parameters (h : Follows known eval) (hagree : env.AgreesWith constants)
    {args : List (String × Expression)} {parameters parameters' : HashMap String ConstantValue}
    (hargs : Evaluator.Yields (args.foldlM (fun (parameters : Constants) e => do
      let value ← known e.2 constants
      pure (parameters.insert e.1 value)) parameters) parameters') :
    ∀ᶠ fuel in atTop, args.foldlM (fun (parameters : HashMap String ConstantValue) e => do
      let value ← eval fuel e.2 env
      .ok (parameters.insert e.1 value)) parameters = .ok parameters' := by
  induction args generalizing parameters with
  | nil =>
    rw [hargs.of_pure]
    exact Eventually.of_forall fun _ => rfl
  | cons arg args ih =>
    rw [List.foldlM_cons] at hargs
    obtain ⟨next, hnext, hargs⟩ := hargs.of_bind
    obtain ⟨value, hvalue, hnext⟩ := hnext.of_bind
    rw [hnext.of_pure] at hargs
    filter_upwards [h hagree hvalue, ih hargs] with fuel harg hrest
    rw [List.foldlM_cons, harg]
    exact hrest

end Expressions

/-! ## Statements -/

def IsScalar (value : ConstantValue) : Prop := ∃ n, value = .scalar n

/-- With enough fuel the run ends with the flow, and where it goes on the constants stand for its scopes. -/
def Runs (run : ℕ → Except Stop (Flow × Scoped)) (flow : Flow) (constants : Constants)
    (saves : List (Saved String ConstantValue)) : Prop :=
  ∃ env, (∀ᶠ fuel in atTop, run fuel = .ok (flow, env)) ∧
    (flow = .continued → Tracks IsScalar constants saves env)

/-- Names of open scopes. -/
def Visible (saves : List (Saved String ConstantValue)) (names : List String) : Prop :=
  ∀ name ∈ names, ∃ saved ∈ saves, name ∈ saved

/-- The execution does what the evaluator does, and what a statement declares belongs to its scope. -/
def FollowsStatement
    (statement : Statement → Constants → Saved String ConstantValue →
      Evaluator.Speculative (Flow × Evaluator.Frame))
    (exec : ℕ → Statement → Scoped → Except Stop (Flow × Scoped)) : Prop :=
  ∀ ⦃names stmt constants shadowed saves env flow constants' shadowed'⦄,
    Tracks IsScalar constants (shadowed :: saves) env → WellScoped names stmt →
    Visible (shadowed :: saves) names →
    Evaluator.Yields (statement stmt constants shadowed) (flow, constants', shadowed') →
    Runs (fun fuel => exec fuel stmt env) flow constants' (shadowed' :: saves) ∧
      (flow = .continued → ∀ name, name ∈ shadowed ∨ name ∈ stmt.declares → name ∈ shadowed')

theorem agreesWith_of_tracks {constants : Constants} {saves : List (Saved String ConstantValue)}
    {env : Scoped} (h : Tracks IsScalar constants saves env) : env.AgreesWith constants :=
  h.represents.known

section Statements

variable {statement : Statement → Constants → Saved String ConstantValue →
    Evaluator.Speculative (Flow × Evaluator.Frame)}
  {exec : ℕ → Statement → Scoped → Except Stop (Flow × Scoped)}
  {known : Expression → Constants → Evaluator.Speculative ConstantValue}
  {eval : ℕ → Expression → Scoped → Except Stop ConstantValue}
  {constants constants' : Constants} {shadowed shadowed' : Saved String ConstantValue}
  {saves : List (Saved String ConstantValue)} {env : Scoped} {names : List String} {flow : Flow}

theorem Visible.weaken (h : Visible saves names) : Visible (shadowed :: saves) names :=
  fun name hname => (h name hname).imp fun _ h => ⟨List.mem_cons_of_mem _ h.1, h.2⟩

/-- What is visible after the first statement of a scope. -/
theorem Visible.declares (h : Visible (shadowed :: saves) names)
    (hdeclares : ∀ name, name ∈ shadowed ∨ name ∈ stmt.declares → name ∈ shadowed') :
    Visible (shadowed' :: saves) (stmt.declares ++ names) := by
  intro name hname
  rcases List.mem_append.mp hname with hname | hname
  · exact ⟨shadowed', List.mem_cons_self, hdeclares name (Or.inr hname)⟩
  · obtain ⟨saved, hsaved, hmem⟩ := h name hname
    rcases List.mem_cons.mp hsaved with rfl | hsaved
    · exact ⟨shadowed', List.mem_cons_self, hdeclares name (Or.inl hmem)⟩
    · exact ⟨saved, List.mem_cons_of_mem _ hsaved, hmem⟩

/-- The end of a scope. -/
theorem Runs.leave {run : ℕ → Except Stop (Flow × Scoped)}
    (h : Runs run flow constants (shadowed :: saves)) :
    Runs (fun fuel => do
      let (flow, env) ← run fuel
      .ok (flow, env.removeVariableBlock)) flow (shadowed.restore constants) saves := by
  obtain ⟨env, hrun, htracks⟩ := h
  refine ⟨env.removeVariableBlock, ?_, fun hflow => ?_⟩
  · filter_upwards [hrun] with fuel hfuel
    rw [hfuel]
    rfl
  · have h := htracks hflow
    cases env with
    | nil => exact h.elim
    | cons scope env => exact h.leave

theorem FollowsStatement.scoped (h : FollowsStatement statement exec) (htracks : Tracks IsScalar constants saves env)
    (hscoped : WellScoped names stmt) (hvisible : Visible saves names)
    (hyields : Evaluator.Yields (Evaluator.scopedStatement statement stmt constants) (flow, constants')) :
    Runs (fun fuel => Interpreter.inScope (exec fuel) stmt env) flow constants' saves := by
  obtain ⟨⟨flow', constants'', shadowed⟩, hstmt, hyields⟩ := hyields.of_bind
  cases hyields.of_pure
  exact (h htracks.enter hscoped hvisible.weaken hstmt).1.leave

theorem FollowsStatement.block (h : FollowsStatement statement exec) {stmts : List Statement}
    (htracks : Tracks IsScalar constants (shadowed :: saves) env)
    (hscoped : AllWellScoped names stmts) (hvisible : Visible (shadowed :: saves) names)
    (hyields : Evaluator.Yields (Evaluator.blockStatements statement stmts constants shadowed)
      (flow, constants', shadowed')) :
    Runs (fun fuel => Interpreter.sequence (exec fuel) stmts env) flow constants'
      (shadowed' :: saves) := by
  induction stmts generalizing constants shadowed env names with
  | nil =>
    cases hyields.of_pure
    exact ⟨env, Eventually.of_forall fun _ => rfl, fun _ => htracks⟩
  | cons stmt stmts ih =>
    obtain ⟨⟨flow', constants'', shadowed''⟩, hstmt, hyields⟩ := hyields.of_bind
    obtain ⟨⟨env', hrun, htracks'⟩, hdeclares⟩ := h htracks hscoped.1 hvisible hstmt
    cases flow' with
    | continued =>
      obtain ⟨env'', hrest, htracks''⟩ :=
        ih (htracks' rfl) hscoped.2 (hvisible.declares (hdeclares rfl)) hyields
      refine ⟨env'', ?_, htracks''⟩
      filter_upwards [hrun, hrest] with fuel hfuel hrest
      rw [Interpreter.sequence, hfuel]
      exact hrest
    | returned value =>
      cases hyields.of_pure
      refine ⟨env', ?_, fun h => by cases h⟩
      filter_upwards [hrun] with fuel hfuel
      rw [Interpreter.sequence, hfuel]
      rfl

theorem FollowsStatement.whileLoop (h : FollowsStatement statement exec) (hknown : Follows known eval) {ops : Operators}
    (htruth : ∀ n, ops.truth n = decide (n ≠ 0)) {cond : Expression} (hscoped : WellScoped names stmt)
    (hvisible : Visible saves names) (bound : ℕ) (htracks : Tracks IsScalar constants saves env)
    (hyields : Evaluator.Yields (Evaluator.whileLoop known statement cond stmt bound constants) (flow, constants')) :
    ∃ env', (∀ᶠ fuel in atTop, ∀ n ≥ bound,
      Interpreter.whileLoop ops (eval fuel) (exec fuel) cond stmt n env = .ok (flow, env')) ∧
      (flow = .continued → Tracks IsScalar constants' saves env') := by
  induction bound generalizing constants env with
  | zero => exact absurd hyields Evaluator.not_yields_exhausted
  | succ bound ih =>
    obtain ⟨condition, hyieldsCond, hyields⟩ := hyields.of_bind
    have hcond := hknown.scalar (agreesWith_of_tracks htracks) hyieldsCond
    rcases hyields.of_ite with ⟨hzero, hyields⟩ | ⟨hzero, hyields⟩
    · have hfalse : ops.truth condition = false := by simp [htruth, hzero]
      obtain ⟨rfl, rfl⟩ := Prod.mk.inj hyields.of_pure
      refine ⟨env, ?_, fun _ => htracks⟩
      filter_upwards [hcond] with fuel hfuel n hn
      obtain ⟨k, rfl⟩ := Nat.exists_eq_add_of_le' hn
      exact Interpreter.whileLoop_false hfuel hfalse (k + bound)
    · have htrue : ops.truth condition = true := by simp [htruth, hzero]
      obtain ⟨⟨flow', constants''⟩, hbody, hyields⟩ := hyields.of_bind
      obtain ⟨env', hrun, htracks'⟩ := h.scoped htracks hscoped hvisible hbody
      cases flow' with
      | continued =>
        obtain ⟨env'', hrest, htracks''⟩ := ih (htracks' rfl) hyields
        refine ⟨env'', ?_, htracks''⟩
        filter_upwards [hcond, hrun, hrest] with fuel hfuel hbody hrest n hn
        obtain ⟨k, rfl⟩ := Nat.exists_eq_add_of_le' hn
        rw [← Nat.add_assoc, Interpreter.whileLoop_true hfuel htrue hbody]
        exact hrest (k + bound) (Nat.le_add_left bound k)
      | returned value =>
        obtain ⟨rfl, rfl⟩ := Prod.mk.inj hyields.of_pure
        refine ⟨env', ?_, fun h => by cases h⟩
        filter_upwards [hcond, hrun] with fuel hfuel hbody n hn
        obtain ⟨k, rfl⟩ := Nat.exists_eq_add_of_le' hn
        exact Interpreter.whileLoop_returned hfuel htrue hbody (k + bound)

/-- The initializer of a declared array, whose dimensions are those of the declaration. -/
inductive ZeroInitializer (eval : ℕ → Expression → Scoped → Except Stop ConstantValue)
    (env : Scoped) : List Expression → Expression → List ℕ → Prop
  | number {info : Meta} : ZeroInitializer eval env [] (.number info 0) []
  | uniformArray {info : Meta} {declared initializer dimension : Expression}
      {dimensions : List Expression} {length : ℕ} {lengths : List ℕ}
      (hdeclared : ∀ᶠ fuel in atTop, Interpreter.scalar (eval fuel) declared env = .ok length)
      (hdimension : ∀ᶠ fuel in atTop, Interpreter.scalar (eval fuel) dimension env = .ok length)
      (h : ZeroInitializer eval env dimensions initializer lengths) :
      ZeroInitializer eval env (declared :: dimensions) (.uniformArray info initializer dimension)
        (length :: lengths)

theorem Follows.zeroInitializer (h : Follows known eval) (hagree : env.AgreesWith constants) {initializer : Expression}
    (hyields : Evaluator.Yields (Evaluator.zeroInitializer known constants dimensions initializer) ()) :
    ∃ lengths, ZeroInitializer eval env dimensions initializer lengths := by
  induction dimensions generalizing initializer with
  | nil =>
    cases initializer with
    | number info value =>
      rcases hyields.of_ite with ⟨hvalue, -⟩ | ⟨-, hyields⟩
      · exact ⟨[], hvalue ▸ .number⟩
      · exact absurd hyields Evaluator.not_yields_failure
    | _ => exact absurd hyields Evaluator.not_yields_failure
  | cons declared dimensions ih =>
    cases initializer with
    | uniformArray info initializer dimension =>
      obtain ⟨length, hdeclared, hyields⟩ := hyields.of_bind
      obtain ⟨length', hdimension, hyields⟩ := hyields.of_bind
      rcases hyields.of_ite with ⟨hlength, hrest⟩ | ⟨-, hyields⟩
      · subst hlength
        obtain ⟨lengths, hinitializer⟩ := ih hrest
        exact ⟨_, .uniformArray (h.scalar hagree hdeclared) (h.scalar hagree hdimension) hinitializer⟩
      · exact absurd hyields Evaluator.not_yields_failure
    | _ => exact absurd hyields Evaluator.not_yields_failure

theorem ZeroInitializer.scalars {initializer : Expression} {lengths : List ℕ}
    (h : ZeroInitializer eval env dimensions initializer lengths) :
    ∀ᶠ fuel in atTop, Interpreter.scalars (eval fuel) env dimensions = .ok lengths := by
  induction h with
  | number => exact Eventually.of_forall fun _ => rfl
  | uniformArray hdeclared _ _ ih =>
    filter_upwards [hdeclared, ih] with fuel hdeclared hrest
    rw [Interpreter.scalars, hdeclared, hrest]
    rfl

/-- An array that is declared and initialized. -/
def FollowsArray
    (statement : Statement → Constants → Saved String ConstantValue →
      Evaluator.Speculative (Flow × Evaluator.Frame))
    (eval : ℕ → Expression → Scoped → Except Stop ConstantValue)
    (exec : ℕ → Statement → Scoped → Except Stop (Flow × Scoped)) : Prop :=
  ∀ ⦃info info' name dimensions isConstant isAnonymous rhe lengths constants shadowed saves env flow
      constants' shadowed'⦄,
    Tracks IsScalar constants (shadowed :: saves) env →
    ZeroInitializer eval env dimensions rhe lengths →
    Evaluator.Yields
      (statement (.declaration info .var name dimensions isConstant isAnonymous) constants shadowed)
      (flow, constants', shadowed') →
    flow = .continued ∧ ∀ ⦃flow' constants'' shadowed''⦄,
      Evaluator.Yields (statement (.substitution info' name [] .assignVar rhe) constants' shadowed')
        (flow', constants'', shadowed'') →
      flow' = .continued ∧
        (∃ env' env'', (∀ᶠ fuel in atTop, exec fuel
            (.declaration info .var name dimensions isConstant isAnonymous) env =
              .ok (.continued, env')) ∧
          (∀ᶠ fuel in atTop,
            exec fuel (.substitution info' name [] .assignVar rhe) env' = .ok (.continued, env'')) ∧
          Tracks IsScalar constants'' (shadowed'' :: saves) env'') ∧
        ∀ n, n ∈ shadowed ∨ n ∈ [name] → n ∈ shadowed''

theorem declaration_or_wellScoped (h : IsDeclaration stmt ∨ WellScoped names stmt) :
    WellScoped names stmt ∨ ∃ info name dimensions isConstant isAnonymous,
      stmt = .declaration info .var name dimensions isConstant isAnonymous ∧
        dimensions.isEmpty = false := by
  rcases h with h | h
  · cases stmt with
    | declaration info xtype name dimensions isConstant isAnonymous =>
      by_cases hxtype : xtype = .var
      · subst hxtype
        cases dimensions with
        | nil => exact Or.inl fun _ => rfl
        | cons dimension dimensions => exact Or.inr ⟨_, _, _, _, _, rfl, rfl⟩
      · exact Or.inl fun h => absurd h hxtype
    | _ => exact h.elim
  · exact Or.inl h

/-- The check of an array declaration. -/
theorem declaredShape_yields {info : Meta} {name : String}
    {isConstant isAnonymous : Bool} {next : Option Statement} (hdimensions : dimensions.isEmpty = false)
    (h : Evaluator.Yields (Evaluator.declaredShape known constants
      (.declaration info .var name dimensions isConstant isAnonymous) next) ()) :
    ∃ info' rhe, next = some (.substitution info' name [] .assignVar rhe) ∧
      Evaluator.Yields (Evaluator.zeroInitializer known constants dimensions rhe) () := by
  unfold Evaluator.declaredShape at h
  dsimp only at h
  rw [hdimensions, if_neg Bool.false_ne_true] at h
  cases next with
  | none => exact absurd h Evaluator.not_yields_failure
  | some stmt =>
    cases stmt with
    | substitution info' var access op rhe =>
      cases op with
      | assignVar =>
        rcases h.of_ite with ⟨-, h⟩ | ⟨hvar, hinitializer⟩
        · exact absurd h Evaluator.not_yields_failure
        · rw [not_or, not_not] at hvar
          obtain ⟨rfl, haccess⟩ := hvar
          have hnil : access = [] := by simpa using haccess
          subst hnil
          exact ⟨info', rhe, rfl, hinitializer⟩
      | _ => exact absurd h Evaluator.not_yields_failure
    | _ => exact absurd h Evaluator.not_yields_failure

theorem FollowsStatement.initializations (h : FollowsStatement statement exec)
    (harray : FollowsArray statement eval exec) (hknown : Follows known eval)
    {stmts : List Statement} (htracks : Tracks IsScalar constants (shadowed :: saves) env)
    (hscoped : InitializationsWellScoped names stmts) (hvisible : Visible (shadowed :: saves) names)
    (hyields : Evaluator.Yields (Evaluator.initializations known statement stmts constants shadowed)
      (flow, constants', shadowed')) :
    Runs (fun fuel => Interpreter.sequence (exec fuel) stmts env) flow constants'
      (shadowed' :: saves) ∧
      (flow = .continued →
        ∀ name, name ∈ shadowed ∨ name ∈ declaredNames stmts → name ∈ shadowed') := by
  induction hlength : stmts.length using Nat.strong_induction_on
    generalizing stmts constants shadowed env names with
  | _ n ih =>
    subst hlength
    cases stmts with
    | nil =>
      obtain ⟨rfl, rfl, rfl⟩ := hyields.of_pure_frame
      refine ⟨⟨env, Eventually.of_forall fun _ => rfl, fun _ => htracks⟩, fun _ name hname => ?_⟩
      exact hname.elim id fun hname => by cases hname
    | cons stmt stmts =>
      obtain ⟨⟨⟩, hshape, hyields⟩ := hyields.of_bind
      obtain ⟨⟨flow₁, constants₁, shadowed₁⟩, hstmt, hyields⟩ := hyields.of_bind
      rcases declaration_or_wellScoped hscoped.1 with
        hwell | ⟨info, name, dimensions, isConstant, isAnonymous, rfl, hdimensions⟩
      · obtain ⟨⟨env₁, hrun, htracks₁⟩, hdeclares⟩ := h htracks hwell hvisible hstmt
        cases flow₁ with
        | continued =>
          obtain ⟨⟨env₂, hrest, htracks₂⟩, hnames⟩ := ih _ (Nat.lt_succ_self _) (htracks₁ rfl)
            hscoped.2 (hvisible.declares (hdeclares rfl)) hyields rfl
          refine ⟨⟨env₂, ?_, htracks₂⟩, fun hflow name hname => hnames hflow name ?_⟩
          · filter_upwards [hrun, hrest] with fuel hfuel hrest
            rw [Interpreter.sequence, hfuel]
            exact hrest
          · rw [declaredNames, List.mem_append] at hname
            rcases hname with hname | hname | hname
            · exact Or.inl (hdeclares rfl name (Or.inl hname))
            · exact Or.inl (hdeclares rfl name (Or.inr hname))
            · exact Or.inr hname
        | returned value =>
          obtain ⟨rfl, rfl, rfl⟩ := hyields.of_pure_frame
          refine ⟨⟨env₁, ?_, fun h => by cases h⟩, fun h => by cases h⟩
          filter_upwards [hrun] with fuel hfuel
          rw [Interpreter.sequence, hfuel]
          rfl
      · -- the declaration of an array and its initializer are two steps of the loop
        obtain ⟨info', rhe, hnext, hinitializer⟩ := declaredShape_yields hdimensions hshape
        cases stmts with
        | nil => cases hnext
        | cons next stmts =>
          obtain rfl := Option.some.inj hnext
          obtain ⟨lengths, hzero⟩ := hknown.zeroInitializer (agreesWith_of_tracks htracks) hinitializer
          obtain ⟨rfl, hassign⟩ := harray htracks hzero hstmt
          obtain ⟨⟨⟩, -, hyields⟩ := hyields.of_bind
          obtain ⟨⟨flow₂, constants₂, shadowed₂⟩, hnextStmt, hyields⟩ := hyields.of_bind
          obtain ⟨rfl, ⟨env₁, env₂, hrun₁, hrun₂, htracks₂⟩, hdeclares⟩ := hassign hnextStmt
          have hshort : stmts.length < stmts.length + 1 + 1 := by omega
          obtain ⟨⟨env₃, hrest, htracks₃⟩, hnames⟩ := ih _ hshort htracks₂ hscoped.2.2
            (hvisible.declares hdeclares) hyields rfl
          refine ⟨⟨env₃, ?_, htracks₃⟩, fun hflow n hn => hnames hflow n ?_⟩
          · filter_upwards [hrun₁, hrun₂, hrest] with fuel hfuel₁ hfuel₂ hrest
            rw [Interpreter.sequence, hfuel₁]
            refine Eq.trans ?_ hrest
            show Interpreter.sequence (exec fuel) (.substitution info' name [] .assignVar rhe :: stmts)
              env₁ = _
            rw [Interpreter.sequence, hfuel₂]
            rfl
          · rcases hn with hn | hn
            · exact Or.inl (hdeclares n (Or.inl hn))
            · rw [declaredNames, List.mem_append] at hn
              exact hn.imp (fun hn => hdeclares n (Or.inr hn)) id

end Statements

/-! ## Assignments -/

theorem setVariable_eq_set (env : Scoped) (name : String) (value : ConstantValue) :
    Variables.setVariable name value env = Scopes.set name value env := by
  induction env with
  | nil => rfl
  | cons scope env ih => rw [Variables.setVariable, Scopes.set, ih]

section Assignments

variable {known : Expression → Constants → Evaluator.Speculative ConstantValue}
  {eval : ℕ → Expression → Scoped → Except Stop ConstantValue} {constants constants' : Constants}
  {var : String} {access : List Access} {rhe : Expression} {env : Scoped}

/-- What an assignment makes of the constants: an unknown variable gets the value, of a known one the cells
below the access are overwritten. -/
def Overwrites (constants : Constants) (var : String) (indices : List ℕ) (value : ConstantValue)
    (new : ConstantValue) : Prop :=
  (constants.lookup var = none ∧ indices = [] ∧ new = value) ∨
    ∃ old, constants.lookup var = some old ∧
      old.modify (fun old => some (old.overwrite value)) indices = some new

theorem updated_eq_some (h : Evaluator.updated constants var indices value = some constants') :
    ∃ new, constants' = constants.insert var new ∧ Overwrites constants var indices value new := by
  have hreplace : ∀ old new : ConstantValue,
      (if old.sameShape value then some value else none) = some new →
        some (old.overwrite value) = some new := by
    intro old new hnew
    by_cases hshape : old.sameShape value = true
    · rw [if_pos hshape] at hnew
      rw [ConstantValue.overwrite_of_sameShape hshape, hnew]
    · rw [if_neg hshape] at hnew
      cases hnew
  unfold Evaluator.updated at h
  dsimp only at h
  cases indices with
  | nil =>
    rw [if_pos List.isEmpty_nil] at h
    by_cases hshape : ((constants.lookup var).any fun old => !old.sameShape value) = true
    · rw [if_pos hshape] at h
      cases h
    · rw [if_neg hshape] at h
      refine ⟨value, (Option.some.inj h).symm, ?_⟩
      cases hold : constants.lookup var with
      | none => exact Or.inl ⟨hold, rfl, rfl⟩
      | some old =>
        have hsame : old.sameShape value = true := by simpa [hold] using hshape
        exact Or.inr ⟨old, hold, congrArg some (ConstantValue.overwrite_of_sameShape hsame)⟩
  | cons index indices =>
    rw [if_neg (by simp)] at h
    obtain ⟨old, hold, h⟩ := Option.bind_eq_some_iff.mp h
    obtain ⟨new, hnew, h⟩ := Option.bind_eq_some_iff.mp h
    exact ⟨new, (Option.some.inj h).symm,
      Or.inr ⟨old, hold, ConstantValue.modify_mono hreplace hnew⟩⟩

/-- An assignment whose value or target is not known forgets the variable. -/
theorem assign_cases {s s' : ℕ} {updated : Bool}
    (h : (Evaluator.assign known var access rhe constants).run s = .ok ((updated, constants'), s')) :
    updated = false ∧ constants' = constants.erase var ∨
    updated = true ∧ ∃ value indices new, Evaluator.Yields (known rhe constants) value ∧
      Evaluator.Yields (Evaluator.accessIndices known constants access) indices ∧
      constants' = constants.insert var new ∧ Overwrites constants var indices value new := by
  unfold Evaluator.assign at h
  rw [StateT.run_bind] at h
  obtain ⟨⟨value, t⟩, hvalue, h⟩ := Lib.bind_eq_ok h
  rw [StateT.run_bind] at h
  obtain ⟨⟨indices, t'⟩, hindices, h⟩ := Lib.bind_eq_ok h
  cases value with
  | none =>
    cases h
    exact Or.inl ⟨rfl, rfl⟩
  | some value =>
    cases indices with
    | none =>
      cases h
      exact Or.inl ⟨rfl, rfl⟩
    | some indices =>
      dsimp only at h
      cases hupdated : Evaluator.updated constants var indices value with
      | none =>
        rw [hupdated] at h
        cases h
        exact Or.inl ⟨rfl, rfl⟩
      | some constants'' =>
        rw [hupdated] at h
        cases h
        obtain ⟨new, hnew, hover⟩ := updated_eq_some hupdated
        exact Or.inr ⟨rfl, value, indices, new, ⟨s, t, hvalue⟩, ⟨t, _, hindices⟩, hnew, hover⟩

/-- The execution of an assignment whose value and indices are known. -/
theorem Follows.assign (h : Follows known eval) (hagree : env.AgreesWith constants) {old new : ConstantValue}
    (hvalue : Evaluator.Yields (known rhe constants) value)
    (hindices : Evaluator.Yields (Evaluator.accessIndices known constants access) indices)
    (hold : env.getVariable var = some old)
    (hnew : old.modify (fun old => some (old.overwrite value)) indices = some new) :
    ∀ᶠ fuel in atTop,
      Interpreter.assign (eval fuel) var access rhe env = .ok (env.setVariable var new) := by
  filter_upwards [h hagree hvalue, h.accessIndices hagree hindices] with fuel hrhe haccess
  rw [Interpreter.assign, hrhe, haccess, hold]
  show (Interpreter.orStop .outOfBounds
    (old.modify (fun old => some (old.overwrite value)) indices) >>= _) = _
  rw [hnew]
  rfl

/-- In a call every array is known, so that an assignment does what the evaluator does. -/
theorem Follows.assign_tracks (h : Follows known eval) {saves : List (Saved String ConstantValue)}
    (htracks : Tracks IsScalar constants saves env) (hvar : ∃ saved ∈ saves, var ∈ saved) {new : ConstantValue}
    (hvalue : Evaluator.Yields (known rhe constants) value)
    (hindices : Evaluator.Yields (Evaluator.accessIndices known constants access) indices)
    (hnew : Overwrites constants var indices value new) :
    ∃ env', (∀ᶠ fuel in atTop, Interpreter.assign (eval fuel) var access rhe env = .ok env') ∧
      Tracks IsScalar (constants.insert var new) saves env' := by
  have hsome := (htracks.isSome_find var).mpr hvar
  obtain ⟨old, hold⟩ := Option.isSome_iff_exists.mp hsome
  have hmodify : old.modify (fun old => some (old.overwrite value)) indices = some new := by
    rcases hnew with ⟨hnone, rfl, rfl⟩ | ⟨old', hknown, hmodify⟩
    · rcases htracks.represents.complete var old hold with hmem | ⟨n, rfl⟩
      · exact absurd (AList.lookup_eq_none.mp hnone) (fun h => h hmem)
      · rfl
    · have heq := htracks.represents.known var old' hknown
      rw [hold] at heq
      cases heq
      exact hmodify
  refine ⟨_, h.assign (agreesWith_of_tracks htracks) hvalue hindices hold hmodify, ?_⟩
  rw [setVariable_eq_set]
  exact htracks.assign hsome new

end Assignments

end Circom.LlzkBackend
