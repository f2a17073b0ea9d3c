import Circom.Lib.Outcomes
import Circom.LlzkBackend.TemplateRecursion

/-!
# The budget bounds the recursion

The evaluator never runs into the bound on its recursion: every call of it charges a step first, so that two
bounds of at least the remaining steps find the same.
-/

namespace Circom.LlzkBackend

open Circom.Ast
open Circom.Lib (HashMap Saved bind_eq_ok)

namespace Evaluator

/-! ## Spending steps -/

/-- With at most `n` remaining steps both computations do the same, and steps are only spent. -/
def SameUpTo {α : Type} (n : ℕ) (x y : Budgeted α) : Prop :=
  ∀ s ≤ n, x.run s = y.run s ∧ ∀ a s', x.run s = .ok (a, s') → s' ≤ s

/-- The same for computations whose result can be unknown. -/
abbrev Same {α : Type} (n : ℕ) (x y : Speculative α) : Prop := SameUpTo n (OptionT.run x) (OptionT.run y)

section Rules

variable {α β : Type} {n : ℕ}

theorem SameUpTo.mono {x y : Budgeted α} {m : ℕ} (h : SameUpTo n x y) (hm : m ≤ n) :
    SameUpTo m x y := fun s hs => h s (hs.trans hm)

theorem SameUpTo.trans {x y z : Budgeted α} (h : SameUpTo n x y) (h' : SameUpTo n y z) :
    SameUpTo n x z := fun s hs => ⟨(h s hs).1.trans (h' s hs).1, (h s hs).2⟩

theorem SameUpTo.bind {x y : Budgeted α} {f g : α → Budgeted β} (h : SameUpTo n x y)
    (hf : ∀ a, SameUpTo n (f a) (g a)) : SameUpTo n (x >>= f) (y >>= g) := by
  intro s hs
  obtain ⟨heq, hspent⟩ := h s hs
  rw [StateT.run_bind, StateT.run_bind, ← heq]
  cases hx : x.run s with
  | error e => exact ⟨rfl, fun _ _ h => by cases h⟩
  | ok r =>
    obtain ⟨a, s'⟩ := r
    have hs' := hspent a s' hx
    obtain ⟨heq', hspent'⟩ := hf a s' (hs'.trans hs)
    exact ⟨heq', fun b s'' h => (hspent' b s'' h).trans hs'⟩

/-- A computation that returns for every budget a smaller one. -/
theorem sameUpTo_of_run {x : Budgeted α} {r : ℕ → α × ℕ} (hx : ∀ s, x.run s = .ok (r s))
    (hr : ∀ s, (r s).2 ≤ s) : SameUpTo n x x := by
  intro s _
  refine ⟨rfl, fun a s' h => ?_⟩
  have heq := Except.ok.inj ((hx s).symm.trans h)
  have hle := hr s
  rw [heq] at hle
  exact hle

theorem sameUpTo_pure (a : α) : SameUpTo n (pure a) (pure a) :=
  sameUpTo_of_run (fun _ => rfl) fun _ => le_rfl

theorem Same.bind {x y : Speculative α} {f g : α → Speculative β} (h : Same n x y)
    (hf : ∀ a, Same n (f a) (g a)) : Same n (x >>= f) (y >>= g) := by
  unfold Same
  rw [OptionT.run_bind, OptionT.run_bind]
  refine SameUpTo.bind h fun o => ?_
  cases o with
  | none => exact sameUpTo_pure none
  | some a => exact hf a

theorem Same.ite {c : Prop} [Decidable c] {x y x' y' : Speculative α} (h : Same n x y)
    (h' : Same n x' y') : Same n (if c then x else x') (if c then y else y') := by
  by_cases hc : c
  · rw [if_pos hc, if_pos hc]
    exact h
  · rw [if_neg hc, if_neg hc]
    exact h'

theorem same_pure (a : α) : Same n (pure a) (pure a) := sameUpTo_pure (some a)

theorem same_failure : Same n (failure : Speculative α) failure := sameUpTo_pure none

theorem same_known (o : Option α) : Same n (known o) (known o) := sameUpTo_pure o

theorem same_attempt (r : Except Failure (Option α)) : Same n (attempt r) (attempt r) := by
  intro s _
  refine ⟨rfl, fun o s' h => ?_⟩
  cases r with
  | error e => cases h
  | ok o' =>
    cases h
    exact le_rfl

theorem same_exhausted : Same n (do set 0; failure : Speculative α) (do set 0; failure) :=
  sameUpTo_of_run (r := fun _ => (none, 0)) (fun _ => rfl) fun s => Nat.zero_le s

theorem charge_run (steps s : ℕ) : (OptionT.run (charge steps)).run s =
    .ok (if steps ≤ s then (some (), s - steps) else (none, 0)) := by
  show (OptionT.run (if steps ≤ s then set (s - steps) else do set 0; failure : Speculative Unit)).run s
    = _
  by_cases hs : steps ≤ s
  · rw [if_pos hs, if_pos hs]
    rfl
  · rw [if_neg hs, if_neg hs]
    rfl

theorem same_charge (steps : ℕ) : Same n (charge steps) (charge steps) := by
  refine sameUpTo_of_run (charge_run steps) fun s => ?_
  by_cases hs : steps ≤ s
  · rw [if_pos hs]
    exact Nat.sub_le s steps
  · rw [if_neg hs]
    exact Nat.zero_le s

theorem checkAllocation_run (length s : ℕ) : (OptionT.run (checkAllocation length)).run s =
    .ok (if s < length then none else some (), s) := by
  show (OptionT.run (if s < length then failure else pure () : Speculative Unit)).run s = _
  by_cases hs : s < length
  · rw [if_pos hs, if_pos hs]
    rfl
  · rw [if_neg hs, if_neg hs]
    rfl

theorem same_checkAllocation (length : ℕ) :
    Same n (checkAllocation length) (checkAllocation length) :=
  sameUpTo_of_run (checkAllocation_run length) fun _ => le_rfl

theorem same_chargeSize (value : ConstantValue) : Same n (chargeSize value) (chargeSize value) :=
  (same_known value.size).bind fun size => same_charge size

/-- Nothing is left to do once the steps are spent. -/
theorem same_zero {α : Type} {x y : Speculative α} (hx : (OptionT.run x).run 0 = .ok (none, 0))
    (hy : (OptionT.run y).run 0 = .ok (none, 0)) : Same 0 x y := by
  intro s hs
  obtain rfl := Nat.le_zero.mp hs
  rw [hx, hy]
  refine ⟨rfl, fun o s' h => ?_⟩
  cases h
  exact le_rfl

/-- A step that is charged first leaves one step less for what follows. -/
theorem Same.charge_bind {x y : Speculative α} (h : Same n x y) :
    Same (n + 1) (charge 1 >>= fun _ => x) (charge 1 >>= fun _ => y) := by
  intro s hs
  rw [OptionT.run_bind, OptionT.run_bind, Option.elimM, Option.elimM, StateT.run_bind,
    StateT.run_bind, charge_run]
  by_cases hs' : 1 ≤ s
  · rw [if_pos hs']
    obtain ⟨heq, hspent⟩ := h (s - 1) (by omega)
    exact ⟨heq, fun o s' h => (hspent o s' h).trans (Nat.sub_le s 1)⟩
  · rw [if_neg hs']
    refine ⟨rfl, fun o s' h => ?_⟩
    cases h
    exact Nat.zero_le s

end Rules

/-! ## The steps of the evaluator -/

section Steps

variable {n : ℕ} {knownValue knownValue' : Expression → Constants → Speculative ConstantValue}
  {statement statement' : Statement → Constants → Saved String ConstantValue →
    Speculative (Flow × Frame)}

/-- They find the same values. -/
def SameValues (n : ℕ) (knownValue knownValue' : Expression → Constants → Speculative ConstantValue) :
    Prop := ∀ expr constants, Same n (knownValue expr constants) (knownValue' expr constants)

def SameStatements (n : ℕ) (statement statement' : Statement → Constants →
    Saved String ConstantValue → Speculative (Flow × Frame)) : Prop :=
  ∀ stmt constants shadowed,
    Same n (statement stmt constants shadowed) (statement' stmt constants shadowed)

theorem SameValues.value (h : SameValues n knownValue knownValue') (expr : Expression)
    (constants : Constants) :
    Same n (value knownValue expr constants) (value knownValue' expr constants) :=
  (h expr constants).bind fun value => same_known value.intoScalar

theorem SameValues.accessIndices (h : SameValues n knownValue knownValue') (constants : Constants)
    (access : List Access) : Same n (accessIndices knownValue constants access)
      (accessIndices knownValue' constants access) := by
  induction access with
  | nil => exact same_pure []
  | cons item access ih =>
    cases item with
    | componentAccess name => exact same_failure
    | arrayAccess index =>
      exact (h.value index constants).bind fun _ => (same_known _).bind fun _ =>
        ih.bind fun _ => same_pure _

theorem SameValues.arrayElements (h : SameValues n knownValue knownValue') (constants : Constants)
    (exprs : List Expression) (elements : List ConstantValue) :
    Same n (arrayElements knownValue constants elements exprs)
      (arrayElements knownValue' constants elements exprs) := by
  induction exprs generalizing elements with
  | nil => exact same_pure elements
  | cons expr exprs ih =>
    exact (h expr constants).bind fun _ => Same.ite (ih _) same_failure

theorem SameValues.assign (h : SameValues n knownValue knownValue') (var : String)
    (access : List Access) (expr : Expression) (constants : Constants) :
    SameUpTo n (assign knownValue var access expr constants)
      (assign knownValue' var access expr constants) := by
  refine SameUpTo.bind (h expr constants) fun value =>
    SameUpTo.bind (h.accessIndices constants access) fun indices => ?_
  cases value with
  | none => exact sameUpTo_pure _
  | some value =>
    cases indices with
    | none => exact sameUpTo_pure _
    | some indices =>
      dsimp only
      cases updated constants var indices value with
      | none => exact sameUpTo_pure _
      | some constants => exact sameUpTo_pure _

theorem SameStatements.scoped (h : SameStatements n statement statement') (stmt : Statement)
    (constants : Constants) : Same n (scopedStatement statement stmt constants)
      (scopedStatement statement' stmt constants) :=
  (h stmt constants ∅).bind fun _ => same_pure _

theorem SameStatements.block (h : SameStatements n statement statement') (stmts : List Statement)
    (constants : Constants) (shadowed : Saved String ConstantValue) :
    Same n (blockStatements statement stmts constants shadowed)
      (blockStatements statement' stmts constants shadowed) := by
  induction stmts generalizing constants shadowed with
  | nil => exact same_pure _
  | cons stmt stmts ih =>
    refine (h stmt constants shadowed).bind fun frame => ?_
    obtain ⟨flow, constants', shadowed'⟩ := frame
    cases flow with
    | continued => exact ih constants' shadowed'
    | returned value => exact same_pure _

theorem SameValues.zeroInitializer (h : SameValues n knownValue knownValue') (constants : Constants)
    (dimensions : List Expression) (initializer : Expression) :
    Same n (zeroInitializer knownValue constants dimensions initializer)
      (zeroInitializer knownValue' constants dimensions initializer) := by
  induction dimensions generalizing initializer with
  | nil =>
    cases initializer with
    | number info value => exact Same.ite (same_pure _) same_failure
    | _ => exact same_failure
  | cons declared dimensions ih =>
    cases initializer with
    | uniformArray info initializer dimension =>
      exact (h.value declared constants).bind fun _ => (h.value dimension constants).bind fun _ =>
        Same.ite (ih initializer) same_failure
    | _ => exact same_failure

theorem SameValues.declaredShape (h : SameValues n knownValue knownValue') (constants : Constants)
    (stmt : Statement) (next : Option Statement) :
    Same n (declaredShape knownValue constants stmt next)
      (declaredShape knownValue' constants stmt next) := by
  unfold Evaluator.declaredShape
  split
  · refine Same.ite (same_pure _) ?_
    split
    · exact Same.ite same_failure (h.zeroInitializer _ _ _)
    · exact same_failure
  · exact same_pure _

theorem SameStatements.initializations (h : SameStatements n statement statement')
    (hknown : SameValues n knownValue knownValue') (stmts : List Statement) (constants : Constants)
    (shadowed : Saved String ConstantValue) :
    Same n (initializations knownValue statement stmts constants shadowed)
      (initializations knownValue' statement' stmts constants shadowed) := by
  induction stmts generalizing constants shadowed with
  | nil => exact same_pure _
  | cons stmt stmts ih =>
    refine (hknown.declaredShape constants stmt stmts.head?).bind fun _ =>
      (h stmt constants shadowed).bind fun frame => ?_
    obtain ⟨flow, constants', shadowed'⟩ := frame
    cases flow with
    | continued => exact ih constants' shadowed'
    | returned value => exact same_pure _

/-- Finding a value costs a step. -/
structure Charges (knownValue : Expression → Constants → Speculative ConstantValue) : Prop where
  exhausted (expr : Expression) (constants : Constants) :
    (OptionT.run (knownValue expr constants)).run 0 = .ok (none, 0)
  spends {expr : Expression} {constants : Constants} {s s' : ℕ} {value : ConstantValue}
    (h : (OptionT.run (knownValue expr constants)).run s = .ok (some value, s')) : s' < s

theorem Charges.value_exhausted (h : Charges knownValue) (expr : Expression) (constants : Constants) :
    (OptionT.run (value knownValue expr constants)).run 0 = .ok (none, 0) := by
  unfold value
  rw [OptionT.run_bind, Option.elimM, StateT.run_bind, h.exhausted]
  rfl

theorem Charges.value_spends (h : Charges knownValue) {expr : Expression} {constants : Constants}
    {s s' c : ℕ} (hc : (OptionT.run (value knownValue expr constants)).run s = .ok (some c, s')) :
    s' < s := by
  unfold value at hc
  rw [OptionT.run_bind, Option.elimM, StateT.run_bind] at hc
  obtain ⟨⟨o, t⟩, ho, hc⟩ := bind_eq_ok hc
  cases o with
  | none => cases hc
  | some v =>
    obtain ⟨-, rfl⟩ := Prod.mk.inj (Except.ok.inj hc)
    exact h.spends ho

/-- What follows a computation that costs a step has fewer steps. -/
theorem Same.bind_spends {α β : Type} {x y : Speculative α} {f g : α → Speculative β}
    (h : Same n x y) (hx : ∀ {s a s'}, (OptionT.run x).run s = .ok (some a, s') → s' < s)
    (hf : ∀ a m, m < n → Same m (f a) (g a)) : Same n (x >>= f) (y >>= g) := by
  intro s hs
  obtain ⟨heq, hspent⟩ := h s hs
  rw [OptionT.run_bind, OptionT.run_bind, Option.elimM, Option.elimM, StateT.run_bind,
    StateT.run_bind, ← heq]
  cases hr : (OptionT.run x).run s with
  | error e => exact ⟨rfl, fun _ _ h => by cases h⟩
  | ok r =>
    obtain ⟨o, s'⟩ := r
    cases o with
    | none =>
      refine ⟨rfl, fun o s'' h => ?_⟩
      cases h
      exact hspent _ _ hr
    | some a =>
      have hs' := hx hr
      obtain ⟨heq', hspent'⟩ := hf a s' (hs'.trans_le hs) s' le_rfl
      exact ⟨heq', fun o s'' h => (hspent' o s'' h).trans hs'.le⟩

theorem SameStatements.whileLoop (h : SameStatements n statement statement')
    (hknown : SameValues n knownValue knownValue') (cond : Expression) (stmt : Statement) (bound : ℕ)
    (constants : Constants) :
    Same n (whileLoop knownValue statement cond stmt bound constants)
      (whileLoop knownValue' statement' cond stmt bound constants) := by
  induction bound generalizing constants with
  | zero => exact same_exhausted
  | succ bound ih =>
    refine (hknown.value cond constants).bind fun condition => Same.ite (same_pure _) ?_
    refine (h.scoped stmt constants).bind fun frame => ?_
    obtain ⟨flow, constants'⟩ := frame
    cases flow with
    | continued => exact ih constants'
    | returned value => exact same_pure _

theorem Charges.whileLoop_exhausted (h : Charges knownValue) (cond : Expression) (stmt : Statement)
    (bound : ℕ) (constants : Constants) :
    (OptionT.run (whileLoop knownValue statement cond stmt bound constants)).run 0 =
      .ok (none, 0) := by
  cases bound with
  | zero => rfl
  | succ bound =>
    unfold whileLoop
    rw [OptionT.run_bind, Option.elimM, StateT.run_bind, h.value_exhausted]
    rfl

/-- Two bounds of at least the remaining steps. -/
theorem SameStatements.whileLoop_bounds (h : SameStatements n statement statement')
    (hknown : SameValues n knownValue knownValue') (hcharges : Charges knownValue)
    (hcharges' : Charges knownValue') (cond : Expression) (stmt : Statement) {bound bound' : ℕ}
    (hbound : n ≤ bound) (hbound' : n ≤ bound') (constants : Constants) :
    Same n (Evaluator.whileLoop knownValue statement cond stmt bound constants)
      (Evaluator.whileLoop knownValue' statement' cond stmt bound' constants) := by
  induction n using Nat.strong_induction_on generalizing bound bound' constants with
  | _ n ih =>
    cases n with
    | zero =>
      exact same_zero (hcharges.whileLoop_exhausted cond stmt bound constants)
        (hcharges'.whileLoop_exhausted cond stmt bound' constants)
    | succ n =>
      obtain ⟨k, rfl⟩ := Nat.exists_eq_add_of_le' hbound
      obtain ⟨k', rfl⟩ := Nat.exists_eq_add_of_le' hbound'
      refine Same.bind_spends (hknown.value cond constants) hcharges.value_spends
        fun condition m hm => ?_
      have hstatements : SameStatements m statement statement' :=
        fun stmt constants shadowed => (h stmt constants shadowed).mono hm.le
      have hvalues : SameValues m knownValue knownValue' :=
        fun expr constants => (hknown expr constants).mono hm.le
      refine Same.ite (same_pure _) ((hstatements.scoped stmt constants).bind fun frame => ?_)
      obtain ⟨flow, constants'⟩ := frame
      cases flow with
      | continued =>
        have hle : ∀ k, m ≤ k + n := fun k => (Nat.lt_succ_iff.mp hm).trans (Nat.le_add_left n k)
        exact ih m hm hstatements hvalues (hle k) (hle k') constants'
      | returned value => exact same_pure _

end Steps

/-! ## The recursion -/

section Recursion

variable {n prime : ℕ} {functions : FunctionInfo} {fuel fuel' : ℕ}

/-- A step is charged and what follows is the same. -/
theorem knownValue_succ
    (h : ∀ depth, SameValues n (knownValue prime functions fuel depth)
      (knownValue prime functions fuel' depth))
    (hstatement : ∀ depth, SameStatements n (statement prime functions fuel depth)
      (statement prime functions fuel' depth)) (depth : ℕ) (expr : Expression)
    (constants : Constants) :
    ∃ x y, knownValue prime functions (fuel + 1) depth expr constants = (charge 1 >>= fun _ => x) ∧
      knownValue prime functions (fuel' + 1) depth expr constants = (charge 1 >>= fun _ => y) ∧
      Same n x y := by
  unfold knownValue
  refine ⟨_, _, rfl, rfl, ?_⟩
  cases expr with
  | number info value => exact (same_attempt _).bind fun _ => same_pure _
  | var info name access =>
    exact ((h depth).accessIndices constants access).bind fun _ => (same_known _).bind fun _ =>
      (same_known _).bind fun _ => (same_chargeSize _).bind fun _ => same_pure _
  | arrayInLine info values =>
    exact (same_checkAllocation _).bind fun _ =>
      ((h depth).arrayElements constants values []).bind fun _ => same_pure _
  | uniformArray info initializer dimension =>
    exact ((h depth).value dimension constants).bind fun _ => (same_known _).bind fun _ =>
      (same_checkAllocation _).bind fun _ => (h depth initializer constants).bind fun _ =>
      (same_known _).bind fun _ => (same_known _).bind fun _ => (same_charge _).bind fun _ =>
      same_pure _
  | infixOp info lhe op rhe =>
    exact ((h depth).value lhe constants).bind fun _ => ((h depth).value rhe constants).bind fun _ =>
      Same.ite (same_attempt _) ((same_attempt _).bind fun _ => same_pure _)
  | prefixOp info op rhe =>
    exact ((h depth).value rhe constants).bind fun _ => (same_attempt _).bind fun _ => same_pure _
  | inlineSwitchOp info cond ifTrue ifFalse =>
    exact ((h depth).value cond constants).bind fun _ => h depth _ constants
  | call info id args =>
    refine (same_known _).bind fun function => Same.ite same_failure ?_
    refine Same.bind ?_ fun parameters =>
      ((hstatement (depth + 1)).scoped function.body parameters).bind fun frame => ?_
    · generalize (∅ : Constants) = parameters
      generalize function.nameOfParams.zip args = pairs
      induction pairs generalizing parameters with
      | nil => exact same_pure _
      | cons pair pairs ih =>
        rw [List.foldlM_cons, List.foldlM_cons]
        exact Same.bind ((h depth pair.2 constants).bind fun _ => same_pure _) fun next => ih next
    · obtain ⟨flow, constants'⟩ := frame
      cases flow with
      | continued => exact same_failure
      | returned value => exact same_pure _
  | parallelOp info rhe => exact same_failure
  | busCall info id args => exact same_failure
  | anonymousComp info id isParallel params signals names => exact same_failure
  | tuple info values => exact same_failure

theorem sameValues_succ
    (h : ∀ depth, SameValues n (knownValue prime functions fuel depth)
      (knownValue prime functions fuel' depth))
    (hstatement : ∀ depth, SameStatements n (statement prime functions fuel depth)
      (statement prime functions fuel' depth)) (depth : ℕ) :
    SameValues (n + 1) (knownValue prime functions (fuel + 1) depth)
      (knownValue prime functions (fuel' + 1) depth) := by
  intro expr constants
  obtain ⟨x, y, hx, hy, hsame⟩ := knownValue_succ h hstatement depth expr constants
  rw [hx, hy]
  exact hsame.charge_bind

theorem sameStatements_succ
    (h : ∀ depth, SameValues n (knownValue prime functions fuel depth)
      (knownValue prime functions fuel' depth))
    (hstatement : ∀ depth, SameStatements n (statement prime functions fuel depth)
      (statement prime functions fuel' depth))
    (hloop : ∀ depth cond stmt constants, Same n
      (whileLoop (knownValue prime functions fuel depth) (statement prime functions fuel depth) cond
        stmt fuel constants)
      (whileLoop (knownValue prime functions fuel' depth) (statement prime functions fuel' depth) cond
        stmt fuel' constants)) (depth : ℕ) :
    SameStatements (n + 1) (statement prime functions (fuel + 1) depth)
      (statement prime functions (fuel' + 1) depth) := by
  intro stmt constants shadowed
  unfold statement
  refine Same.charge_bind ?_
  cases stmt with
  | block info stmts => exact ((hstatement depth).block stmts constants ∅).bind fun _ => same_pure _
  | initializationBlock info xtype inits =>
    exact (hstatement depth).initializations (h depth) inits constants shadowed
  | declaration info xtype name dimensions isConstant isAnonymous =>
    cases xtype with
    | var =>
      refine Same.bind ?_ fun _ => same_pure _
      unfold chargeShadowed
      refine Same.ite (same_pure _) ?_
      cases constants.lookup name with
      | none => exact same_pure _
      | some value => exact same_chargeSize value
    | _ => exact same_failure
  | substitution info var access op rhe =>
    cases op with
    | assignVar =>
      refine Same.bind ?_ fun result => Same.ite (same_pure _) same_failure
      exact SameUpTo.bind ((h depth).assign var access rhe constants) fun _ => sameUpTo_pure _
    | _ => exact same_failure
  | ifThenElse info cond ifCase elseCase =>
    refine ((h depth).value cond constants).bind fun condition => Same.ite
      (((hstatement depth).scoped ifCase constants).bind fun _ => same_pure _) ?_
    cases elseCase with
    | none => exact same_pure _
    | some elseCase => exact ((hstatement depth).scoped elseCase constants).bind fun _ => same_pure _
  | whileStmt info cond stmt => exact (hloop depth cond stmt constants).bind fun _ => same_pure _
  | returnStmt info value => exact (h depth value constants).bind fun _ => same_pure _
  | assert info arg =>
    exact ((h depth).value arg constants).bind fun _ => Same.ite (same_pure _) same_failure
  | multSubstitution info lhe op rhe => exact same_failure
  | underscoreSubstitution info op rhe => exact same_failure
  | constraintEquality info lhe rhe => exact same_failure
  | logCall info args => exact same_failure

/-- Steps are only spent. -/
theorem same_self (prime : ℕ) (functions : FunctionInfo) (fuel n : ℕ) :
    (∀ depth, SameValues n (knownValue prime functions fuel depth)
      (knownValue prime functions fuel depth)) ∧
    ∀ depth, SameStatements n (statement prime functions fuel depth)
      (statement prime functions fuel depth) := by
  induction fuel generalizing n with
  | zero =>
    exact ⟨fun _ _ _ => same_exhausted, fun _ _ _ _ => same_exhausted⟩
  | succ fuel ih =>
    obtain ⟨hvalues, hstatements⟩ := ih n
    refine ⟨fun depth expr constants => ?_, fun depth stmt constants shadowed => ?_⟩
    · exact (sameValues_succ hvalues hstatements depth expr constants).mono (Nat.le_succ n)
    · exact (sameStatements_succ hvalues hstatements
        (fun depth cond stmt constants => (hstatements depth).whileLoop (hvalues depth) cond stmt fuel
          constants) depth stmt constants shadowed).mono (Nat.le_succ n)

theorem charges_knownValue (fuel depth : ℕ) :
    Charges (knownValue prime functions fuel depth) := by
  cases fuel with
  | zero => exact ⟨fun _ _ => rfl, fun h => by cases h⟩
  | succ fuel =>
    refine ⟨fun expr constants => ?_, fun {expr constants s s' value} h => ?_⟩
    · unfold knownValue
      rw [OptionT.run_bind, Option.elimM, StateT.run_bind, charge_run]
      rfl
    · obtain ⟨hvalues, hstatements⟩ := same_self prime functions fuel s
      obtain ⟨x, y, hx, hy, hsame⟩ := knownValue_succ hvalues hstatements depth expr constants
      rw [hx, OptionT.run_bind, Option.elimM, StateT.run_bind, charge_run] at h
      by_cases hs : 1 ≤ s
      · rw [if_pos hs] at h
        have hspent := (hsame (s - 1) (Nat.sub_le s 1)).2 _ s' h
        omega
      · rw [if_neg hs] at h
        cases h

theorem statement_exhausted (fuel depth : ℕ) (stmt : Statement) (constants : Constants)
    (shadowed : Saved String ConstantValue) :
    (OptionT.run (statement prime functions fuel depth stmt constants shadowed)).run 0 =
      .ok (none, 0) := by
  cases fuel with
  | zero => rfl
  | succ fuel =>
    unfold statement
    rw [OptionT.run_bind, Option.elimM, StateT.run_bind, charge_run]
    rfl

theorem same_succ (prime : ℕ) (functions : FunctionInfo) (fuel : ℕ) :
    (∀ depth, SameValues fuel (knownValue prime functions fuel depth)
      (knownValue prime functions (fuel + 1) depth)) ∧
    ∀ depth, SameStatements fuel (statement prime functions fuel depth)
      (statement prime functions (fuel + 1) depth) := by
  induction fuel with
  | zero =>
    refine ⟨fun depth expr constants => ?_, fun depth stmt constants shadowed => ?_⟩
    · exact same_zero ((charges_knownValue 0 depth).exhausted expr constants)
        ((charges_knownValue 1 depth).exhausted expr constants)
    · exact same_zero (statement_exhausted 0 depth stmt constants shadowed)
        (statement_exhausted 1 depth stmt constants shadowed)
  | succ fuel ih =>
    obtain ⟨hvalues, hstatements⟩ := ih
    exact ⟨sameValues_succ hvalues hstatements, sameStatements_succ hvalues hstatements
      fun depth cond stmt constants => (hstatements depth).whileLoop_bounds (hvalues depth)
        (charges_knownValue _ _) (charges_knownValue _ _) cond stmt le_rfl (Nat.le_succ fuel) constants⟩

/-- A bound of at least the remaining steps is as good as any greater one. -/
theorem same_of_le (prime : ℕ) (functions : FunctionInfo) (hle : fuel ≤ fuel') :
    (∀ depth, SameValues fuel (knownValue prime functions fuel depth)
      (knownValue prime functions fuel' depth)) ∧
    ∀ depth, SameStatements fuel (statement prime functions fuel depth)
      (statement prime functions fuel' depth) := by
  induction fuel', hle using Nat.le_induction with
  | base => exact same_self prime functions fuel fuel
  | succ fuel' hle ih =>
    obtain ⟨hvalues, hstatements⟩ := same_succ prime functions fuel'
    refine ⟨fun depth expr constants => ?_, fun depth stmt constants shadowed => ?_⟩
    · exact (ih.1 depth expr constants).trans ((hvalues depth expr constants).mono hle)
    · exact (ih.2 depth stmt constants shadowed).trans
        ((hstatements depth stmt constants shadowed).mono hle)

/-- Any bound of at least the remaining steps finds the same value, and steps are only spent. -/
theorem knownValue_run_eq {fuel fuel' steps : ℕ} (hfuel : steps ≤ fuel) (hfuel' : steps ≤ fuel')
    (depth : ℕ) (expr : Expression) (constants : Constants) :
    (OptionT.run (knownValue prime functions fuel depth expr constants)).run steps =
      (OptionT.run (knownValue prime functions fuel' depth expr constants)).run steps ∧
    ∀ value steps', (OptionT.run (knownValue prime functions fuel depth expr constants)).run steps =
      .ok (value, steps') → steps' ≤ steps := by
  obtain ⟨-, hspent⟩ := (same_self prime functions fuel steps).1 depth expr constants steps le_rfl
  have h := ((same_of_le prime functions hfuel).1 depth expr constants steps le_rfl).1
  have h' := ((same_of_le prime functions hfuel').1 depth expr constants steps le_rfl).1
  exact ⟨h.symm.trans h', hspent⟩

/-- Two steps are not enough for a sum. -/
theorem knownValue_run_eq_sum :
    let sum := Expression.infixOp ⟨0, 0, none⟩ (.number ⟨1, 0, none⟩ 2) .add (.number ⟨2, 0, none⟩ 3)
    (OptionT.run (knownValue 7 ∅ 2 0 sum ∅)).run 2 = (OptionT.run (knownValue 7 ∅ maxSteps 0 sum ∅)).run 2 :=
  (knownValue_run_eq le_rfl (by decide) 0 _ ∅).1

end Recursion

end Evaluator

end Circom.LlzkBackend
