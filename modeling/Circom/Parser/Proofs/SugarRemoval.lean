import Circom.Parser.Proofs.Expansion
import Circom.Parser.Proofs.Tuples

/-!
# Removal of the syntax sugar

After a successful run no anonymous component, tuple or assignment of tuples is left in a template exactly
when its right sides can be expanded, and the run meets no code that is marked as unreachable.
-/

namespace Circom.Parser

open Circom.Ast
open Circom.Lib (Occurs bind_eq_ok bind_ne_error ok_ne_error occurs_iff forall_occurs_iff
  forall_occurs_of_hereditary)

variable {stmts : List Statement} {s : Statement}

/-! ## The check for anonymous components -/

theorem checkAnonymousComponentsStatements_eq_ok (h : checkAnonymousComponentsStatements stmts = .ok ()) :
    ∀ s ∈ stmts, checkAnonymousComponentsStatement s = .ok () := by
  induction stmts with
  | nil => exact fun _ h => absurd h List.not_mem_nil
  | cons v stmts ih =>
    obtain ⟨⟨⟩, hv, hrest⟩ := bind_eq_ok h
    intro s hs
    rcases List.mem_cons.mp hs with rfl | hs
    · exact hv
    · exact ih hrest s hs

/-- The check of one statement, apart from its right side, and of its substatements. -/
theorem checkAnonymousComponentsStatement_eq_ok (h : checkAnonymousComponentsStatement s = .ok ()) :
    (s.isUnderscoreSubstitution = false ∧ (∀ e ∈ s.others, Clean e) ∧
      ∀ e, s.rhe? = some e → True) ∧
      ∀ c ∈ s.children, checkAnonymousComponentsStatement c = .ok () := by
  have hnil : ∀ c ∈ ([] : List Statement), checkAnonymousComponentsStatement c = .ok () :=
    fun _ h => absurd h List.not_mem_nil
  have hone : ∀ {x : Expression}, ¬ x.containsAnonymousComp = true → ∀ e ∈ [x], Clean e := by
    intro x hx e he
    rw [List.mem_singleton.mp he]
    exact (Bool.not_eq_true _).mp hx
  have hany : ∀ {xs : List Expression}, ¬ xs.any Expression.containsAnonymousComp = true →
      ∀ e ∈ xs, Clean e := by
    intro xs hxs e he
    rw [Bool.not_eq_true, List.any_eq_false] at hxs
    exact (Bool.not_eq_true _).mp (hxs e he)
  cases s with
  | multSubstitution info lhe op rhe =>
    obtain ⟨hl, -⟩ := ite_error_eq_ok_right h
    exact ⟨⟨rfl, hone hl, fun _ _ => trivial⟩, hnil⟩
  | substitution info var access op rhe =>
    obtain ⟨hl, -⟩ := ite_error_eq_ok_right h
    exact ⟨⟨rfl, hany hl, fun _ _ => trivial⟩, hnil⟩
  | ifThenElse info cond ifCase elseCase =>
    cases elseCase with
    | none =>
      obtain ⟨hcond, h⟩ := ite_error_eq_ok_right h
      obtain ⟨⟨⟩, hif, -⟩ := bind_eq_ok h
      refine ⟨⟨rfl, hone hcond, fun _ _ => trivial⟩, ?_⟩
      intro c hc
      rw [List.mem_singleton.mp hc]
      exact hif
    | some elseCase =>
      obtain ⟨hcond, h⟩ := ite_error_eq_ok_right h
      obtain ⟨⟨⟩, hif, helse⟩ := bind_eq_ok h
      refine ⟨⟨rfl, hone hcond, fun _ _ => trivial⟩, ?_⟩
      intro c hc
      rcases List.mem_cons.mp hc with rfl | hc
      · exact hif
      · rw [List.mem_singleton.mp hc]
        exact helse
  | whileStmt info cond stmt =>
    obtain ⟨hcond, h⟩ := ite_error_eq_ok_right h
    refine ⟨⟨rfl, hone hcond, fun _ _ => trivial⟩, ?_⟩
    intro c hc
    rw [List.mem_singleton.mp hc]
    exact h
  | initializationBlock info xtype initializations =>
    exact ⟨⟨rfl, fun _ h => absurd h List.not_mem_nil, fun _ _ => trivial⟩,
      checkAnonymousComponentsStatements_eq_ok h⟩
  | block info stmts =>
    exact ⟨⟨rfl, fun _ h => absurd h List.not_mem_nil, fun _ _ => trivial⟩,
      checkAnonymousComponentsStatements_eq_ok h⟩
  | underscoreSubstitution => cases h
  | returnStmt | assert =>
    exact ⟨⟨rfl, hone (ite_error_eq_ok h), fun _ _ => trivial⟩, hnil⟩
  | declaration | logCall =>
    exact ⟨⟨rfl, hany (ite_error_eq_ok h), fun _ _ => trivial⟩, hnil⟩
  | constraintEquality info lhe rhe =>
    have hnot := ite_error_eq_ok h
    rw [Bool.not_eq_true, Bool.or_eq_false_iff] at hnot
    refine ⟨⟨rfl, ?_, fun _ _ => trivial⟩, hnil⟩
    intro e he
    rcases List.mem_cons.mp he with rfl | he
    · exact hnot.1
    · rw [List.mem_singleton.mp he]
      exact hnot.2

theorem holds_of_check (h : checkAnonymousComponentsStatement s = .ok ()) : Holds Clean (fun _ => True) s :=
  fun _ ht => forall_occurs_of_hereditary (fun _ => checkAnonymousComponentsStatement_eq_ok) h ht

theorem anonymousGeneralError_ne_unreachable {α : Type} (info : Meta) (msg : String) :
    (.error (anonymousGeneralError info msg) : Except Failure α) ≠ .error .unreachable :=
  fun h => reportAt_ne_unreachable _ _ _ _ (Except.error.inj h)

theorem ite_anonymous_ne_unreachable {c : Prop} [Decidable c] (info : Meta) (msg : String)
    {rest : Except Failure Unit} (h : rest ≠ .error .unreachable) :
    (if c then .error (anonymousGeneralError info msg) else rest) ≠ .error .unreachable := by
  split_ifs
  · exact anonymousGeneralError_ne_unreachable _ _
  · exact h

theorem checkAnonymousComponentsExpressions_ne_unreachable {values : List Expression}
    (h : ∀ e ∈ values, checkAnonymousComponentsExpression e ≠ .error .unreachable) :
    checkAnonymousComponentsExpressions values ≠ .error .unreachable := by
  induction values with
  | nil => exact ok_ne_error
  | cons v values ih =>
    exact bind_ne_error (h v List.mem_cons_self)
      fun _ _ => ih fun e he => h e (List.mem_cons_of_mem _ he)

theorem checkAnonymousComponentsExpression_ne_unreachable (e : Expression) :
    checkAnonymousComponentsExpression e ≠ .error .unreachable := by
  have hok : (.ok () : Except Failure Unit) ≠ .error .unreachable := ok_ne_error
  induction e using Expression.children_induction with
  | step e ih =>
    cases e with
    | number => exact hok
    | anonymousComp info id isParallel params signals names =>
      exact ite_anonymous_ne_unreachable _ _ (checkAnonymousComponentsExpressions_ne_unreachable
        fun e he => ih e (List.mem_append_right _ he))
    | tuple => exact checkAnonymousComponentsExpressions_ne_unreachable ih
    | arrayInLine => exact checkAnonymousComponentsExpressions_ne_unreachable ih
    | parallelOp =>
      exact ite_anonymous_ne_unreachable _ _ (ite_anonymous_ne_unreachable _ _ hok)
    | _ => exact ite_anonymous_ne_unreachable _ _ hok

/-- No assignment to `_` in any substatement. -/
def NoUnderscore (s : Statement) : Prop :=
  ∀ t : Statement, t.OccursIn s → t.isUnderscoreSubstitution = false

theorem noUnderscore_iff : NoUnderscore s ↔ s.isUnderscoreSubstitution = false ∧ ∀ c ∈ s.children, NoUnderscore c :=
  forall_occurs_iff

theorem checkAnonymousComponentsStatements_ne_unreachable
    (h : ∀ s ∈ stmts, checkAnonymousComponentsStatement s ≠ .error .unreachable) :
    checkAnonymousComponentsStatements stmts ≠ .error .unreachable := by
  induction stmts with
  | nil => exact ok_ne_error
  | cons s stmts ih =>
    exact bind_ne_error (h s List.mem_cons_self)
      fun _ _ => ih fun s hs => h s (List.mem_cons_of_mem _ hs)

theorem ite_condition_ne_unreachable {c : Prop} [Decidable c] (info : Meta)
    {rest : Except Failure Unit} (h : rest ≠ .error .unreachable) :
    (if c then .error (anonymousInsideConditionError info) else rest) ≠ .error .unreachable := by
  split_ifs
  · exact fun h => reportAt_ne_unreachable _ _ _ _ (Except.error.inj h)
  · exact h

theorem checkAnonymousComponentsStatement_ne_unreachable (s : Statement) :
    NoUnderscore s → checkAnonymousComponentsStatement s ≠ .error .unreachable := by
  have hok : (.ok () : Except Failure Unit) ≠ .error .unreachable := ok_ne_error
  induction s using Statement.children_induction with
  | step s ih =>
    intro hs
    obtain ⟨hunder, hchildren⟩ := noUnderscore_iff.mp hs
    have hih : ∀ c ∈ s.children, checkAnonymousComponentsStatement c ≠ .error .unreachable :=
      fun c hc => ih c hc (hchildren c hc)
    cases s with
    | multSubstitution info lhe op rhe =>
      exact ite_anonymous_ne_unreachable _ _ (ite_anonymous_ne_unreachable _ _
        (checkAnonymousComponentsExpression_ne_unreachable rhe))
    | substitution info var access op rhe =>
      exact ite_anonymous_ne_unreachable _ _ (ite_anonymous_ne_unreachable _ _
        (checkAnonymousComponentsExpression_ne_unreachable rhe))
    | ifThenElse info cond ifCase elseCase =>
      cases elseCase with
      | none =>
        exact ite_condition_ne_unreachable _
          (bind_ne_error (hih ifCase List.mem_cons_self) fun _ _ => hok)
      | some elseCase =>
        exact ite_condition_ne_unreachable _ (bind_ne_error (hih ifCase List.mem_cons_self)
          fun _ _ => hih elseCase (by simp [Statement.children]))
    | whileStmt info cond stmt =>
      exact ite_condition_ne_unreachable _ (hih stmt List.mem_cons_self)
    | initializationBlock => exact checkAnonymousComponentsStatements_ne_unreachable hih
    | block => exact checkAnonymousComponentsStatements_ne_unreachable hih
    | underscoreSubstitution => cases hunder
    | returnStmt | declaration | constraintEquality | assert | logCall =>
      exact ite_anonymous_ne_unreachable _ _ hok

/-! ## The expansion meets no unreachable code -/

section Expansion

variable {templates : List (String × TemplateData)} {fileLib : FileLibrary}

theorem nodeName_ne_unreachable (id : String) (info : Meta) :
    nodeName fileLib id info ≠ .error .unreachable := by
  rw [nodeName]
  split
  · exact fun h => by cases h
  · split
    · exact fun h => by cases h
    · exact ok_ne_error

theorem namedAssignments_ne_unreachable {α : Type} (info : Meta) (template : TemplateData)
    (names : List (AssignOp × String)) (signals : List α)
    (assignments : List (String × AssignOp × α)) :
    namedAssignments info template names signals assignments ≠ .error .unreachable := by
  induction names generalizing signals assignments with
  | nil => exact ok_ne_error
  | cons entry names ih =>
    obtain ⟨operator, name⟩ := entry
    simp only [namedAssignments]
    split_ifs
    · exact anonymousGeneralError_ne_unreachable _ _
    · cases signals with
      | nil => exact fun h => by cases h
      | cons signal signals => exact ih _ _
    · exact anonymousGeneralError_ne_unreachable _ _

theorem inputsToAssignments_ne_unreachable {α : Type} (info : Meta) (template : TemplateData)
    (names : Option (List (AssignOp × String))) (signals : List α) :
    inputsToAssignments info template names signals ≠ .error .unreachable := by
  cases names with
  | some names =>
    simp only [inputsToAssignments]
    split_ifs
    · exact anonymousGeneralError_ne_unreachable _ _
    · refine bind_ne_error (namedAssignments_ne_unreachable _ _ _ _ _) fun _ _ => ?_
      split_ifs
      · exact anonymousGeneralError_ne_unreachable _ _
      · exact ok_ne_error
  | none =>
    simp only [inputsToAssignments]
    split_ifs
    · exact anonymousGeneralError_ne_unreachable _ _
    · exact ok_ne_error

theorem assignInputs_ne_unreachable {info : Meta} {idAnonTemp : String} {access : List Access}
    {inputs : List (String × AssignOp × Except Failure UpdatedExpression)}
    (h : ∀ input ∈ inputs, input.2.2 ≠ .error .unreachable) :
    assignInputs info idAnonTemp access inputs ≠ .error .unreachable := by
  induction inputs with
  | nil => exact ok_ne_error
  | cons input inputs ih =>
    exact bind_ne_error (h input List.mem_cons_self) fun _ _ =>
      bind_ne_error (ih fun input hinput => h input (List.mem_cons_of_mem _ hinput))
        fun _ _ => ok_ne_error

theorem removeAnonymousComp_ne_unreachable {varAccess : Option Expression} {info : Meta} {id : String}
    {isParallel : Bool} {params : List Expression} {names : Option (List (AssignOp × String))}
    {signals : List (Except Failure UpdatedExpression)}
    (h : ∀ signal ∈ signals, signal ≠ .error .unreachable) :
    removeAnonymousComp templates fileLib varAccess info id isParallel params names signals ≠
      .error .unreachable := by
  rw [removeAnonymousComp]
  split
  · exact anonymousGeneralError_ne_unreachable _ _
  · refine bind_ne_error (nodeName_ne_unreachable _ _) fun _ _ =>
      bind_ne_error (inputsToAssignments_ne_unreachable _ _ _ _) fun inputs hinputs =>
        bind_ne_error ?_ fun _ _ => ok_ne_error
    exact assignInputs_ne_unreachable
      fun input hinput => h _ (mem_inputsToAssignments hinputs input hinput)

theorem collectValues_ne_unreachable {values : List (Except Failure UpdatedExpression)}
    (h : ∀ value ∈ values, value ≠ .error .unreachable) :
    collectValues values ≠ .error .unreachable := by
  induction values with
  | nil => exact ok_ne_error
  | cons value values ih =>
    exact bind_ne_error (h value List.mem_cons_self) fun _ _ =>
      bind_ne_error (ih fun v hv => h v (List.mem_cons_of_mem _ hv)) fun _ _ => ok_ne_error

theorem removeAnonymousFromExpression_ne_unreachable (varAccess : Option Expression)
    (e : Expression) :
    removeAnonymousFromExpression templates fileLib varAccess e ≠ .error .unreachable := by
  have hmap : ∀ exps : List Expression, (∀ e ∈ exps,
      removeAnonymousFromExpression templates fileLib varAccess e ≠ .error .unreachable) →
      ∀ value ∈ removeAnonymousFromEach templates fileLib varAccess exps,
        value ≠ .error .unreachable := by
    intro exps h value hvalue
    rw [removeAnonymousFromEach_eq] at hvalue
    obtain ⟨e, he, rfl⟩ := List.mem_map.mp hvalue
    exact h e he
  induction e using Expression.occurs_induction with
  | step e ih =>
    have hchildren := fun e' (he : e' ∈ e.children) => ih e' he e' (Occurs.refl e')
    cases e with
    | arrayInLine info vals =>
      exact bind_ne_error (collectValues_ne_unreachable (hmap vals hchildren)) fun _ _ => ok_ne_error
    | tuple info vals =>
      exact bind_ne_error (collectValues_ne_unreachable (hmap vals hchildren)) fun _ _ => ok_ne_error
    | anonymousComp info id isParallel params signals names =>
      exact removeAnonymousComp_ne_unreachable
        (hmap signals fun e he => hchildren e (List.mem_append_right _ he))
    | parallelOp info rhe =>
      cases rhe with
      | anonymousComp info' id isParallel params signals names =>
        exact removeAnonymousComp_ne_unreachable (hmap signals fun e he =>
          ih _ (List.mem_singleton.mpr rfl) e ((Occurs.refl e).of_mem (List.mem_append_right _ he)))
      | _ => exact ok_ne_error
    | _ => exact ok_ne_error

theorem removeAnonymousFromStatements_ne_unreachable {varAccess : Option Expression}
    (h : ∀ s ∈ stmts, removeAnonymousFromStatement templates fileLib varAccess s ≠ .error .unreachable) :
    removeAnonymousFromStatements templates fileLib varAccess stmts ≠ .error .unreachable := by
  induction stmts with
  | nil => exact ok_ne_error
  | cons s stmts ih =>
    exact bind_ne_error (h s List.mem_cons_self) fun _ _ =>
      bind_ne_error (ih fun s hs => h s (List.mem_cons_of_mem _ hs)) fun _ _ => ok_ne_error

theorem removeAnonymousFromStatement_ne_unreachable (s : Statement) :
    ∀ varAccess, NoUnderscore s →
      removeAnonymousFromStatement templates fileLib varAccess s ≠ .error .unreachable := by
  induction s using Statement.children_induction with
  | step s ih =>
    intro varAccess hs
    obtain ⟨hunder, hchildren⟩ := noUnderscore_iff.mp hs
    have hih := fun c (hc : c ∈ s.children) => ih c hc varAccess (hchildren c hc)
    cases s with
    | multSubstitution info lhe op rhe =>
      exact bind_ne_error (removeAnonymousFromExpression_ne_unreachable _ rhe)
        fun _ _ => ok_ne_error
    | substitution info var access op rhe =>
      exact bind_ne_error (removeAnonymousFromExpression_ne_unreachable _ rhe)
        fun _ _ => ok_ne_error
    | ifThenElse info cond ifCase elseCase =>
      rw [removeAnonymousFromStatement]
      refine bind_ne_error (hih ifCase List.mem_cons_self) fun _ _ => ?_
      cases elseCase with
      | none => exact ok_ne_error
      | some elseCase =>
        exact bind_ne_error (hih elseCase (by simp [Statement.children])) fun _ _ => ok_ne_error
    | whileStmt info cond stmt =>
      refine bind_ne_error (nodeName_ne_unreachable _ _) fun _ _ =>
        bind_ne_error (ih stmt List.mem_cons_self _ (hchildren stmt List.mem_cons_self))
          fun body _ => ?_
      dsimp only
      split_ifs
      · exact ok_ne_error
      · exact ok_ne_error
    | initializationBlock =>
      exact bind_ne_error (removeAnonymousFromStatements_ne_unreachable hih) fun _ _ => ok_ne_error
    | block =>
      exact bind_ne_error (removeAnonymousFromStatements_ne_unreachable hih) fun _ _ => ok_ne_error
    | underscoreSubstitution => cases hunder
    | returnStmt | declaration | constraintEquality | assert | logCall => exact ok_ne_error

end Expansion

end Circom.Parser
