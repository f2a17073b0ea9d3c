import Circom.Ast.Predicates

/-!
# What the predicates find

`contains_anonymous_comp` and `contains_tuple` look at every place of an expression: they answer false
exactly when nothing of the kind occurs in it at any depth.
-/

namespace Circom.Ast

open Circom.Lib

/-! ## Children are smaller -/

theorem Access.sizeOf_index? {access : Access} {index : Expression}
    (h : access.index? = some index) : sizeOf index < sizeOf access := by
  cases access with
  | componentAccess name => cases h
  | arrayAccess i =>
    cases h
    simp only [Access.arrayAccess.sizeOf_spec]
    omega

theorem Expression.sizeOf_children (e : Expression) :
    ∀ c ∈ e.children, sizeOf c < sizeOf e := by
  intro c hc
  cases e with
  | var info name access =>
    obtain ⟨a, ha, hindex⟩ := List.mem_filterMap.mp hc
    have hlt := Access.sizeOf_index? hindex
    have hmem := List.sizeOf_lt_of_mem ha
    simp only [Expression.var.sizeOf_spec]
    omega
  | anonymousComp info id isParallel params signals names =>
    rcases List.mem_append.mp hc with hc | hc
    · have hmem := List.sizeOf_lt_of_mem hc
      simp only [Expression.anonymousComp.sizeOf_spec]
      omega
    · have hmem := List.sizeOf_lt_of_mem hc
      simp only [Expression.anonymousComp.sizeOf_spec]
      omega
  | call info id args =>
    have hmem : sizeOf c < sizeOf args := List.sizeOf_lt_of_mem hc
    simp only [Expression.call.sizeOf_spec]
    omega
  | busCall info id args =>
    have hmem : sizeOf c < sizeOf args := List.sizeOf_lt_of_mem hc
    simp only [Expression.busCall.sizeOf_spec]
    omega
  | arrayInLine info values =>
    have hmem : sizeOf c < sizeOf values := List.sizeOf_lt_of_mem hc
    simp only [Expression.arrayInLine.sizeOf_spec]
    omega
  | tuple info values =>
    have hmem : sizeOf c < sizeOf values := List.sizeOf_lt_of_mem hc
    simp only [Expression.tuple.sizeOf_spec]
    omega
  | number info value => cases hc
  | infixOp info lhe op rhe =>
    simp only [Expression.children, List.mem_cons, List.not_mem_nil, or_false] at hc
    rcases hc with rfl | rfl
    all_goals
      simp only [Expression.infixOp.sizeOf_spec]
      omega
  | prefixOp info op rhe =>
    rw [List.mem_singleton.mp hc]
    simp only [Expression.prefixOp.sizeOf_spec]
    omega
  | inlineSwitchOp info cond ifTrue ifFalse =>
    simp only [Expression.children, List.mem_cons, List.not_mem_nil, or_false] at hc
    rcases hc with rfl | rfl | rfl
    all_goals
      simp only [Expression.inlineSwitchOp.sizeOf_spec]
      omega
  | parallelOp info rhe =>
    rw [List.mem_singleton.mp hc]
    simp only [Expression.parallelOp.sizeOf_spec]
    omega
  | uniformArray info value dimension =>
    simp only [Expression.children, List.mem_cons, List.not_mem_nil, or_false] at hc
    rcases hc with rfl | rfl
    all_goals
      simp only [Expression.uniformArray.sizeOf_spec]
      omega

theorem Statement.sizeOf_children (s : Statement) :
    ∀ c ∈ s.children, sizeOf c < sizeOf s := by
  intro c hc
  cases s with
  | ifThenElse info cond ifCase elseCase =>
    cases elseCase with
    | none =>
      rw [List.mem_singleton.mp hc]
      simp only [Statement.ifThenElse.sizeOf_spec]
      omega
    | some elseCase =>
      simp only [Statement.children, Option.toList_some, List.mem_cons, List.not_mem_nil,
        or_false] at hc
      rcases hc with rfl | rfl
      all_goals
        simp only [Statement.ifThenElse.sizeOf_spec, Option.some.sizeOf_spec]
        omega
  | whileStmt info cond stmt =>
    rw [List.mem_singleton.mp hc]
    simp only [Statement.whileStmt.sizeOf_spec]
    omega
  | initializationBlock info xtype initializations =>
    have hmem : sizeOf c < sizeOf initializations := List.sizeOf_lt_of_mem hc
    simp only [Statement.initializationBlock.sizeOf_spec]
    omega
  | block info stmts =>
    have hmem : sizeOf c < sizeOf stmts := List.sizeOf_lt_of_mem hc
    simp only [Statement.block.sizeOf_spec]
    omega
  | returnStmt | declaration | substitution | multSubstitution | underscoreSubstitution
  | constraintEquality | logCall | assert => cases hc

/-- Induction over the subexpressions of an expression. -/
theorem Expression.children_induction {motive : Expression → Prop}
    (step : ∀ e : Expression, (∀ c ∈ e.children, motive c) → motive e) (e : Expression) :
    motive e :=
  Lib.children_induction Expression.sizeOf_children step e

/-- Induction over an expression with the hypothesis for everything below. -/
theorem Expression.occurs_induction {motive : Expression → Prop}
    (step : ∀ e : Expression, (∀ c ∈ e.children, ∀ x : Expression, x.OccursIn c → motive x) →
      motive e) (e : Expression) : motive e :=
  Lib.occurs_induction Expression.sizeOf_children step e

/-- Induction over the substatements of a statement. -/
theorem Statement.children_induction {motive : Statement → Prop}
    (step : ∀ s : Statement, (∀ c ∈ s.children, motive c) → motive s) (s : Statement) :
    motive s :=
  Lib.children_induction Statement.sizeOf_children step s

/-! ## Anonymous components -/

theorem Expression.anyContainsAnonymousComp_eq (args : List Expression) :
    anyContainsAnonymousComp args = args.any containsAnonymousComp := by
  induction args with
  | nil => rfl
  | cons arg args ih => rw [anyContainsAnonymousComp, ih, List.any_cons]

theorem Expression.accessContainsAnonymousComp_eq (access : List Access) :
    accessContainsAnonymousComp access =
      (access.filterMap Access.index?).any containsAnonymousComp := by
  induction access with
  | nil => rfl
  | cons a access ih =>
    cases a with
    | componentAccess name => rw [accessContainsAnonymousComp, ih]; rfl
    | arrayAccess index => rw [accessContainsAnonymousComp, ih]; rfl

theorem Expression.containsAnonymousComp_eq (e : Expression) :
    e.containsAnonymousComp = (e.isAnonymousComp || e.children.any containsAnonymousComp) := by
  cases e
  all_goals simp [containsAnonymousComp, isAnonymousComp, children, anyContainsAnonymousComp_eq,
    accessContainsAnonymousComp_eq, Bool.or_assoc]

theorem Expression.containsAnonymousComp_eq_false (e : Expression) :
    e.containsAnonymousComp = false ↔ ∀ x : Expression, x.OccursIn e → x.isAnonymousComp = false :=
  search_eq_false_iff Expression.sizeOf_children containsAnonymousComp_eq e

theorem Statement.anyContainsAnonymousComp_eq (stmts : List Statement) :
    anyContainsAnonymousComp stmts = stmts.any containsAnonymousComp := by
  induction stmts with
  | nil => rfl
  | cons s stmts ih => rw [anyContainsAnonymousComp, ih, List.any_cons]

theorem Statement.containsAnonymousComp_eq (s : Statement) :
    s.containsAnonymousComp =
      (s.expressions.any Expression.containsAnonymousComp ||
        s.children.any containsAnonymousComp) := by
  cases s with
  | ifThenElse info cond ifCase elseCase =>
    cases elseCase
    all_goals simp [containsAnonymousComp, expressions, children, Bool.or_assoc]
  | _ => simp [containsAnonymousComp, expressions, children, anyContainsAnonymousComp_eq]

theorem Statement.containsAnonymousComp_eq_false (s : Statement) :
    s.containsAnonymousComp = false ↔
      ∀ t : Statement, t.OccursIn s → ∀ e ∈ t.expressions, e.containsAnonymousComp = false := by
  rw [search_eq_false_iff Statement.sizeOf_children containsAnonymousComp_eq s]
  refine forall_congr' fun t => forall_congr' fun ht => ?_
  rw [List.any_eq_false]
  simp only [Bool.not_eq_true]

theorem Statement.mem_expressions {s : Statement} {e : Expression} :
    e ∈ s.expressions ↔ e ∈ s.others ∨ s.rhe? = some e := by
  cases s
  all_goals simp [expressions, others, rhe?, eq_comm]

/-! ## Tuples -/

theorem Expression.anyContainsTuple_eq (args : List Expression) :
    anyContainsTuple args = args.any containsTuple := by
  induction args with
  | nil => rfl
  | cons arg args ih => rw [anyContainsTuple, ih, List.any_cons]

theorem Expression.accessContainsTuple_eq (access : List Access) :
    accessContainsTuple access = (access.filterMap Access.index?).any containsTuple := by
  induction access with
  | nil => rfl
  | cons a access ih =>
    cases a with
    | componentAccess name => rw [accessContainsTuple, ih]; rfl
    | arrayAccess index => rw [accessContainsTuple, ih]; rfl

theorem Expression.containsTuple_eq (e : Expression) :
    e.containsTuple = (e.isTuple || e.children.any containsTuple) := by
  cases e
  all_goals simp [containsTuple, isTuple, children, anyContainsTuple_eq, accessContainsTuple_eq,
    Bool.or_assoc]

theorem Expression.containsTuple_eq_false (e : Expression) :
    e.containsTuple = false ↔ ∀ x : Expression, x.OccursIn e → x.isTuple = false :=
  search_eq_false_iff Expression.sizeOf_children containsTuple_eq e

/-! ## Sugar -/

theorem Expression.sugarFree_iff {e : Expression} :
    e.SugarFree ↔ e.containsAnonymousComp = false ∧ e.containsTuple = false := by
  rw [containsAnonymousComp_eq_false, containsTuple_eq_false]
  constructor
  · exact fun h => ⟨fun x hx => (h x hx).1, fun x hx => (h x hx).2⟩
  · exact fun h x hx => ⟨h.1 x hx, h.2 x hx⟩

theorem Statement.containsAnonymousComp_of_sugarFree {s : Statement} (h : s.SugarFree) :
    s.containsAnonymousComp = false := by
  rw [containsAnonymousComp_eq_false]
  exact fun t ht e he => (Expression.sugarFree_iff.mp ((h t ht).2 e he)).1

end Circom.Ast
