import Circom.Ast.Proofs.Occurrences
import Circom.Lib.Outcomes
import Circom.Parser.SyntaxSugarRemover

/-!
# Tuples

A tuple is flattened to the list of its leaves, and the check for tuples is a check of the leaves. After
it the removal leaves neither a tuple nor an assignment of tuples.
-/

namespace Circom.Parser

open Circom.Ast
open Circom.Lib (Occurs bind_eq_ok bind_eq_error forall_occurs_iff forall_occurs_of_hereditary
  bind_ne_error ok_ne_error   forall₂_mem_left forall₂_mem_right)

variable {e : Expression} {values : List Expression} {stmts : List Statement} {info : Meta} {s : Statement}

/-! ## Leaves of an expression -/

mutual

/-- The elements of a tuple, of its elements and so on. -/
def leaves : Expression → List Expression
  | .tuple _ values => leavesOfEach values
  | exp => [exp]

def leavesOfEach : List Expression → List Expression
  | [] => []
  | exp :: exps => leaves exp ++ leavesOfEach exps

end

theorem leavesOfEach_eq (exps : List Expression) : leavesOfEach exps = exps.flatMap leaves := by
  induction exps with
  | nil => rfl
  | cons exp exps ih => rw [leavesOfEach, ih, List.flatMap_cons]

theorem leaves_tuple (info : Meta) (values : List Expression) :
    leaves (.tuple info values) = values.flatMap leaves := by
  rw [leaves, leavesOfEach_eq]

theorem leaves_of_not_tuple (h : e.isTuple = false) : leaves e = [e] := by
  cases e with
  | tuple => cases h
  | _ => rfl

/-- Induction over the tuples of an expression. -/
theorem tuple_induction {motive : Expression → Prop}
    (tuple : ∀ info values, (∀ e ∈ values, motive e) → motive (.tuple info values))
    (other : ∀ e : Expression, e.isTuple = false → motive e) (e : Expression) : motive e := by
  induction e using Expression.children_induction with
  | step e ih =>
    cases e with
    | tuple info values => exact tuple info values ih
    | _ => exact other _ rfl

/-- The flattened expression. -/
def flattened : Expression → Expression
  | .tuple info values => .tuple info (values.flatMap leaves)
  | exp => exp

theorem flattened_of_not_tuple (h : e.isTuple = false) : flattened e = e := by
  cases e with
  | tuple => cases h
  | _ => rfl

theorem unfoldedValues_flattened (e : Expression) : unfoldedValues (flattened e) = leaves e := by
  by_cases h : e.isTuple = true
  · cases e with
    | tuple info values => exact (leaves_tuple info values).symm
    | _ => cases h
  · rw [Bool.not_eq_true] at h
    rw [flattened_of_not_tuple h, leaves_of_not_tuple h]
    cases e with
    | tuple => cases h
    | _ => rfl

/-- No leaf is an anonymous component. -/
def NoneOnTop (e : Expression) : Prop := ∀ l ∈ leaves e, l.isAnonymousComp = false

theorem noneOnTop_tuple : NoneOnTop (.tuple info values) ↔ ∀ e ∈ values, NoneOnTop e := by
  rw [NoneOnTop, leaves_tuple]
  simp only [List.mem_flatMap, forall_exists_index, and_imp]
  exact ⟨fun h e he l hl => h l e he hl, fun h l e he hl => h e he l hl⟩

theorem noneOnTop_of_not_tuple (h : e.isTuple = false) : NoneOnTop e ↔ e.isAnonymousComp = false := by
  rw [NoneOnTop, leaves_of_not_tuple h]
  simp

theorem removeTupleFromExpressions_eq (ih : ∀ e ∈ values, removeTupleFromExpression e = .ok (flattened e)) :
    removeTupleFromExpressions values = .ok (values.flatMap leaves) := by
  induction values with
  | nil => rfl
  | cons e values ihl =>
    rw [removeTupleFromExpressions, ih e List.mem_cons_self,
      ihl fun e he => ih e (List.mem_cons_of_mem _ he), List.flatMap_cons,
      ← unfoldedValues_flattened e]
    rfl

theorem removeTupleFromExpression_eq (e : Expression) :
    NoneOnTop e → removeTupleFromExpression e = .ok (flattened e) := by
  induction e using tuple_induction with
  | tuple info values ih =>
    intro h
    have hall := noneOnTop_tuple.mp h
    rw [removeTupleFromExpression, removeTupleFromExpressions_eq fun e he => ih e he (hall e he)]
    rfl
  | other e h =>
    intro htop
    rw [noneOnTop_of_not_tuple h] at htop
    cases e with
    | tuple => cases h
    | anonymousComp => cases htop
    | _ => rfl

theorem noneOnTop_of_removeTuple (e : Expression) :
    ∀ e', removeTupleFromExpression e = .ok e' → NoneOnTop e := by
  induction e using tuple_induction with
  | tuple info values ih =>
    intro e' h
    obtain ⟨values', hvalues, -⟩ := bind_eq_ok h
    rw [noneOnTop_tuple]
    clear h
    induction values generalizing values' with
    | nil => exact fun _ h => absurd h List.not_mem_nil
    | cons v values ihl =>
      obtain ⟨v', hv, hrest⟩ := bind_eq_ok hvalues
      obtain ⟨rest, hrest, -⟩ := bind_eq_ok hrest
      intro e he
      rcases List.mem_cons.mp he with rfl | he
      · exact ih _ List.mem_cons_self _ hv
      · exact ihl (fun e he => ih e (List.mem_cons_of_mem _ he)) _ hrest e he
  | other e h =>
    intro e' hok
    rw [noneOnTop_of_not_tuple h]
    cases e with
    | anonymousComp => cases hok
    | _ => rfl

theorem removeTupleFromExpression_eq_ok {e' : Expression}
    (h : removeTupleFromExpression e = .ok e') : NoneOnTop e ∧ e' = flattened e := by
  have htop := noneOnTop_of_removeTuple e e' h
  rw [removeTupleFromExpression_eq e htop, Except.ok.injEq] at h
  exact ⟨htop, h.symm⟩

/-! ## The check -/

/-- An expression without tuples. -/
def TupleFree (e : Expression) : Prop := e.containsTuple = false

theorem checkTuplesExpressions_eq_ok (h : checkTuplesExpressions values = .ok ()) :
    ∀ e ∈ values, checkTuplesExpression e = .ok () := by
  induction values with
  | nil => exact fun _ h => absurd h List.not_mem_nil
  | cons v values ih =>
    obtain ⟨⟨⟩, hv, hrest⟩ := bind_eq_ok h
    intro e he
    rcases List.mem_cons.mp he with rfl | he
    · exact hv
    · exact ih hrest e he

theorem ite_error_eq_ok {c : Prop} [Decidable c] {f : Failure}
    (h : (if c then Except.error f else .ok ()) = .ok ()) : ¬ c := by
  intro hc
  rw [if_pos hc] at h
  cases h

/-- The leaves of a checked expression contain no tuples. -/
theorem tupleFree_of_check (e : Expression) :
    checkTuplesExpression e = .ok () → ∀ l ∈ leaves e, TupleFree l := by
  induction e using tuple_induction with
  | tuple info values ih =>
    intro h
    rw [leaves_tuple]
    intro l hl
    obtain ⟨e, he, hl⟩ := List.mem_flatMap.mp hl
    exact ih e he (checkTuplesExpressions_eq_ok h e he) l hl
  | other e h =>
    intro hcheck l hl
    rw [leaves_of_not_tuple h, List.mem_singleton] at hl
    subst hl
    rw [TupleFree, Expression.containsTuple_eq, h, Bool.false_or]
    cases l with
    | number => rfl
    | tuple => cases h
    | anonymousComp => cases hcheck
    | infixOp | prefixOp | inlineSwitchOp | parallelOp | uniformArray =>
      have hnot := ite_error_eq_ok hcheck
      simpa [Expression.children, Bool.or_assoc] using hnot
    | var | call | busCall | arrayInLine =>
      have hnot := ite_error_eq_ok hcheck
      rw [Bool.not_eq_true] at hnot
      exact hnot

theorem checkTuplesExpressions_ne_unreachable (h : ∀ e ∈ values, checkTuplesExpression e ≠ .error .unreachable) :
    checkTuplesExpressions values ≠ .error .unreachable := by
  induction values with
  | nil => exact fun h => by cases h
  | cons v values ih =>
    intro hcheck
    rcases bind_eq_error hcheck with hv | ⟨⟨⟩, -, hrest⟩
    · exact h v List.mem_cons_self hv
    · exact ih (fun e he => h e (List.mem_cons_of_mem _ he)) hrest

theorem ite_report_ne_unreachable {c : Prop} [Decidable c] (info : Meta) (msg : String)
    {rest : Except Failure Unit} (h : rest ≠ .error .unreachable) :
    (if c then .error (tupleGeneralError info msg) else rest) ≠ .error .unreachable := by
  split_ifs
  · intro herror
    exact reportAt_ne_unreachable _ _ _ _ (Except.error.inj herror)
  · exact h

theorem checkTuplesExpression_ne_unreachable (e : Expression) :
    NoneOnTop e → checkTuplesExpression e ≠ .error .unreachable := by
  have hok : (.ok () : Except Failure Unit) ≠ .error .unreachable := fun h => by cases h
  induction e using tuple_induction with
  | tuple info values ih =>
    intro h
    have hall := noneOnTop_tuple.mp h
    exact checkTuplesExpressions_ne_unreachable fun e he => ih e he (hall e he)
  | other e h =>
    intro htop
    rw [noneOnTop_of_not_tuple h] at htop
    cases e with
    | number => exact hok
    | tuple => cases h
    | anonymousComp => cases htop
    | _ => exact ite_report_ne_unreachable _ _ hok

/-! ## Statements before the removal -/

/-- The expressions of a statement, of the tuples the leaves. -/
def statementLeaves : Statement → List Expression
  | .substitution _ _ access _ rhe => access.filterMap Access.index? ++ leaves rhe
  | .multSubstitution _ lhe _ rhe => leaves lhe ++ leaves rhe
  | .logCall _ args => (args.filterMap LogArgument.exp?).flatMap leaves
  | stmt => stmt.expressions

/-- Every leaf of every statement satisfies `P`. -/
def Before (P : Expression → Prop) (s : Statement) : Prop :=
  ∀ t : Statement, t.OccursIn s → ∀ e ∈ statementLeaves t, P e

/-- No tuple is assigned, and every expression satisfies `P`. -/
def After (P : Expression → Prop) (s : Statement) : Prop :=
  ∀ t : Statement, t.OccursIn s → t.isMultSubstitution = false ∧ ∀ e ∈ t.expressions, P e

theorem before_iff {P : Expression → Prop} :
    Before P s ↔ (∀ e ∈ statementLeaves s, P e) ∧ ∀ c ∈ s.children, Before P c :=
  forall_occurs_iff

theorem after_iff {P : Expression → Prop} :
    After P s ↔ (s.isMultSubstitution = false ∧ ∀ e ∈ s.expressions, P e) ∧
      ∀ c ∈ s.children, After P c :=
  forall_occurs_iff

theorem checkTuplesStatements_eq_ok (h : checkTuplesStatements stmts = .ok ()) :
    ∀ s ∈ stmts, checkTuplesStatement s = .ok () := by
  induction stmts with
  | nil => exact fun _ h => absurd h List.not_mem_nil
  | cons v stmts ih =>
    obtain ⟨⟨⟩, hv, hrest⟩ := bind_eq_ok h
    intro s hs
    rcases List.mem_cons.mp hs with rfl | hs
    · exact hv
    · exact ih hrest s hs

theorem ite_error_eq_ok_right {c : Prop} [Decidable c] {f : Failure} {rest : Except Failure Unit}
    (h : (if c then Except.error f else rest) = .ok ()) : ¬ c ∧ rest = .ok () := by
  by_cases hc : c
  · rw [if_pos hc] at h
    cases h
  · rw [if_neg hc] at h
    exact ⟨hc, h⟩

/-- The check of one statement, and of its substatements. -/
theorem checkTuplesStatement_eq_ok (h : checkTuplesStatement s = .ok ()) :
    (∀ e ∈ statementLeaves s, TupleFree e) ∧
      ∀ c ∈ s.children, checkTuplesStatement c = .ok () := by
  have hnil : ∀ c ∈ ([] : List Statement), checkTuplesStatement c = .ok () :=
    fun _ h => absurd h List.not_mem_nil
  cases s with
  | multSubstitution info lhe op rhe =>
    obtain ⟨⟨⟩, hl, hr⟩ := bind_eq_ok h
    refine ⟨?_, hnil⟩
    intro e he
    rcases List.mem_append.mp he with he | he
    · exact tupleFree_of_check lhe hl e he
    · exact tupleFree_of_check rhe hr e he
  | substitution info var access op rhe =>
    obtain ⟨hindex, hr⟩ := ite_error_eq_ok_right h
    rw [Bool.not_eq_true, anyIndex, List.any_eq_false] at hindex
    refine ⟨?_, hnil⟩
    intro e he
    rcases List.mem_append.mp he with he | he
    · exact (Bool.not_eq_true _).mp (hindex e he)
    · exact tupleFree_of_check rhe hr e he
  | logCall info args =>
    refine ⟨?_, hnil⟩
    intro e he
    obtain ⟨arg, harg, he⟩ := List.mem_flatMap.mp he
    exact tupleFree_of_check arg (checkTuplesExpressions_eq_ok h arg harg) e he
  | ifThenElse info cond ifCase elseCase =>
    cases elseCase with
    | none =>
      obtain ⟨hcond, h⟩ := ite_error_eq_ok_right h
      obtain ⟨⟨⟩, hif, -⟩ := bind_eq_ok h
      refine ⟨?_, ?_⟩
      · intro e he
        rw [List.mem_singleton.mp he]
        exact (Bool.not_eq_true _).mp hcond
      · intro c hc
        rw [List.mem_singleton.mp hc]
        exact hif
    | some elseCase =>
      obtain ⟨hcond, h⟩ := ite_error_eq_ok_right h
      obtain ⟨⟨⟩, hif, helse⟩ := bind_eq_ok h
      refine ⟨?_, ?_⟩
      · intro e he
        rw [List.mem_singleton.mp he]
        exact (Bool.not_eq_true _).mp hcond
      · intro c hc
        rcases List.mem_cons.mp hc with rfl | hc
        · exact hif
        · rw [List.mem_singleton.mp hc]
          exact helse
  | whileStmt info cond stmt =>
    obtain ⟨hcond, h⟩ := ite_error_eq_ok_right h
    refine ⟨?_, ?_⟩
    · intro e he
      rw [List.mem_singleton.mp he]
      exact (Bool.not_eq_true _).mp hcond
    · intro c hc
      rw [List.mem_singleton.mp hc]
      exact h
  | initializationBlock info xtype initializations =>
    exact ⟨fun _ h => absurd h List.not_mem_nil, checkTuplesStatements_eq_ok h⟩
  | block info stmts =>
    exact ⟨fun _ h => absurd h List.not_mem_nil, checkTuplesStatements_eq_ok h⟩
  | underscoreSubstitution => cases h
  | returnStmt | assert =>
    have hnot := ite_error_eq_ok h
    refine ⟨?_, hnil⟩
    intro e he
    rw [List.mem_singleton.mp he]
    exact (Bool.not_eq_true _).mp hnot
  | declaration info xtype name dimensions isConstant isAnonymous =>
    have hnot := ite_error_eq_ok h
    rw [Bool.not_eq_true, List.any_eq_false] at hnot
    exact ⟨fun e he => (Bool.not_eq_true _).mp (hnot e he), hnil⟩
  | constraintEquality info lhe rhe =>
    have hnot := ite_error_eq_ok h
    rw [Bool.not_eq_true, Bool.or_eq_false_iff] at hnot
    refine ⟨?_, hnil⟩
    intro e he
    rcases List.mem_cons.mp he with rfl | he
    · exact hnot.1
    · rw [List.mem_singleton.mp he]
      exact hnot.2

theorem before_of_check (h : checkTuplesStatement s = .ok ()) : Before TupleFree s :=
  fun _ ht => forall_occurs_of_hereditary (fun _ => checkTuplesStatement_eq_ok) h ht

/-! ## Removal -/

theorem logStr_of_mem_splitString {chunk : List Char} {size : ℕ} {cur : List Char}
    {args : List LogArgument} (h : splitString chunk size cur = .ok args) :
    args.filterMap LogArgument.exp? = [] := by
  induction cur generalizing chunk size args with
  | nil =>
    cases h
    split_ifs
    · rfl
    · rfl
  | cons c cur ih =>
    rw [splitString] at h
    split_ifs at h
    · exact ih h
    · obtain ⟨rest, hrest, h⟩ := bind_eq_ok h
      cases h
      have hnil := ih hrest
      exact hnil

theorem buildLogArguments_exps {args args' : List LogArgument}
    (h : buildLogArguments args = .ok args') :
    args'.filterMap LogArgument.exp? = args.filterMap LogArgument.exp? := by
  induction args generalizing args' with
  | nil =>
    cases h
    rfl
  | cons arg args ih =>
    cases arg with
    | logExp exp =>
      obtain ⟨rest, hrest, h⟩ := bind_eq_ok h
      cases h
      simp only [List.filterMap_cons, LogArgument.exp?, ih hrest]
    | logStr string =>
      obtain ⟨strings, hstrings, h⟩ := bind_eq_ok h
      obtain ⟨rest, hrest, h⟩ := bind_eq_ok h
      cases h
      rw [List.filterMap_append, logStr_of_mem_splitString hstrings, ih hrest]
      rfl

theorem separateTuplesForLogcall_eq (vals : List Expression) :
    separateTuplesForLogcall vals = vals.flatMap separateTupleForLogcall := by
  induction vals with
  | nil => rfl
  | cons val vals ih => rw [separateTuplesForLogcall, ih, List.flatMap_cons]

theorem separateTupleForLogcall_exps (e : Expression) :
    (separateTupleForLogcall e).filterMap LogArgument.exp? = leaves e := by
  induction e using tuple_induction with
  | tuple info values ih =>
    have hall : ∀ vals : List Expression, (∀ e ∈ vals, e ∈ values) →
        (vals.flatMap separateTupleForLogcall).filterMap LogArgument.exp? = vals.flatMap leaves := by
      intro vals
      induction vals with
      | nil => exact fun _ => rfl
      | cons val vals ihl =>
        intro hsub
        rw [List.flatMap_cons, List.flatMap_cons, List.filterMap_append,
          ih val (hsub val List.mem_cons_self), ihl fun e he => hsub e (List.mem_cons_of_mem _ he)]
    rw [separateTupleForLogcall, separateTuplesForLogcall_eq, leaves_tuple, List.cons_append,
      List.filterMap_cons, List.filterMap_append, hall values fun _ h => h]
    exact List.append_nil _
  | other e h =>
    rw [leaves_of_not_tuple h]
    cases e with
    | tuple => cases h
    | _ => rfl

/-- The arguments of a log call are the leaves of the old ones. -/
theorem logArguments_exps (args : List LogArgument) :
    (args.flatMap newLogArguments).filterMap LogArgument.exp? =
      (args.filterMap LogArgument.exp?).flatMap leaves := by
  induction args with
  | nil => rfl
  | cons arg args ih =>
    rw [List.flatMap_cons, List.filterMap_append, ih]
    cases arg with
    | logStr string => rfl
    | logExp exp =>
      show _ = leaves exp ++ (args.filterMap LogArgument.exp?).flatMap leaves
      rw [← separateTupleForLogcall_exps exp]
      rfl

/-- Element by element: each assignment has an element of the right tuple on its right side, and each
element of the right tuple is assigned. -/
theorem elementSubstitutions_eq_ok {op : AssignOp} {values1 values2 : List Expression} {substs : List Statement}
    (h : elementSubstitutions info op values1 values2 = .ok substs) (hlength : values1.length = values2.length) :
    (∀ t ∈ substs, t.isMultSubstitution = false ∧ t.children = [] ∧
      ∀ e ∈ t.expressions, e ∈ values2 ∨ ∃ info' name access, .var info' name access ∈ values1 ∧
        e ∈ access.filterMap Access.index?) ∧
      ∀ e ∈ values2, ∃ t ∈ substs, t.rhe? = some e := by
  induction values1 generalizing values2 substs with
  | nil =>
    cases values2 with
    | nil =>
      cases h
      exact ⟨fun _ h => absurd h List.not_mem_nil, fun _ h => absurd h List.not_mem_nil⟩
    | cons => cases hlength
  | cons lhe values1 ih =>
    cases values2 with
    | nil => cases hlength
    | cons rhe values2 =>
      cases lhe with
      | var info' name access =>
        obtain ⟨rest, hrest, h⟩ := bind_eq_ok h
        cases h
        obtain ⟨hall, hassigned⟩ := ih hrest (Nat.succ.inj hlength)
        refine ⟨?_, ?_⟩
        · intro t ht
          rcases List.mem_cons.mp ht with rfl | ht
          · split_ifs
            · refine ⟨rfl, rfl, ?_⟩
              intro e he
              rcases List.mem_append.mp he with he | he
              · exact Or.inr ⟨info', name, access, List.mem_cons_self, he⟩
              · rw [List.mem_singleton.mp he]
                exact Or.inl List.mem_cons_self
            · refine ⟨rfl, rfl, ?_⟩
              intro e he
              rw [List.mem_singleton.mp he]
              exact Or.inl List.mem_cons_self
          · obtain ⟨hmult, hchildren, hexps⟩ := hall t ht
            refine ⟨hmult, hchildren, ?_⟩
            intro e he
            rcases hexps e he with he | ⟨info', name, access, hvar, he⟩
            · exact Or.inl (List.mem_cons_of_mem _ he)
            · exact Or.inr ⟨info', name, access, List.mem_cons_of_mem _ hvar, he⟩
        · intro e he
          rcases List.mem_cons.mp he with rfl | he
          · refine ⟨_, List.mem_cons_self, ?_⟩
            split_ifs
            · rfl
            · rfl
          · obtain ⟨t, ht, hrhe⟩ := hassigned e he
            exact ⟨t, List.mem_cons_of_mem _ ht, hrhe⟩
      | _ => cases h

theorem removeMultSubstitution_eq_ok {op : AssignOp} {lhe rhe : Expression} {s' : Statement}
    (h : removeMultSubstitution info op (flattened lhe) (flattened rhe) = .ok s') :
    ∃ substs, s' = .block info substs ∧
      elementSubstitutions info op (leaves lhe) (leaves rhe) = .ok substs ∧
      (leaves lhe).length = (leaves rhe).length := by
  unfold removeMultSubstitution at h
  split at h
  · rename_i hl hr
    have hleft := unfoldedValues_flattened lhe
    have hright := unfoldedValues_flattened rhe
    rw [hl] at hleft
    rw [hr] at hright
    split_ifs at h with hlength
    · obtain ⟨substs, hsubsts, h⟩ := bind_eq_ok h
      cases h
      rw [← hleft, ← hright]
      exact ⟨substs, rfl, hsubsts, hlength⟩
  · split_ifs at h

theorem removeTuplesFromStatements_eq_ok {stmts' : List Statement} (h : removeTuplesFromStatements stmts = .ok stmts') :
    List.Forall₂ (fun s s' => removeTuplesFromStatement s = .ok s') stmts stmts' := by
  induction stmts generalizing stmts' with
  | nil =>
    cases h
    exact .nil
  | cons s stmts ih =>
    obtain ⟨s', hs, h⟩ := bind_eq_ok h
    obtain ⟨rest, hrest, h⟩ := bind_eq_ok h
    cases h
    exact .cons hs (ih hrest)

/-- A statement that keeps its kind: its expressions are leaves of the old ones, its right side is the old
one, and its substatements come from the old ones. -/
structure Kept (s s' : Statement) : Prop where
  not_mult : s.isMultSubstitution = false
  not_mult' : s'.isMultSubstitution = false
  not_underscore : s.isUnderscoreSubstitution = false
  expressions : ∀ e ∈ s'.expressions, e ∈ statementLeaves s
  rhe : ∀ e, s.rhe? = some e → leaves e = [e] ∧ s'.rhe? = some e
  children : List.Forall₂ (fun c c' => removeTuplesFromStatement c = .ok c') s.children s'.children

/-- An assignment of a tuple becomes a block of assignments, every other statement keeps its kind. -/
theorem removeTuplesFromStatement_eq_ok {s' : Statement} (h : removeTuplesFromStatement s = .ok s') :
    Kept s s' ∨ ∃ info lhe op rhe substs, s = .multSubstitution info lhe op rhe ∧
      s' = .block info substs ∧
      elementSubstitutions info op (leaves lhe) (leaves rhe) = .ok substs ∧
      (leaves lhe).length = (leaves rhe).length := by
  have hnone : ∀ (t : Statement) (P : Expression → Prop), t.rhe? = none →
      ∀ e, t.rhe? = some e → P e := by
    intro t P ht e he
    rw [ht] at he
    cases he
  cases s with
  | multSubstitution info lhe op rhe =>
    obtain ⟨lhe', hl, h⟩ := bind_eq_ok h
    obtain ⟨rhe', hr, h⟩ := bind_eq_ok h
    rw [(removeTupleFromExpression_eq_ok hl).2, (removeTupleFromExpression_eq_ok hr).2] at h
    obtain ⟨substs, rfl, hsubsts, hlength⟩ := removeMultSubstitution_eq_ok h
    exact Or.inr ⟨info, lhe, op, rhe, substs, rfl, rfl, hsubsts, hlength⟩
  | substitution info var access op rhe =>
    left
    obtain ⟨rhe', hr, h⟩ := bind_eq_ok h
    obtain ⟨-, rfl⟩ := removeTupleFromExpression_eq_ok hr
    cases htuple : rhe.isTuple with
    | true =>
      cases rhe with
      | tuple => cases h
      | _ => cases htuple
    | false =>
      rw [flattened_of_not_tuple htuple] at h
      have hleaves := leaves_of_not_tuple htuple
      have hrhe : ∀ s'' : Statement, s''.rhe? = some rhe →
          ∀ e, some rhe = some e → leaves e = [e] ∧ s''.rhe? = some e := by
        intro s'' hs'' e he
        cases he
        exact ⟨hleaves, hs''⟩
      rw [if_neg (by rw [htuple]; exact Bool.false_ne_true)] at h
      split_ifs at h
      · cases h
        refine ⟨rfl, rfl, rfl, ?_, hrhe _ rfl, .nil⟩
        intro e he
        rw [statementLeaves, hleaves]
        exact he
      · cases h
        refine ⟨rfl, rfl, rfl, ?_, hrhe _ rfl, .nil⟩
        intro e he
        rw [statementLeaves, hleaves]
        exact List.mem_append_right _ he
  | logCall info args =>
    left
    obtain ⟨args', hargs, h⟩ := bind_eq_ok h
    cases h
    refine ⟨rfl, rfl, rfl, ?_, hnone _ _ rfl, .nil⟩
    intro e he
    rw [Statement.expressions, buildLogArguments_exps hargs, logArguments_exps] at he
    exact he
  | ifThenElse info cond ifCase elseCase =>
    left
    cases elseCase with
    | none =>
      obtain ⟨ifOk, hif, h⟩ := bind_eq_ok h
      cases h
      exact ⟨rfl, rfl, rfl, fun e he => he, hnone _ _ rfl, .cons hif .nil⟩
    | some elseCase =>
      obtain ⟨ifOk, hif, h⟩ := bind_eq_ok h
      obtain ⟨elseOk, helse, h⟩ := bind_eq_ok h
      cases h
      exact ⟨rfl, rfl, rfl, fun e he => he, hnone _ _ rfl, .cons hif (.cons helse .nil)⟩
  | whileStmt info cond stmt =>
    left
    obtain ⟨whileOk, hwhile, h⟩ := bind_eq_ok h
    cases h
    exact ⟨rfl, rfl, rfl, fun e he => he, hnone _ _ rfl, .cons hwhile .nil⟩
  | initializationBlock info xtype initializations =>
    left
    obtain ⟨newInits, hinits, h⟩ := bind_eq_ok h
    cases h
    exact ⟨rfl, rfl, rfl, fun e he => he, hnone _ _ rfl, removeTuplesFromStatements_eq_ok hinits⟩
  | block info stmts =>
    left
    obtain ⟨newStmts, hstmts, h⟩ := bind_eq_ok h
    cases h
    exact ⟨rfl, rfl, rfl, fun e he => he, hnone _ _ rfl, removeTuplesFromStatements_eq_ok hstmts⟩
  | underscoreSubstitution => cases h
  | returnStmt | declaration | constraintEquality | assert =>
    left
    cases h
    exact ⟨rfl, rfl, rfl, fun e he => he, hnone _ _ rfl, .nil⟩

/-- What holds of the leaves before holds of the expressions afterwards. -/
theorem removeTuples_after {P : Expression → Prop}
    (hvar : ∀ info name access, P (.var info name access) →
      ∀ e ∈ List.filterMap Access.index? access, P e) (s : Statement) :
    ∀ s', Before P s → removeTuplesFromStatement s = .ok s' → After P s' := by
  induction s using Statement.children_induction with
  | step s ih =>
    intro s' hs h
    obtain ⟨hleaves, hchildren⟩ := before_iff.mp hs
    rcases removeTuplesFromStatement_eq_ok h with hkept |
      ⟨info, lhe, op, rhe, substs, rfl, rfl, hsubsts, hlength⟩
    · refine after_iff.mpr ⟨⟨hkept.not_mult', fun e he => hleaves e (hkept.expressions e he)⟩, ?_⟩
      intro c' hc'
      obtain ⟨c, hc, hremove⟩ := forall₂_mem_right hkept.children hc'
      exact ih c hc c' (hchildren c hc) hremove
    · obtain ⟨hall, -⟩ := elementSubstitutions_eq_ok hsubsts hlength
      refine after_iff.mpr ⟨⟨rfl, fun e he => absurd he List.not_mem_nil⟩, ?_⟩
      intro t ht
      obtain ⟨hmult, hnil, hexps⟩ := hall t ht
      refine after_iff.mpr ⟨⟨hmult, ?_⟩, ?_⟩
      · intro e he
        rcases hexps e he with he | ⟨info', name, access, hmem, he⟩
        · exact hleaves e (List.mem_append_right _ he)
        · exact hvar info' name access (hleaves _ (List.mem_append_left _ hmem)) e he
      · rw [hnil]
        exact fun _ h => absurd h List.not_mem_nil

/-- Every leaf of a right side is a right side afterwards. -/
theorem rhe_of_removeTuples {P : Expression → Prop} (s : Statement) :
    ∀ s', removeTuplesFromStatement s = .ok s' →
      (∀ t : Statement, t.OccursIn s' → ∀ e, t.rhe? = some e → P e) →
      ∀ t : Statement, t.OccursIn s →
        t.isUnderscoreSubstitution = false ∧ ∀ e, t.rhe? = some e → ∀ l ∈ leaves e, P l := by
  induction s using Statement.children_induction with
  | step s ih =>
    intro s' h hs'
    rw [forall_occurs_iff]
    rcases removeTuplesFromStatement_eq_ok h with hkept |
      ⟨info, lhe, op, rhe, substs, rfl, rfl, hsubsts, hlength⟩
    · refine ⟨⟨hkept.not_underscore, ?_⟩, ?_⟩
      · intro e he
        obtain ⟨hleaves, hrhe⟩ := hkept.rhe e he
        rw [hleaves]
        intro l hl
        rw [List.mem_singleton.mp hl]
        exact hs' s' (Occurs.refl s') e hrhe
      · intro c hc
        obtain ⟨c', hc', hremove⟩ := forall₂_mem_left hkept.children hc
        exact ih c hc c' hremove fun t ht => hs' t (ht.of_mem hc')
    · obtain ⟨-, hassigned⟩ := elementSubstitutions_eq_ok hsubsts hlength
      refine ⟨⟨rfl, ?_⟩, fun c hc => absurd hc List.not_mem_nil⟩
      intro e he l hl
      cases he
      obtain ⟨t, ht, hrhe⟩ := hassigned l hl
      exact hs' t ((Occurs.refl t).of_mem ht) l hrhe

/-! ## No unreachable code -/

/-- What the removal of tuples expects: no anonymous component among the leaves, and no assignment to `_`
that was made before. -/
def Ready (s : Statement) : Prop :=
  ∀ t : Statement, t.OccursIn s →
    t.isUnderscoreSubstitution = false ∧ ∀ e ∈ statementLeaves t, e.isAnonymousComp = false

theorem ready_iff :
    Ready s ↔ (s.isUnderscoreSubstitution = false ∧
      ∀ e ∈ statementLeaves s, e.isAnonymousComp = false) ∧ ∀ c ∈ s.children, Ready c :=
  forall_occurs_iff

theorem tupleGeneralError_ne_unreachable {α : Type} (info : Meta) (msg : String) :
    (.error (tupleGeneralError info msg) : Except Failure α) ≠ .error .unreachable :=
  fun h => reportAt_ne_unreachable _ _ _ _ (Except.error.inj h)

theorem checkTuplesStatements_ne_unreachable (h : ∀ s ∈ stmts, checkTuplesStatement s ≠ .error .unreachable) :
    checkTuplesStatements stmts ≠ .error .unreachable := by
  induction stmts with
  | nil => exact ok_ne_error
  | cons s stmts ih =>
    exact bind_ne_error (h s List.mem_cons_self)
      fun _ _ => ih fun s hs => h s (List.mem_cons_of_mem _ hs)

theorem checkTuplesStatement_ne_unreachable (s : Statement) :
    Ready s → checkTuplesStatement s ≠ .error .unreachable := by
  have hok : (.ok () : Except Failure Unit) ≠ .error .unreachable := ok_ne_error
  induction s using Statement.children_induction with
  | step s ih =>
    intro hs
    obtain ⟨⟨hunder, hleaves⟩, hchildren⟩ := ready_iff.mp hs
    have hih : ∀ c ∈ s.children, checkTuplesStatement c ≠ .error .unreachable :=
      fun c hc => ih c hc (hchildren c hc)
    cases s with
    | multSubstitution info lhe op rhe =>
      refine bind_ne_error ?_ fun _ _ => ?_
      · exact checkTuplesExpression_ne_unreachable lhe
          fun l hl => hleaves l (List.mem_append_left _ hl)
      · exact checkTuplesExpression_ne_unreachable rhe
          fun l hl => hleaves l (List.mem_append_right _ hl)
    | substitution info var access op rhe =>
      exact ite_report_ne_unreachable _ _ (checkTuplesExpression_ne_unreachable rhe
        fun l hl => hleaves l (List.mem_append_right _ hl))
    | logCall info args =>
      apply checkTuplesExpressions_ne_unreachable
      intro e he
      exact checkTuplesExpression_ne_unreachable e
        fun l hl => hleaves l (List.mem_flatMap.mpr ⟨e, he, hl⟩)
    | ifThenElse info cond ifCase elseCase =>
      cases elseCase with
      | none =>
        exact ite_report_ne_unreachable _ _
          (bind_ne_error (hih ifCase List.mem_cons_self) fun _ _ => hok)
      | some elseCase =>
        exact ite_report_ne_unreachable _ _
          (bind_ne_error (hih ifCase List.mem_cons_self)
            fun _ _ => hih elseCase (by simp [Statement.children]))
    | whileStmt info cond stmt =>
      exact ite_report_ne_unreachable _ _ (hih stmt List.mem_cons_self)
    | initializationBlock info xtype initializations =>
      exact checkTuplesStatements_ne_unreachable hih
    | block info stmts => exact checkTuplesStatements_ne_unreachable hih
    | underscoreSubstitution => cases hunder
    | returnStmt | declaration | constraintEquality | assert =>
      exact ite_report_ne_unreachable _ _ hok

theorem splitString_ne_unreachable (chunk : List Char) (size : ℕ) (cur : List Char) :
    splitString chunk size cur ≠ .error .unreachable := by
  induction cur generalizing chunk size with
  | nil => exact ok_ne_error
  | cons c cur ih =>
    rw [splitString]
    split_ifs
    · exact ih _ _
    · exact bind_ne_error (ih _ _) fun _ _ => ok_ne_error
    · exact fun h => by cases h

theorem buildLogArguments_ne_unreachable (args : List LogArgument) :
    buildLogArguments args ≠ .error .unreachable := by
  induction args with
  | nil => exact ok_ne_error
  | cons arg args ih =>
    cases arg with
    | logExp exp => exact bind_ne_error ih fun _ _ => ok_ne_error
    | logStr string =>
      exact bind_ne_error (splitString_ne_unreachable _ _ _)
        fun _ _ => bind_ne_error ih fun _ _ => ok_ne_error

theorem elementSubstitutions_ne_unreachable (info : Meta) (op : AssignOp)
    (values1 values2 : List Expression) :
    elementSubstitutions info op values1 values2 ≠ .error .unreachable := by
  induction values1 generalizing values2 with
  | nil => exact ok_ne_error
  | cons lhe values1 ih =>
    cases values2 with
    | nil => exact ok_ne_error
    | cons rhe values2 =>
      cases lhe with
      | var => exact bind_ne_error (ih values2) fun _ _ => ok_ne_error
      | _ => exact tupleGeneralError_ne_unreachable _ _

theorem removeMultSubstitution_ne_unreachable (info : Meta) (op : AssignOp)
    (lhe rhe : Expression) : removeMultSubstitution info op lhe rhe ≠ .error .unreachable := by
  unfold removeMultSubstitution
  split
  · split_ifs
    · exact bind_ne_error (elementSubstitutions_ne_unreachable _ _ _ _) fun _ _ => ok_ne_error
    · exact tupleGeneralError_ne_unreachable _ _
    · exact tupleGeneralError_ne_unreachable _ _
  · split_ifs
    · exact tupleGeneralError_ne_unreachable _ _
    · exact tupleGeneralError_ne_unreachable _ _

theorem removeTuplesFromStatements_ne_unreachable (h : ∀ s ∈ stmts, removeTuplesFromStatement s ≠ .error .unreachable) :
    removeTuplesFromStatements stmts ≠ .error .unreachable := by
  induction stmts with
  | nil => exact ok_ne_error
  | cons s stmts ih =>
    exact bind_ne_error (h s List.mem_cons_self)
      fun _ _ => bind_ne_error (ih fun s hs => h s (List.mem_cons_of_mem _ hs))
        fun _ _ => ok_ne_error

theorem removeTuplesFromStatement_ne_unreachable (s : Statement) :
    Ready s → removeTuplesFromStatement s ≠ .error .unreachable := by
  have hremove : ∀ e, NoneOnTop e → removeTupleFromExpression e ≠ .error .unreachable := by
    intro e he
    rw [removeTupleFromExpression_eq e he]
    exact ok_ne_error
  induction s using Statement.children_induction with
  | step s ih =>
    intro hs
    obtain ⟨⟨hunder, hleaves⟩, hchildren⟩ := ready_iff.mp hs
    have hih : ∀ c ∈ s.children, removeTuplesFromStatement c ≠ .error .unreachable :=
      fun c hc => ih c hc (hchildren c hc)
    cases s with
    | multSubstitution info lhe op rhe =>
      refine bind_ne_error ?_ fun _ _ => bind_ne_error ?_ fun _ _ => ?_
      · exact hremove lhe fun l hl => hleaves l (List.mem_append_left _ hl)
      · exact hremove rhe fun l hl => hleaves l (List.mem_append_right _ hl)
      · exact removeMultSubstitution_ne_unreachable _ _ _ _
    | substitution info var access op rhe =>
      refine bind_ne_error ?_ fun _ _ => ?_
      · exact hremove rhe fun l hl => hleaves l (List.mem_append_right _ hl)
      · split_ifs
        · exact tupleGeneralError_ne_unreachable _ _
        · exact ok_ne_error
        · exact ok_ne_error
    | logCall info args =>
      exact bind_ne_error (buildLogArguments_ne_unreachable _) fun _ _ => ok_ne_error
    | ifThenElse info cond ifCase elseCase =>
      cases elseCase with
      | none => exact bind_ne_error (hih ifCase List.mem_cons_self) fun _ _ => ok_ne_error
      | some elseCase =>
        exact bind_ne_error (hih ifCase List.mem_cons_self) fun _ _ =>
          bind_ne_error (hih elseCase (by simp [Statement.children])) fun _ _ => ok_ne_error
    | whileStmt info cond stmt =>
      exact bind_ne_error (hih stmt List.mem_cons_self) fun _ _ => ok_ne_error
    | initializationBlock info xtype initializations =>
      exact bind_ne_error (removeTuplesFromStatements_ne_unreachable hih) fun _ _ => ok_ne_error
    | block info stmts =>
      exact bind_ne_error (removeTuplesFromStatements_ne_unreachable hih) fun _ _ => ok_ne_error
    | underscoreSubstitution => cases hunder
    | returnStmt | declaration | constraintEquality | assert => exact ok_ne_error

end Circom.Parser
