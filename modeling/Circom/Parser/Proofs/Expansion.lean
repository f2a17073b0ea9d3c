import Circom.Parser.Proofs.AnonymousComponents

/-!
# Expansion of a body

Which bodies are free of anonymous components after the expansion. The check looks at every expression
except those below `parallel`, so this depends on the right sides of the assignments.
-/

namespace Circom.Parser

open Circom.Ast
open Circom.Lib (Occurs bind_eq_ok bind_eq_error occurs_iff forall_occurs_iff)

variable {templates : List (String × TemplateData)} {fileLib : FileLibrary}
variable {stmts : List Statement} {result : List Statement × List Statement × List Statement × List Statement}
variable {info : Meta} {varAccess : Option Expression}

/-! ## Statements -/

theorem removeAnonymousFromStatements_eq_ok
    (h : removeAnonymousFromStatements templates fileLib varAccess stmts = .ok result) :
    ∃ entries : List (Statement × UpdatedStatement), entries.map Prod.fst = stmts ∧
      (∀ entry ∈ entries,
        removeAnonymousFromStatement templates fileLib varAccess entry.1 = .ok entry.2) ∧
      result = (entries.map fun entry => entry.2.body,
        entries.flatMap fun entry => entry.2.initComponents,
        entries.flatMap fun entry => entry.2.initVariables,
        entries.flatMap fun entry => entry.2.substitutions) := by
  induction stmts generalizing result with
  | nil =>
    cases h
    exact ⟨[], rfl, fun _ h => (List.not_mem_nil h).elim, rfl⟩
  | cons stmt stmts ih =>
    obtain ⟨u, hu, h⟩ := bind_eq_ok h
    obtain ⟨rest, hrest, h⟩ := bind_eq_ok h
    cases h
    obtain ⟨entries, hfst, hexpand, rfl⟩ := ih hrest
    refine ⟨(stmt, u) :: entries, ?_, ?_, rfl⟩
    · rw [List.map_cons, hfst]
    · intro entry hentry
      rcases List.mem_cons.mp hentry with rfl | hentry
      · exact hu
      · exact hexpand entry hentry

section Holds

variable {T R H : Expression → Prop}

theorem withSubstitutions_holds {rhe : UpdatedExpression} {subs : Expression → Statement} (hrhe : rhe.Holds T R)
    (hsubs : Holds T R (subs rhe.expression)) : (withSubstitutions info rhe subs).Holds T R := by
  have hnil : ∀ s ∈ ([] : List Statement), Holds T R s := fun _ h => absurd h List.not_mem_nil
  rw [withSubstitutions]
  split_ifs
  · exact ⟨hsubs, hrhe.1, hnil, hnil⟩
  · refine ⟨holds_block.mpr ?_, hrhe.1, hnil, hnil⟩
    intro s hs
    rcases List.mem_append.mp hs with hs | hs
    · exact hrhe.2.1 s hs
    · rw [List.mem_singleton.mp hs]
      exact hsubs

theorem statements_holds
    (ih : ∀ s ∈ stmts, ∀ u, removeAnonymousFromStatement templates fileLib varAccess s = .ok u → u.Holds T R)
    (h : removeAnonymousFromStatements templates fileLib varAccess stmts = .ok result) :
    (∀ s ∈ result.1, Holds T R s) ∧ (∀ s ∈ result.2.1, Holds T R s) ∧
      (∀ s ∈ result.2.2.1, Holds T R s) ∧ ∀ s ∈ result.2.2.2, Holds T R s := by
  obtain ⟨entries, hfst, hexpand, rfl⟩ := removeAnonymousFromStatements_eq_ok h
  have hentries : ∀ entry ∈ entries, entry.2.Holds T R := by
    intro entry hentry
    have hmem : entry.1 ∈ stmts := by
      rw [← hfst]
      exact List.mem_map_of_mem hentry
    exact ih _ hmem _ (hexpand entry hentry)
  refine ⟨?_, ?_, ?_, ?_⟩
  · intro s hs
    obtain ⟨entry, hentry, rfl⟩ := List.mem_map.mp hs
    exact (hentries entry hentry).1
  · intro s hs
    obtain ⟨entry, hentry, hs⟩ := List.mem_flatMap.mp hs
    exact (hentries entry hentry).2.1 s hs
  · intro s hs
    obtain ⟨entry, hentry, hs⟩ := List.mem_flatMap.mp hs
    exact (hentries entry hentry).2.2.1 s hs
  · intro s hs
    obtain ⟨entry, hentry, hs⟩ := List.mem_flatMap.mp hs
    exact (hentries entry hentry).2.2.2 s hs

theorem holds_append {l l' : List Statement} (h : ∀ s ∈ l, Holds T R s)
    (h' : ∀ s ∈ l', Holds T R s) : ∀ s ∈ l ++ l', Holds T R s := by
  intro s hs
  rcases List.mem_append.mp hs with hs | hs
  · exact h s hs
  · exact h' s hs

theorem holds_cons {a : Statement} {l : List Statement} (h : Holds T R a)
    (h' : ∀ s ∈ l, Holds T R s) : ∀ s ∈ a :: l, Holds T R s := by
  intro s hs
  rcases List.mem_cons.mp hs with rfl | hs
  · exact h
  · exact h' s hs

theorem holds_singleton {a : Statement} (h : Holds T R a) : ∀ s ∈ [a], Holds T R s :=
  holds_cons h fun _ h => absurd h List.not_mem_nil

/-- What a rule gives for the expansion of expressions it gives for the expansion of statements. -/
theorem removeAnonymousFromStatement_holds
    (hrule : ∀ varAccess, (∀ v ∈ varAccess, T v) → ExpansionRule templates varAccess H T R)
    (hcounter : ∀ info name, T (.var info name []) ∧ R (.number info 0) ∧
      R (.infixOp info (.var info name []) .add (.number info 1))) (s : Statement) :
    ∀ varAccess u, (∀ v ∈ varAccess, T v) → Holds T H s →
      removeAnonymousFromStatement templates fileLib varAccess s = .ok u → u.Holds T R := by
  have hnil : ∀ s ∈ ([] : List Statement), Holds T R s := fun _ h => absurd h List.not_mem_nil
  induction s using Statement.children_induction with
  | step s ih =>
    intro varAccess u hvar hs h
    cases s with
    | multSubstitution info lhe op rhe =>
      obtain ⟨hl, hr⟩ := holds_multSubstitution.mp hs
      obtain ⟨r, hexp, h⟩ := bind_eq_ok h
      cases h
      have hall := (hrule varAccess hvar).expression rhe r hr hexp
      exact withSubstitutions_holds hall (holds_multSubstitution.mpr ⟨hl, hall.2.2⟩)
    | substitution info var access op rhe =>
      obtain ⟨hl, hr⟩ := holds_substitution.mp hs
      obtain ⟨r, hexp, h⟩ := bind_eq_ok h
      cases h
      have hall := (hrule varAccess hvar).expression rhe r hr hexp
      exact withSubstitutions_holds hall (holds_substitution.mpr ⟨hl, hall.2.2⟩)
    | ifThenElse info cond ifCase elseCase =>
      obtain ⟨hcond, hif, helse⟩ := holds_ifThenElse.mp hs
      rw [removeAnonymousFromStatement] at h
      obtain ⟨ifBody, hifBody, h⟩ := bind_eq_ok h
      have hifAll := ih ifCase List.mem_cons_self varAccess ifBody hvar hif hifBody
      cases elseCase with
      | none =>
        cases h
        refine ⟨holds_ifThenElse.mpr ⟨hcond, hifAll.1, ?_⟩, hifAll.2⟩
        exact fun s hs => by cases hs
      | some elseCase =>
        obtain ⟨elseBody, helseBody, h⟩ := bind_eq_ok h
        cases h
        have helseAll := ih elseCase (by simp [Statement.children]) varAccess elseBody hvar
          (helse elseCase rfl) helseBody
        refine ⟨holds_ifThenElse.mpr ⟨hcond, hifAll.1, ?_⟩, holds_append hifAll.2.1 helseAll.2.1,
          holds_append hifAll.2.2.1 helseAll.2.2.1, holds_append hifAll.2.2.2 helseAll.2.2.2⟩
        intro s hs
        cases hs
        exact helseAll.1
    | whileStmt info cond stmt =>
      obtain ⟨hcond, hstmt⟩ := holds_whileStmt.mp hs
      obtain ⟨name, -, h⟩ := bind_eq_ok h
      obtain ⟨body, hbody, h⟩ := bind_eq_ok h
      obtain ⟨hname, hzero, hnext⟩ := hcounter info name
      have hvar' : ∀ v ∈ some (Expression.var info name []), T v := by
        intro v hv
        cases hv
        exact hname
      have hall := ih stmt List.mem_cons_self _ body hvar' hstmt hbody
      have hassign : ∀ rhe, R rhe → Holds T R (.substitution info name [] .assignVar rhe) :=
        fun rhe hr => holds_substitution.mpr ⟨fun _ h => absurd h List.not_mem_nil, hr⟩
      dsimp only at h
      split_ifs at h
      · cases h
        exact ⟨holds_whileStmt.mpr ⟨hcond, hall.1⟩, hall.2.1, hnil, hnil⟩
      · cases h
        refine ⟨holds_whileStmt.mpr ⟨hcond, holds_block.mpr ?_⟩, hall.2.1, ?_, ?_⟩
        · exact holds_cons hall.1 (holds_singleton (hassign _ hnext))
        · exact holds_cons (holds_declaration.mpr fun _ h => absurd h List.not_mem_nil) hall.2.2.1
        · exact holds_append hall.2.2.2 (holds_singleton (hassign _ hzero))
    | initializationBlock info xtype initializations =>
      obtain ⟨result, hresult, h⟩ := bind_eq_ok h
      cases h
      have hstmts := holds_initializationBlock.mp hs
      have hall := statements_holds
        (fun s hs u hu => ih s hs varAccess u hvar (hstmts s hs) hu) hresult
      exact ⟨holds_initializationBlock.mpr hall.1, hall.2⟩
    | block info stmts =>
      obtain ⟨result, hresult, h⟩ := bind_eq_ok h
      cases h
      have hstmts := holds_block.mp hs
      have hall := statements_holds
        (fun s hs u hu => ih s hs varAccess u hvar (hstmts s hs) hu) hresult
      exact ⟨holds_block.mpr hall.1, hall.2⟩
    | underscoreSubstitution => cases h
    | returnStmt | declaration | constraintEquality | logCall | assert =>
      cases h
      refine ⟨holds_iff.mpr ⟨⟨rfl, (holds_iff.mp hs).1.2.1, ?_⟩, ?_⟩, hnil, hnil, hnil⟩
      · exact fun e he => by cases he
      · exact fun c hc => absurd hc List.not_mem_nil

end Holds

/-! ## Expressions that can be expanded completely -/

/-- No anonymous component occurs in it. -/
def Clean (e : Expression) : Prop := e.containsAnonymousComp = false

/-- Anonymous components stand where the expansion finds them: in the values of arrays and tuples, in the
signals that an expanded component uses, and directly below `parallel`; none is in a parameter. -/
inductive Expandable (templates : List (String × TemplateData)) : Expression → Prop
  | clean {e : Expression} (h : Clean e) : Expandable templates e
  | arrayInLine {info : Meta} {values : List Expression}
      (h : ∀ e ∈ values, Expandable templates e) : Expandable templates (.arrayInLine info values)
  | tuple {info : Meta} {values : List Expression}
      (h : ∀ e ∈ values, Expandable templates e) : Expandable templates (.tuple info values)
  | anonymousComp {info : Meta} {id : String} {isParallel : Bool} {params signals : List Expression}
      {names : Option (List (AssignOp × String))} (hparams : ∀ e ∈ params, Clean e)
      (hsignals : ∀ e ∈ usedSignals templates info id names signals, Expandable templates e) :
      Expandable templates (.anonymousComp info id isParallel params signals names)
  | parallelOp {info : Meta} {rhe : Expression} (hrhe : rhe.isAnonymousComp = true)
      (h : Expandable templates rhe) : Expandable templates (.parallelOp info rhe)

theorem clean_iff {e : Expression} :
    Clean e ↔ e.isAnonymousComp = false ∧ ∀ c ∈ e.children, Clean c := by
  rw [Clean, Expression.containsAnonymousComp_eq, Bool.or_eq_false_iff, List.any_eq_false]
  simp only [Bool.not_eq_true, Clean]

theorem clean_call {id : String} {params : List Expression} : Clean (.call info id params) ↔ ∀ e ∈ params, Clean e := by
  rw [clean_iff]
  exact and_iff_right rfl

theorem clean_parallelOp {rhe : Expression} : Clean (.parallelOp info rhe) ↔ Clean rhe := by
  rw [clean_iff]
  simp [Expression.isAnonymousComp, Expression.children]

theorem not_clean_anonymousComp {rhe : Expression} (h : rhe.isAnonymousComp = true) : ¬ Clean rhe := by
  intro hclean
  rw [(clean_iff.mp hclean).1] at h
  cases h

theorem clean_var {name : String} {access : List Access} :
    Clean (.var info name access) ↔ ∀ e ∈ access.filterMap Access.index?, Clean e := by
  rw [clean_iff]
  exact and_iff_right rfl

theorem expandable_rule (varAccess : Option Expression) (h : ∀ v ∈ varAccess, Clean v) :
    ExpansionRule templates varAccess (Expandable templates) Clean Clean where
  access := h
  call := by
    intro info id isParallel params signals names hexp
    cases hexp with
    | clean hclean => exact absurd hclean (not_clean_anonymousComp rfl)
    | anonymousComp hparams =>
      have hcall : Clean (.call info id params) := clean_call.mpr hparams
      exact ⟨hcall, clean_parallelOp.mpr hcall⟩
  signals := by
    intro info id isParallel params signals names hexp
    cases hexp with
    | clean hclean => exact absurd hclean (not_clean_anonymousComp rfl)
    | anonymousComp _ hsignals => exact hsignals
  parallel := by
    intro info rhe hrhe hexp
    cases hexp with
    | clean hclean => exact absurd (clean_parallelOp.mp hclean) (not_clean_anonymousComp hrhe)
    | parallelOp _ h => exact h
  arrayInLine := by
    intro info values hexp
    cases hexp with
    | clean hclean => exact fun e he => .clean ((clean_iff.mp hclean).2 e he)
    | arrayInLine h => exact h
  tuple := by
    intro info values hexp
    cases hexp with
    | clean hclean => exact fun e he => .clean ((clean_iff.mp hclean).2 e he)
    | tuple h => exact h
  newArrayInLine := fun h => clean_iff.mpr ⟨rfl, h⟩
  newTuple := fun h => clean_iff.mpr ⟨rfl, h⟩
  newVar := clean_var.mpr
  other := by
    intro e hexpanded hexp
    cases hexp with
    | clean hclean => exact hclean
    | parallelOp hrhe =>
      rw [isExpanded, hrhe] at hexpanded
      cases hexpanded
    | arrayInLine | tuple | anonymousComp => cases hexpanded

/-- A body without anonymous components at the wrong places loses all of them. -/
theorem clean_of_expandable {s : Statement} (hs : Holds Clean (Expandable templates) s)
    {u : UpdatedStatement} (h : removeAnonymousFromStatement templates fileLib none s = .ok u) :
    u.Holds Clean Clean := by
  refine removeAnonymousFromStatement_holds expandable_rule ?_ s none u ?_ hs h
  · intro info name
    have hvar : Clean (.var info name []) := clean_var.mpr fun _ h => absurd h List.not_mem_nil
    have hzero : ∀ n, Clean (.number info n) := fun n => rfl
    refine ⟨hvar, hzero 0, clean_iff.mpr ⟨rfl, ?_⟩⟩
    intro c hc
    rcases List.mem_cons.mp hc with rfl | hc
    · exact hvar
    · rw [List.mem_singleton.mp hc]
      exact hzero 1
  · exact fun v hv => by cases hv

/-! ## What is left over -/

/-- Right sides without anonymous components. -/
abbrev RhesClean : Statement → Prop := Holds (fun _ => True) Clean

theorem expandable_of_anonymousComp {id : String} {isParallel isParallel' : Bool} {params signals : List Expression}
    {names : Option (List (AssignOp × String))}
    (ih : ∀ e ∈ signals, ∀ u, removeAnonymousFromExpression templates fileLib varAccess e = .ok u → (∀ s ∈ u.substitutions, RhesClean s) → Clean u.expression → Expandable templates e)
    {u : UpdatedExpression}
    (h : removeAnonymousComp templates fileLib varAccess info id isParallel params names (removeAnonymousFromEach templates fileLib varAccess signals) = .ok u)
    (hsubs : ∀ s ∈ u.substitutions, RhesClean s) :
    Expandable templates (.anonymousComp info id isParallel' params signals names) := by
  obtain ⟨name, outputs, inputs, -, hused, hexpand, -, rfl⟩ := removeAnonymousComp_eq_ok h
  have hblock := holds_block.mp (hsubs _ List.mem_cons_self)
  refine .anonymousComp ?_ ?_
  · -- the parameters are those of the call
    have hcall := (holds_substitution.mp (hblock _ List.mem_cons_self)).2
    split_ifs at hcall
    · exact clean_call.mp (clean_parallelOp.mp hcall)
    · exact clean_call.mp hcall
  · intro e he
    have hmem := mem_of_mem_usedSignals he
    rw [← hused] at he
    obtain ⟨input, hinput, rfl⟩ := List.mem_map.mp he
    have hrest : ∀ s ∈ inputStatements info name (anonymousAccess varAccess) input, RhesClean s :=
      fun s hs => hblock s (List.mem_cons_of_mem _ (List.mem_flatMap.mpr ⟨input, hinput, hs⟩))
    refine ih _ hmem _ (hexpand input hinput) ?_ ?_
    · exact fun s hs => hrest s (List.mem_append_left _ hs)
    · exact (holds_substitution.mp
        (hrest _ (List.mem_append_right _ (List.mem_singleton.mpr rfl)))).2

theorem expandable_of_values {vals : List Expression}
    (ih : ∀ e ∈ vals, ∀ u, removeAnonymousFromExpression templates fileLib varAccess e = .ok u → (∀ s ∈ u.substitutions, RhesClean s) → Clean u.expression → Expandable templates e)
    {result : List Statement × List Statement × List Expression}
    (h : collectValues (removeAnonymousFromEach templates fileLib varAccess vals) = .ok result)
    (hsubs : ∀ s ∈ result.2.1, RhesClean s) (hvals : ∀ e ∈ result.2.2, Clean e) :
    ∀ e ∈ vals, Expandable templates e := by
  rw [removeAnonymousFromEach_eq] at h
  obtain ⟨entries, hfst, hexpand, rfl⟩ := collectValues_eq_ok h
  intro e he
  have hmem := he
  rw [← hfst] at he
  obtain ⟨entry, hentry, rfl⟩ := List.mem_map.mp he
  refine ih _ hmem _ (hexpand entry hentry) ?_ ?_
  · exact fun s hs => hsubs s (List.mem_flatMap.mpr ⟨entry, hentry, hs⟩)
  · exact hvals _ (List.mem_map_of_mem hentry)

/-- An expression whose expansion is clean is one that can be expanded. -/
theorem expandable_of_expression (e : Expression) :
    ∀ u, removeAnonymousFromExpression templates fileLib varAccess e = .ok u →
      (∀ s ∈ u.substitutions, RhesClean s) → Clean u.expression → Expandable templates e := by
  induction e using Expression.occurs_induction with
  | step e ih =>
    intro u h hsubs hclean
    by_cases hexp : isExpanded e = true
    · cases e with
      | arrayInLine info vals =>
        obtain ⟨result, hresult, h⟩ := bind_eq_ok h
        cases h
        exact .arrayInLine (expandable_of_values (fun e he => ih e he e (Occurs.refl e)) hresult hsubs
          (clean_iff.mp hclean).2)
      | tuple info vals =>
        obtain ⟨result, hresult, h⟩ := bind_eq_ok h
        cases h
        exact .tuple (expandable_of_values (fun e he => ih e he e (Occurs.refl e)) hresult hsubs
          (clean_iff.mp hclean).2)
      | anonymousComp info id isParallel params signals names =>
        have hsignals := fun e (he : e ∈ signals) =>
          ih e (List.mem_append_right params he) e (Occurs.refl e)
        exact expandable_of_anonymousComp hsignals h hsubs
      | parallelOp info rhe =>
        cases rhe with
        | anonymousComp info' id isParallel params signals names =>
          have hsignals := fun e (he : e ∈ signals) =>
            ih _ (List.mem_singleton.mpr rfl) e
              ((Occurs.refl e).of_mem (List.mem_append_right params he))
          exact .parallelOp rfl (expandable_of_anonymousComp hsignals h hsubs)
        | _ => cases hexp
      | _ => cases hexp
    · rw [Bool.not_eq_true] at hexp
      rw [removeAnonymousFromExpression_of_not_isExpanded hexp] at h
      cases h
      exact .clean hclean

theorem withSubstitutions_rhesClean {rhe : UpdatedExpression} {subs : Expression → Statement}
    (h : RhesClean (withSubstitutions info rhe subs).body) :
    (∀ s ∈ rhe.substitutions, RhesClean s) ∧ RhesClean (subs rhe.expression) := by
  rw [withSubstitutions] at h
  split_ifs at h with hempty
  · rw [List.isEmpty_iff.mp hempty]
    exact ⟨fun _ h => absurd h List.not_mem_nil, h⟩
  · have hall := holds_block.mp h
    exact ⟨fun s hs => hall s (List.mem_append_left _ hs),
      hall _ (List.mem_append_right _ (List.mem_singleton.mpr rfl))⟩

theorem expandable_of_statements
    (ih : ∀ s ∈ stmts, ∀ u, removeAnonymousFromStatement templates fileLib varAccess s = .ok u → RhesClean u.body → Holds (fun _ => True) (Expandable templates) s)
    (h : removeAnonymousFromStatements templates fileLib varAccess stmts = .ok result)
    (hclean : ∀ s ∈ result.1, RhesClean s) : ∀ s ∈ stmts, Holds (fun _ => True) (Expandable templates) s := by
  obtain ⟨entries, hfst, hexpand, rfl⟩ := removeAnonymousFromStatements_eq_ok h
  intro s hs
  have hmem := hs
  rw [← hfst] at hs
  obtain ⟨entry, hentry, rfl⟩ := List.mem_map.mp hs
  exact ih _ hmem _ (hexpand entry hentry) (hclean _ (List.mem_map_of_mem hentry))

/-- Every right side of a body that is clean after the expansion can be expanded. -/
theorem expandable_of_clean (s : Statement) :
    ∀ varAccess u, removeAnonymousFromStatement templates fileLib varAccess s = .ok u →
      RhesClean u.body → Holds (fun _ => True) (Expandable templates) s := by
  induction s using Statement.children_induction with
  | step s ih =>
    intro varAccess u h hclean
    cases s with
    | multSubstitution info lhe op rhe =>
      obtain ⟨r, hexp, h⟩ := bind_eq_ok h
      cases h
      obtain ⟨hsubs, hsub⟩ := withSubstitutions_rhesClean hclean
      have hr := (holds_multSubstitution.mp hsub).2
      exact holds_multSubstitution.mpr ⟨trivial, expandable_of_expression rhe r hexp hsubs hr⟩
    | substitution info var access op rhe =>
      obtain ⟨r, hexp, h⟩ := bind_eq_ok h
      cases h
      obtain ⟨hsubs, hsub⟩ := withSubstitutions_rhesClean hclean
      have hr := (holds_substitution.mp hsub).2
      exact holds_substitution.mpr
        ⟨fun _ _ => trivial, expandable_of_expression rhe r hexp hsubs hr⟩
    | ifThenElse info cond ifCase elseCase =>
      rw [removeAnonymousFromStatement] at h
      obtain ⟨ifBody, hifBody, h⟩ := bind_eq_ok h
      cases elseCase with
      | none =>
        cases h
        obtain ⟨-, hif, -⟩ := holds_ifThenElse.mp hclean
        refine holds_ifThenElse.mpr ⟨trivial, ih ifCase List.mem_cons_self _ _ hifBody hif, ?_⟩
        exact fun s hs => by cases hs
      | some elseCase =>
        obtain ⟨elseBody, helseBody, h⟩ := bind_eq_ok h
        cases h
        obtain ⟨-, hif, helse⟩ := holds_ifThenElse.mp hclean
        refine holds_ifThenElse.mpr ⟨trivial, ih ifCase List.mem_cons_self _ _ hifBody hif, ?_⟩
        intro s hs
        cases hs
        exact ih elseCase (by simp [Statement.children]) _ _ helseBody (helse _ rfl)
    | whileStmt info cond stmt =>
      obtain ⟨name, -, h⟩ := bind_eq_ok h
      obtain ⟨body, hbody, h⟩ := bind_eq_ok h
      refine holds_whileStmt.mpr ⟨trivial, ih stmt List.mem_cons_self _ _ hbody ?_⟩
      dsimp only at h
      split_ifs at h
      · cases h
        exact (holds_whileStmt.mp hclean).2
      · cases h
        exact holds_block.mp (holds_whileStmt.mp hclean).2 _ List.mem_cons_self
    | initializationBlock info xtype initializations =>
      obtain ⟨result, hresult, h⟩ := bind_eq_ok h
      cases h
      exact holds_initializationBlock.mpr (expandable_of_statements
        (fun s hs => ih s hs varAccess) hresult (holds_initializationBlock.mp hclean))
    | block info stmts =>
      obtain ⟨result, hresult, h⟩ := bind_eq_ok h
      cases h
      exact holds_block.mpr (expandable_of_statements
        (fun s hs => ih s hs varAccess) hresult (holds_block.mp hclean))
    | underscoreSubstitution => cases h
    | returnStmt | declaration | constraintEquality | logCall | assert =>
      refine holds_iff.mpr ⟨⟨rfl, fun _ _ => trivial, ?_⟩, ?_⟩
      · exact fun e he => by cases he
      · exact fun c hc => absurd hc List.not_mem_nil

end Circom.Parser
