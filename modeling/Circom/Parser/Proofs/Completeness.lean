import Circom.Parser.Proofs.SugarRemoval

/-!
# Completeness of the removal

A template, a function and the whole program after a successful run.
-/

namespace Circom.Parser

open Circom.Ast
open Circom.Lib (Occurs bind_eq_ok bind_ne_error ok_ne_error)

variable {templates : List (String × TemplateData)} {fileLib : FileLibrary}
variable {s : Statement} {t : TemplateData}

/-! ## Leaves of clean statements -/

theorem clean_leaves {e : Expression} : Clean e ↔ ∀ l ∈ leaves e, Clean l := by
  induction e using tuple_induction with
  | tuple info values ih =>
    rw [clean_iff, leaves_tuple]
    constructor
    · rintro ⟨-, h⟩ l hl
      obtain ⟨e, he, hl⟩ := List.mem_flatMap.mp hl
      exact (ih e he).mp (h e he) l hl
    · exact fun h => ⟨rfl, fun e he => (ih e he).mpr
        fun l hl => h l (List.mem_flatMap.mpr ⟨e, he, hl⟩)⟩
  | other e h =>
    rw [leaves_of_not_tuple h]
    simp

theorem mem_statementLeaves {l : Expression} (h : l ∈ statementLeaves s) :
    ∃ e ∈ s.expressions, l = e ∨ l ∈ leaves e := by
  cases s with
  | substitution info var access op rhe =>
    rcases List.mem_append.mp h with h | h
    · exact ⟨l, List.mem_append_left _ h, Or.inl rfl⟩
    · exact ⟨rhe, List.mem_append_right _ (List.mem_singleton.mpr rfl), Or.inr h⟩
  | multSubstitution info lhe op rhe =>
    rcases List.mem_append.mp h with h | h
    · exact ⟨lhe, List.mem_cons_self, Or.inr h⟩
    · exact ⟨rhe, List.mem_cons_of_mem _ (List.mem_singleton.mpr rfl), Or.inr h⟩
  | logCall info args =>
    obtain ⟨e, he, hl⟩ := List.mem_flatMap.mp h
    exact ⟨e, he, Or.inr hl⟩
  | _ => exact ⟨l, h, Or.inl rfl⟩

theorem before_clean (h : ∀ t : Statement, t.OccursIn s → ∀ e ∈ t.expressions, Clean e) : Before Clean s := by
  intro t ht l hl
  obtain ⟨e, he, rfl | hl⟩ := mem_statementLeaves hl
  · exact h t ht l he
  · exact clean_leaves.mp (h t ht e he) l hl

theorem before_clean_of_holds (h : Holds Clean Clean s) : Before Clean s := by
  apply before_clean
  intro t ht e he
  rcases Statement.mem_expressions.mp he with he | he
  · exact (h t ht).2.1 e he
  · exact (h t ht).2.2 e he

/-- Checked and clean statements have no sugar after the removal of tuples. -/
theorem sugarFree_of_removeTuples {s' : Statement} (hclean : Before Clean s) (hcheck : checkTuplesStatement s = .ok ())
    (h : removeTuplesFromStatement s = .ok s') : s'.SugarFree := by
  have hbefore : Before Expression.SugarFree s := by
    intro t ht l hl
    exact Expression.sugarFree_iff.mpr ⟨hclean t ht l hl, before_of_check hcheck t ht l hl⟩
  refine removeTuples_after ?_ s s' hbefore h
  intro info name access hvar e he x hx
  exact hvar x (hx.of_mem he)

/-! ## Templates -/

/-- Every assignment of the body can be expanded. -/
def Desugarable (templates : List (String × TemplateData)) (body : Statement) : Prop :=
  ∀ t : Statement, t.OccursIn body → ∀ e, t.rhe? = some e → Expandable templates e

/-- The body of a template with its declarations in front. -/
def withInits (new : UpdatedStatement) (info : Meta) (stmts : List Statement) : Statement :=
  .block info ([.initializationBlock info .var new.initVariables,
    .initializationBlock info .component new.initComponents] ++ new.substitutions ++ stmts)

theorem desugarTemplate_eq_ok {t' : TemplateData} (h : desugarTemplate templates fileLib t = .ok t') :
    checkAnonymousComponentsStatement t.body = .ok () ∧
    ∃ new info stmts newBody, removeAnonymousFromStatement templates fileLib none t.body = .ok new ∧
      new.body = .block info stmts ∧ checkTuplesStatement (withInits new info stmts) = .ok () ∧
      removeTuplesFromStatement (withInits new info stmts) = .ok newBody ∧
      t' = { t with body := newBody } := by
  obtain ⟨⟨⟩, hcheck, h⟩ := bind_eq_ok h
  obtain ⟨new, hnew, h⟩ := bind_eq_ok h
  split at h
  · rename_i info stmts hbody
    obtain ⟨⟨⟩, htuples, h⟩ := bind_eq_ok h
    obtain ⟨newBody, hremove, h⟩ := bind_eq_ok h
    cases h
    exact ⟨hcheck, new, info, stmts, newBody, hnew, hbody, htuples, hremove, rfl⟩
  · cases h

theorem withInits_holds {T R : Expression → Prop} {new : UpdatedStatement} (h : new.Holds T R)
    {info : Meta} {stmts : List Statement} (hbody : new.body = .block info stmts) :
    Holds T R (withInits new info stmts) := by
  obtain ⟨hstmts, hcomps, hvars, hsubs⟩ := h
  rw [hbody] at hstmts
  refine holds_block.mpr (holds_append (holds_append (holds_cons ?_ (holds_singleton ?_)) hsubs)
    (holds_block.mp hstmts))
  · exact holds_initializationBlock.mpr hvars
  · exact holds_initializationBlock.mpr hcomps

theorem desugarTemplate_sugarFree_iff {t' : TemplateData} (h : desugarTemplate templates fileLib t = .ok t') :
    t'.body.SugarFree ↔ Desugarable templates t.body := by
  obtain ⟨hcheck, new, info, stmts, newBody, hnew, hbody, htuples, hremove, rfl⟩ :=
    desugarTemplate_eq_ok h
  constructor
  · intro hfree
    have hrhes : ∀ s : Statement, s.OccursIn newBody → ∀ e, s.rhe? = some e → Clean e :=
      fun s hs e he => (Expression.sugarFree_iff.mp
        ((hfree s hs).2 e (Statement.mem_expressions.mpr (Or.inr he)))).1
    have hleft := rhe_of_removeTuples _ _ hremove hrhes
    have hclean : RhesClean new.body := by
      rw [hbody]
      refine holds_block.mpr fun s hs t ht => ?_
      have hmem : s ∈ (withInits new info stmts).children := List.mem_append_right _ hs
      obtain ⟨hunder, hrhe⟩ := hleft t (ht.trans ((Occurs.refl s).of_mem hmem))
      exact ⟨hunder, fun _ _ => trivial, fun e he => clean_leaves.mpr (hrhe e he)⟩
    exact fun s hs => (expandable_of_clean t.body none new hnew hclean s hs).2.2
  · intro hexp
    have hholds : Holds Clean (Expandable templates) t.body := by
      intro s hs
      obtain ⟨hunder, hothers, -⟩ := holds_of_check hcheck s hs
      exact ⟨hunder, hothers, hexp s hs⟩
    have hclean := withInits_holds (clean_of_expandable hholds hnew) hbody
    exact sugarFree_of_removeTuples (before_clean_of_holds hclean) htuples hremove

theorem noneOnTop_of_clean {e : Expression} (h : Clean e) : NoneOnTop e :=
  fun l hl => (clean_iff.mp (clean_leaves.mp h l hl)).1

/-- After the expansion no anonymous component stands alone on a right side. -/
theorem noneOnTop_rule (varAccess : Option Expression) (h : ∀ v ∈ varAccess, Clean v) :
    ExpansionRule templates varAccess (fun _ => True) Clean NoneOnTop where
  access := h
  call := fun _ => ⟨(noneOnTop_of_not_tuple rfl).mpr rfl, (noneOnTop_of_not_tuple rfl).mpr rfl⟩
  signals := fun _ _ _ => trivial
  parallel := fun _ _ => trivial
  arrayInLine := fun _ _ _ => trivial
  tuple := fun _ _ _ => trivial
  newArrayInLine := fun _ => (noneOnTop_of_not_tuple rfl).mpr rfl
  newTuple := noneOnTop_tuple.mpr
  newVar := fun _ => (noneOnTop_of_not_tuple rfl).mpr rfl
  other := by
    intro e hexpanded _
    cases e with
    | arrayInLine | tuple | anonymousComp => cases hexpanded
    | _ => exact (noneOnTop_of_not_tuple rfl).mpr rfl

theorem ready_of_expansion (h : Holds Clean (fun _ => True) s) {new : UpdatedStatement}
    (hnew : removeAnonymousFromStatement templates fileLib none s = .ok new) {info : Meta} {stmts : List Statement}
    (hbody : new.body = .block info stmts) : Ready (withInits new info stmts) := by
  have hall : new.Holds Clean NoneOnTop := by
    refine removeAnonymousFromStatement_holds noneOnTop_rule ?_ s none new ?_ h hnew
    · intro info name
      have hvar : Clean (.var info name []) := clean_var.mpr fun _ h => absurd h List.not_mem_nil
      exact ⟨hvar, (noneOnTop_of_not_tuple rfl).mpr rfl, (noneOnTop_of_not_tuple rfl).mpr rfl⟩
    · exact fun v hv => by cases hv
  intro t ht
  obtain ⟨hunder, hothers, hrhe⟩ := withInits_holds hall hbody t ht
  refine ⟨hunder, ?_⟩
  cases t with
  | substitution info var access op rhe =>
    intro l hl
    rcases List.mem_append.mp hl with hl | hl
    · exact (clean_iff.mp (hothers l hl)).1
    · exact hrhe rhe rfl l hl
  | multSubstitution info lhe op rhe =>
    intro l hl
    rcases List.mem_append.mp hl with hl | hl
    · exact noneOnTop_of_clean (hothers lhe List.mem_cons_self) l hl
    · exact hrhe rhe rfl l hl
  | logCall info args =>
    intro l hl
    obtain ⟨e, he, hl⟩ := List.mem_flatMap.mp hl
    exact noneOnTop_of_clean (hothers e he) l hl
  | underscoreSubstitution => cases hunder
  | _ => exact fun l hl => (clean_iff.mp (hothers l hl)).1

/-- A template with a block as its body reaches no unreachable code. -/
theorem desugarTemplate_ne_unreachable (hunder : NoUnderscore t.body) (hblock : t.body.isBlock = true) :
    desugarTemplate templates fileLib t ≠ .error .unreachable := by
  refine bind_ne_error (checkAnonymousComponentsStatement_ne_unreachable _ hunder) fun _ hcheck =>
    bind_ne_error (removeAnonymousFromStatement_ne_unreachable _ _ hunder) fun new hnew => ?_
  cases hbody : t.body with
  | block info stmts =>
    rw [hbody] at hnew
    obtain ⟨result, -, hnew'⟩ := bind_eq_ok hnew
    have hnewBody : new.body = .block info result.1 := by
      cases hnew'
      rfl
    have hready := ready_of_expansion (by rw [← hbody]; exact holds_of_check hcheck) hnew hnewBody
    rw [hnewBody]
    refine bind_ne_error (checkTuplesStatement_ne_unreachable _ hready) fun _ _ =>
      bind_ne_error (removeTuplesFromStatement_ne_unreachable _ hready) fun _ _ => ok_ne_error
  | _ =>
    rw [hbody] at hblock
    cases hblock

/-! ## Functions -/

theorem before_clean_of_not_contains (h : s.containsAnonymousComp = false) : Before Clean s :=
  before_clean ((Statement.containsAnonymousComp_eq_false s).mp h)

theorem desugarFunction_sugarFree {t t' : FunctionData} (h : desugarFunction t = .ok t') :
    t'.body.SugarFree := by
  rw [desugarFunction] at h
  split_ifs at h with hcontains
  obtain ⟨⟨⟩, hcheck, h⟩ := bind_eq_ok h
  obtain ⟨newBody, hremove, h⟩ := bind_eq_ok h
  cases h
  rw [Bool.not_eq_true] at hcontains
  exact sugarFree_of_removeTuples (before_clean_of_not_contains hcontains) hcheck hremove

theorem desugarFunction_ne_unreachable {t : FunctionData} (hunder : NoUnderscore t.body) :
    desugarFunction t ≠ .error .unreachable := by
  rw [desugarFunction]
  split_ifs with hcontains
  · exact anonymousGeneralError_ne_unreachable _ _
  · rw [Bool.not_eq_true] at hcontains
    have hready : Ready t.body := fun s hs =>
      ⟨hunder s hs, fun l hl => (clean_iff.mp (before_clean_of_not_contains hcontains s hs l hl)).1⟩
    exact bind_ne_error (checkTuplesStatement_ne_unreachable _ hready) fun _ _ =>
      bind_ne_error (removeTuplesFromStatement_ne_unreachable _ hready) fun _ _ => ok_ne_error

/-! ## The program -/

theorem mapValues_eq_ok {α β : Type} {f : α → Except Failure β} {entries : List (String × α)}
    {result : List (String × β)} (h : mapValues f entries = .ok result) :
    List.Forall₂ (fun entry entry' => f entry.2 = .ok entry'.2) entries result := by
  induction entries generalizing result with
  | nil =>
    cases h
    exact .nil
  | cons entry entries ih =>
    obtain ⟨value, hvalue, h⟩ := bind_eq_ok h
    obtain ⟨rest, hrest, h⟩ := bind_eq_ok h
    cases h
    exact .cons hvalue (ih hrest)

theorem mapValues_ne_unreachable {α β : Type} {f : α → Except Failure β}
    {entries : List (String × α)} (h : ∀ entry ∈ entries, f entry.2 ≠ .error .unreachable) :
    mapValues f entries ≠ .error .unreachable := by
  induction entries with
  | nil => exact ok_ne_error
  | cons entry entries ih =>
    exact bind_ne_error (h entry List.mem_cons_self) fun _ _ =>
      bind_ne_error (ih fun entry hentry => h entry (List.mem_cons_of_mem _ hentry))
        fun _ _ => ok_ne_error

/-- No sugar in any body or in the main call. -/
structure SugarFree (archive : ProgramArchive) : Prop where
  templates : ∀ t ∈ archive.templates, t.2.body.SugarFree
  functions : ∀ t ∈ archive.functions, t.2.body.SugarFree
  buses : ∀ t ∈ archive.buses, t.2.body.SugarFree
  main : archive.initialTemplateCall.SugarFree

/-- No body assigns to `_` by the statement that only the removal of tuples makes. -/
def WithoutUnderscore (archive : ProgramArchive) : Prop :=
  (∀ t ∈ archive.templates, NoUnderscore t.2.body) ∧ ∀ t ∈ archive.functions, NoUnderscore t.2.body

/-- After a successful run the program is free of sugar exactly if the bodies of its buses, which the run
does not look at, are and the assignments of its templates can be expanded. -/
theorem applySyntacticSugar_complete_iff (archive : ProgramArchive)
    (hunder : WithoutUnderscore archive) :
    (∀ archive', applySyntacticSugar archive = .ok archive' → (SugarFree archive' ↔
      (∀ t ∈ archive.buses, t.2.body.SugarFree) ∧
        ∀ t ∈ archive.templates, Desugarable archive.templates t.2.body)) ∧
    ((∀ t ∈ archive.templates, t.2.body.isBlock = true) →
      applySyntacticSugar archive ≠ .error .unreachable) := by
  constructor
  · intro archive' h
    rw [applySyntacticSugar] at h
    split_ifs at h with hanon htuple
    obtain ⟨templates, htemplates, h⟩ := bind_eq_ok h
    obtain ⟨functions, hfunctions, h⟩ := bind_eq_ok h
    cases h
    have htemplates := mapValues_eq_ok htemplates
    have hfunctions := mapValues_eq_ok hfunctions
    constructor
    · intro hfree
      refine ⟨hfree.buses, ?_⟩
      intro t ht
      obtain ⟨t', ht', hdesugar⟩ := Lib.forall₂_mem_left htemplates ht
      exact (desugarTemplate_sugarFree_iff hdesugar).mp (hfree.templates t' ht')
    · rintro ⟨hbuses, hall⟩
      refine ⟨?_, ?_, hbuses, ?_⟩
      · intro t' ht'
        obtain ⟨t, ht, hdesugar⟩ := Lib.forall₂_mem_right htemplates ht'
        exact (desugarTemplate_sugarFree_iff hdesugar).mpr (hall t ht)
      · intro t' ht'
        obtain ⟨t, ht, hdesugar⟩ := Lib.forall₂_mem_right hfunctions ht'
        exact desugarFunction_sugarFree hdesugar
      · rw [Bool.not_eq_true, Bool.or_eq_false_iff] at hanon htuple
        exact Expression.sugarFree_iff.mpr ⟨hanon.2, htuple.2⟩
  · intro hblock
    rw [applySyntacticSugar]
    split_ifs
    · exact anonymousGeneralError_ne_unreachable _ _
    · exact tupleGeneralError_ne_unreachable _ _
    · refine bind_ne_error ?_ fun _ _ => bind_ne_error ?_ fun _ _ => ok_ne_error
      · exact mapValues_ne_unreachable fun t ht =>
          desugarTemplate_ne_unreachable (hunder.1 t ht) (hblock t ht)
      · exact mapValues_ne_unreachable fun t ht => desugarFunction_ne_unreachable (hunder.2 t ht)

/-- A program with a template `A` that has the output `o`, a template with the given assignment to `x`,
and buses with the given bodies. -/
def exampleArchive (rhe : Expression) (buses : List (String × BusData)) : ProgramArchive where
  fileLibrary := ⟨fun _ _ => some 1⟩
  functions := []
  templates := [("A", ⟨"A", .block ⟨0, 0, some 0⟩ [], [], ∅, [], ["o"]⟩),
    ("M", ⟨"M", .block ⟨1, 10, some 0⟩
      [.substitution ⟨2, 11, some 0⟩ "x" [] .assignConstraintSignal rhe], [], ∅, [], []⟩)]
  buses := buses
  initialTemplateCall := .call ⟨9, 90, some 0⟩ "M" []

/-- `A()()` at the given position. -/
def exampleCall (start : ℕ) (params : List Expression) : Expression :=
  .anonymousComp ⟨start, start, some 0⟩ "A" false params [] none

theorem applySyntacticSugar_complete_iff_call :
    applySyntacticSugar (exampleArchive (exampleCall 16 []) []) ≠ .error .unreachable ∧
      ∀ archive', applySyntacticSugar (exampleArchive (exampleCall 16 []) []) = .ok archive' →
        SugarFree archive' := by
  have hblock : ∀ info, NoUnderscore (.block info []) := fun info =>
    noUnderscore_iff.mpr ⟨rfl, fun _ h => absurd h List.not_mem_nil⟩
  have hbody : NoUnderscore (.block ⟨1, 10, some 0⟩
      [.substitution ⟨2, 11, some 0⟩ "x" [] .assignConstraintSignal (exampleCall 16 [])]) := by
    refine noUnderscore_iff.mpr ⟨rfl, fun c hc => ?_⟩
    rw [List.mem_singleton.mp hc]
    exact noUnderscore_iff.mpr ⟨rfl, fun _ h => absurd h List.not_mem_nil⟩
  have hunder : WithoutUnderscore (exampleArchive (exampleCall 16 []) []) := by
    refine ⟨fun t ht => ?_, fun _ h => absurd h List.not_mem_nil⟩
    rcases List.mem_cons.mp ht with rfl | ht
    · exact hblock _
    · rw [List.mem_singleton.mp ht]
      exact hbody
  have hexp : Expandable (exampleArchive (exampleCall 16 []) []).templates (exampleCall 16 []) := by
    refine .anonymousComp (fun _ h => absurd h List.not_mem_nil) ?_
    exact fun e he => absurd (mem_of_mem_usedSignals he) List.not_mem_nil
  have hall := applySyntacticSugar_complete_iff _ hunder
  refine ⟨hall.2 ?_, fun archive' h => (hall.1 archive' h).mpr ⟨?_, ?_⟩⟩
  · intro t ht
    rcases List.mem_cons.mp ht with rfl | ht
    · rfl
    · rw [List.mem_singleton.mp ht]
      rfl
  · exact fun _ h => absurd h List.not_mem_nil
  · intro t ht s hs e he
    rcases List.mem_cons.mp ht with rfl | ht
    · rcases Lib.occurs_iff.mp hs with rfl | ⟨c, hc, -⟩
      · cases he
      · exact absurd hc List.not_mem_nil
    · rw [List.mem_singleton.mp ht] at hs
      rcases Lib.occurs_iff.mp hs with rfl | ⟨c, hc, hs⟩
      · cases he
      · rw [List.mem_singleton.mp hc] at hs
        rcases Lib.occurs_iff.mp hs with rfl | ⟨c, hc, -⟩
        · cases he
          exact hexp
        · exact absurd hc List.not_mem_nil

/-- `parallel A(A()())()` keeps the inner component, as a parameter of the call, and the body of a bus is
not touched. -/
theorem applySyntacticSugar_incomplete :
    (∃ archive', applySyntacticSugar (exampleArchive (.parallelOp ⟨15, 15, some 0⟩
      (exampleCall 16 [exampleCall 18 []])) []) = .ok archive' ∧ ¬ SugarFree archive') ∧
    ∃ archive', applySyntacticSugar (exampleArchive (.number ⟨15, 15, some 0⟩ 0)
      [("B", ⟨.block ⟨20, 20, some 0⟩
        [.substitution ⟨21, 21, some 0⟩ "y" [] .assignVar (exampleCall 22 [])]⟩)]) = .ok archive' ∧
      ¬ SugarFree archive' := by
  refine ⟨⟨_, rfl, fun h => ?_⟩, ⟨_, rfl, fun h => ?_⟩⟩
  · have hbody := Statement.containsAnonymousComp_of_sugarFree
      (h.templates _ (List.mem_cons_of_mem _ List.mem_cons_self))
    cases hbody
  · have hbody := Statement.containsAnonymousComp_of_sugarFree (h.buses _ List.mem_cons_self)
    cases hbody

end Circom.Parser
