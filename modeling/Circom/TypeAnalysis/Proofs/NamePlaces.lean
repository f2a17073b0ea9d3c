import Circom.Ast.Proofs.Occurrences
import Circom.ProgramStructure.Proofs.Environment
import Circom.TypeAnalysis.NameResolution
import Circom.TypeAnalysis.SymbolAnalysis

/-!
# Runs through the names of a body

What the passes have in their environments at a name. The tables of signals, buses and components hold the latest
declarations, and the blocks of variables the innermost ones. The known/unknown analysis, which goes back in its
environment at a conditional and repeats loops, keeps the latest component as long as it is visible.
-/

namespace Circom.TypeAnalysis.NameResolution

open Circom.Ast
open Circom.Lib (HashMap)
open Circom.ProgramStructure (RawEnvironment Wires Variables)
open SymbolAnalysis (treatStatement treatStatements isWire)

variable {inLoop : Bool} {d : Declared} {environment : Environment} {blocks : List (List Declared)}
variable {block declared past : List Declared} {found : List Lookup} {stmts : List Statement} {s s' t : State}
variable {stmt : Statement} {name : String} {kind : SymbolKind} {vars : Variables Declared}

/-- Induction over a body. -/
theorem body_induction {motive : Statement → Prop} {motiveAll : List Statement → Prop}
    (simple : ∀ stmt, isSimple stmt = true → motive stmt)
    (declaration : ∀ info xtype name dimensions isConstant isAnonymous,
      motive (.declaration info xtype name dimensions isConstant isAnonymous))
    (initializationBlock : ∀ info xtype stmts, motiveAll stmts → motive (.initializationBlock info xtype stmts))
    (block : ∀ info stmts, motiveAll stmts → motive (.block info stmts))
    (ifThen : ∀ info cond ifCase, motive ifCase → motive (.ifThenElse info cond ifCase none))
    (ifThenElse : ∀ info cond ifCase elseCase, motive ifCase → motive elseCase →
      motive (.ifThenElse info cond ifCase (some elseCase)))
    (whileStmt : ∀ info cond stmt, motive stmt → motive (.whileStmt info cond stmt))
    (nil : motiveAll []) (cons : ∀ stmt stmts, motive stmt → motiveAll stmts → motiveAll (stmt :: stmts)) :
    (∀ stmt, motive stmt) ∧ ∀ stmts, motiveAll stmts := by
  have hall : ∀ stmts : List Statement, (∀ stmt ∈ stmts, motive stmt) → motiveAll stmts := by
    intro stmts h
    induction stmts with
    | nil => exact nil
    | cons stmt stmts ih =>
      exact cons stmt stmts (h stmt List.mem_cons_self) (ih fun s hs => h s (List.mem_cons_of_mem _ hs))
  have hstmt : ∀ stmt, motive stmt := by
    intro stmt
    induction stmt using Statement.children_induction with
    | step stmt ih =>
      cases stmt with
      | ifThenElse info cond ifCase elseCase =>
        cases elseCase with
        | none => exact ifThen info cond ifCase (ih ifCase (by simp [Statement.children]))
        | some elseCase =>
          exact ifThenElse info cond ifCase elseCase (ih ifCase (by simp [Statement.children]))
            (ih elseCase (by simp [Statement.children]))
      | whileStmt info cond stmt => exact whileStmt info cond stmt (ih stmt (by simp [Statement.children]))
      | initializationBlock info xtype stmts => exact initializationBlock info xtype stmts (hall stmts ih)
      | block info stmts => exact block info stmts (hall stmts ih)
      | declaration => exact declaration ..
      | returnStmt | substitution | multSubstitution | underscoreSubstitution | constraintEquality | logCall
      | assert => exact simple _ rfl
  exact ⟨hstmt, fun stmts => hall stmts fun stmt _ => hstmt stmt⟩

/-! ## Latest declarations -/

theorem latest_cons (d : Declared) (declared : List Declared) (name : String) (kind : SymbolKind) :
    latest (d :: declared) name kind =
      if name = d.name ∧ kind = d.kind then some d else latest declared name kind := by
  unfold latest
  rw [List.find?_cons]
  by_cases h : d.name = name ∧ d.kind = kind
  · rw [if_pos ⟨h.1.symm, h.2.symm⟩]
    simp [h]
  · rw [if_neg (fun h' => h ⟨h'.1.symm, h'.2.symm⟩)]
    simp [h]

theorem latest_eq_some (h : latest declared name kind = some d) : d ∈ declared ∧ d.name = name ∧ d.kind = kind := by
  have hd := List.find?_some h
  exact ⟨List.mem_of_find?_eq_some h, by simpa using hd⟩

theorem latest_append (front back : List Declared) (name : String) (kind : SymbolKind) :
    latest (front ++ back) name kind = (latest front name kind).or (latest back name kind) := List.find?_append

theorem latest_eq_none : latest declared name kind = none ↔ ∀ d ∈ declared, d.name = name → d.kind ≠ kind := by
  simp [latest, List.find?_eq_none]

/-- The declarations have the numbers of those before. -/
def Numbered : List Declared → Prop
  | [] => True
  | d :: declared => d.number = declared.length ∧ Numbered declared

theorem Numbered.lt (h : Numbered declared) : ∀ d ∈ declared, d.number < declared.length := by
  induction declared with
  | nil => nofun
  | cons d declared ih =>
    intro d' hd'
    rw [List.length_cons]
    rcases List.mem_cons.mp hd' with rfl | hd'
    · exact h.1 ▸ Nat.lt_succ_self _
    · exact Nat.lt_succ_of_lt (ih h.2 d' hd')

/-- What stands in front of a declaration is not the declaration. -/
theorem Numbered.not_mem {front back : List Declared} (h : Numbered (front ++ back)) (hd : d ∈ back) : d ∉ front := by
  induction front with
  | nil => nofun
  | cons d' front ih =>
    intro hmem
    rcases List.mem_cons.mp hmem with rfl | hmem
    · have hlt := h.2.lt d (List.mem_append_right _ hd)
      rw [h.1] at hlt
      exact absurd hlt (lt_irrefl _)
    · exact ih h.2 hmem

/-- The latest declaration stands before, so that it was the latest one there. -/
theorem Numbered.latest_before {front back : List Declared} (h : Numbered (front ++ back))
    (hlatest : latest (front ++ back) name kind = some d) (hd : d ∈ back) : latest back name kind = some d := by
  rw [latest_append] at hlatest
  cases hfront : latest front name kind with
  | none => rwa [hfront, Option.none_or] at hlatest
  | some d' =>
    rw [hfront, Option.some_or] at hlatest
    cases hlatest
    exact absurd (latest_eq_some hfront).1 (h.not_mem hd)

/-! ## What a pass goes through -/

namespace State

/-- The states stand at the same place of the program. -/
structure SamePlace (s t : State) : Prop where
  scope : s.scope = t.scope
  past : s.past = t.past

theorem SamePlace.next (h : s.SamePlace t) (name : String) (xtype : VariableType) :
    s.next name xtype = t.next name xtype := by
  unfold State.next
  rw [h.past]

theorem SamePlace.declare (h : s.SamePlace t) (d : Declared) (environment environment' : Environment) :
    (s.declare d environment).SamePlace (t.declare d environment') :=
  ⟨congrArg (List.cons d) h.scope, congrArg (List.cons d) h.past⟩

end State

/-- The occurrences that are looked up. -/
def occurrencesOf (found : List Lookup) : List Occurrence := found.map Lookup.occurrence

@[simp] theorem occurrencesOf_append (found found' : List Lookup) :
    occurrencesOf (found ++ found') = occurrencesOf found ++ occurrencesOf found' := List.map_append

theorem occurrencesOf_lookups (scope past : List Declared) (dimensionOf : Option Declared)
    (environment environment' : Environment) (names : List (String × Bool)) :
    occurrencesOf (lookups scope past dimensionOf environment names) =
      occurrencesOf (lookups scope past dimensionOf environment' names) := by
  simp [occurrencesOf, lookups]

theorem State.SamePlace.lookups (h : s.SamePlace t) (names : List (String × Bool)) :
    occurrencesOf (s.lookups names) = occurrencesOf (t.lookups names) := by
  unfold State.lookups
  rw [h.scope, h.past]
  exact occurrencesOf_lookups ..

namespace Pass

theorem walk_simple (pass : Pass) (h : isSimple stmt = true) (s : State) :
    walk pass stmt s = (s.lookups (statementSymbols stmt), s) := by
  cases stmt <;> first | rfl | cases h

/-- The passes go through the same places. -/
theorem walk_samePlace (pass pass' : Pass) :
    (∀ (stmt : Statement) (s t : State), s.SamePlace t →
      occurrencesOf (pass.walk stmt s).1 = occurrencesOf (pass'.walk stmt t).1 ∧
        (pass.walk stmt s).2.SamePlace (pass'.walk stmt t).2) ∧
    ∀ (stmts : List Statement) (s t : State), s.SamePlace t →
      occurrencesOf (pass.walkAll stmts s).1 = occurrencesOf (pass'.walkAll stmts t).1 ∧
        (pass.walkAll stmts s).2.SamePlace (pass'.walkAll stmts t).2 := by
  apply body_induction
  case simple =>
    intro stmt hstmt s t h
    rw [walk_simple pass hstmt, walk_simple pass' hstmt]
    exact ⟨h.lookups _, h⟩
  case declaration =>
    intro info xtype name dimensions isConstant isAnonymous s t h
    simp only [walk, h.next, h.scope, h.past]
    exact ⟨occurrencesOf_lookups .., h.declare ..⟩
  case initializationBlock =>
    intro info xtype stmts ih s t h
    simp only [walk]
    exact ih s t h
  case block =>
    intro info stmts ih s t h
    simp only [walk]
    obtain ⟨hfound, hplace⟩ := ih { s with environment := pass.enterBlock s.environment }
      { t with environment := pass'.enterBlock t.environment } ⟨h.scope, h.past⟩
    exact ⟨hfound, h.scope, hplace.past⟩
  case ifThen =>
    intro info cond ifCase ih s t h
    simp only [walk, occurrencesOf_append]
    obtain ⟨hfound, hplace⟩ := ih s t h
    exact ⟨by rw [h.lookups, hfound], hplace⟩
  case ifThenElse =>
    intro info cond ifCase elseCase ih ih' s t h
    simp only [walk, occurrencesOf_append]
    obtain ⟨hfound, hplace⟩ := ih s t h
    obtain ⟨hfound', hplace'⟩ := ih' _ _ hplace
    exact ⟨by rw [h.lookups, hfound, hfound'], hplace'⟩
  case whileStmt =>
    intro info cond stmt ih s t h
    simp only [walk, occurrencesOf_append]
    obtain ⟨hfound, hplace⟩ := ih s t h
    exact ⟨by rw [h.lookups, hfound], hplace⟩
  case nil =>
    intro s t h
    exact ⟨rfl, h⟩
  case cons =>
    intro stmt stmts ih ih' s t h
    simp only [walkAll, occurrencesOf_append]
    obtain ⟨hfound, hplace⟩ := ih s t h
    obtain ⟨hfound', hplace'⟩ := ih' _ _ hplace
    exact ⟨by rw [hfound, hfound'], hplace'⟩

end Pass

/-- What is visible stands before, and the declarations are numbered. -/
structure WellPlaced (scope past : List Declared) : Prop where
  visible : ∀ d ∈ scope, d ∈ past
  numbered : Numbered past

theorem WellPlaced.declare (h : WellPlaced s.scope s.past) (name : String) (xtype : VariableType) :
    WellPlaced (s.next name xtype :: s.scope) (s.next name xtype :: s.past) where
  visible d hd := by
    rcases List.mem_cons.mp hd with rfl | hd
    · exact List.mem_cons_self
    · exact List.mem_cons_of_mem _ (h.visible d hd)
  numbered := ⟨rfl, h.numbered⟩

theorem WellPlaced.occurrences {scope : List Declared} (h : WellPlaced scope past) (dimensionOf : Option Declared)
    (environment : Environment) (names : List (String × Bool)) :
    ∀ o ∈ occurrencesOf (NameResolution.lookups scope past dimensionOf environment names),
      WellPlaced o.scope o.past := by
  intro o ho
  simp only [occurrencesOf, NameResolution.lookups, List.map_map, List.mem_map] at ho
  obtain ⟨name, -, rfl⟩ := ho
  exact h

/-- What a statement adds. -/
structure Frame (declares : Bool) (s t : State) : Prop where
  scope : ∃ front, t.scope = front ++ s.scope
  past : ∃ front, t.past = front ++ s.past
  placed : WellPlaced s.scope s.past → WellPlaced t.scope t.past
  kept : declares = false → t.scope = s.scope

theorem Frame.refl (declares : Bool) (s : State) : Frame declares s s :=
  ⟨⟨[], rfl⟩, ⟨[], rfl⟩, id, fun _ => rfl⟩

theorem Frame.trans {declares declares' : Bool} {u : State} (h : Frame declares s t) (h' : Frame declares' t u) :
    Frame (declares || declares') s u where
  scope := by
    obtain ⟨front, hfront⟩ := h.scope
    obtain ⟨front', hfront'⟩ := h'.scope
    exact ⟨front' ++ front, by rw [hfront', hfront, List.append_assoc]⟩
  past := by
    obtain ⟨front, hfront⟩ := h.past
    obtain ⟨front', hfront'⟩ := h'.past
    exact ⟨front' ++ front, by rw [hfront', hfront, List.append_assoc]⟩
  placed := h'.placed ∘ h.placed
  kept hnone := by
    obtain ⟨hfirst, hsecond⟩ := Bool.or_eq_false_iff.mp hnone
    rw [h'.kept hsecond, h.kept hfirst]

/-- A desugared assignment may stand anywhere and declares nothing. -/
theorem compound_spec :
    (∀ stmt, isCompound stmt = true → ∀ inLoop allowed, Parsed inLoop stmt ∧ treatStatement allowed stmt = [] ∧
      ∀ (pass : Pass) (s : State), (pass.walk stmt s).2.past = s.past) ∧
    ∀ stmts, areCompound stmts = true → ∀ inLoop allowed, ParsedAll inLoop stmts ∧ treatStatements allowed stmts = [] ∧
      ∀ (pass : Pass) (s : State), (pass.walkAll stmts s).2.past = s.past := by
  apply body_induction
  case simple =>
    intro stmt hstmt _ inLoop allowed
    refine ⟨?_, ?_, fun pass s => by rw [pass.walk_simple hstmt]⟩
    · cases stmt <;> first | trivial | cases hstmt
    · cases stmt <;> first | rfl | cases hstmt
  case declaration => exact fun _ _ _ _ _ _ h => by cases h
  case initializationBlock => exact fun _ _ _ _ h => by cases h
  case block =>
    intro info stmts ih h inLoop allowed
    obtain ⟨hparsed, htreat, hpast⟩ := ih h inLoop allowed
    exact ⟨hparsed, htreat, fun pass s => hpast pass { s with environment := pass.enterBlock s.environment }⟩
  case ifThen => exact fun _ _ _ _ h => by cases h
  case ifThenElse => exact fun _ _ _ _ _ _ h => by cases h
  case whileStmt => exact fun _ _ _ _ h => by cases h
  case nil => exact fun _ _ _ => ⟨trivial, rfl, fun _ _ => rfl⟩
  case cons =>
    intro stmt stmts ih ih' h inLoop allowed
    obtain ⟨hstmt, hstmts⟩ := Bool.and_eq_true_iff.mp h
    obtain ⟨hparsed, htreat, hpast⟩ := ih hstmt inLoop allowed
    obtain ⟨hparsed', htreat', hpast'⟩ := ih' hstmts inLoop allowed
    exact ⟨⟨hparsed, hparsed'⟩, by rw [treatStatements, htreat, htreat', List.append_nil],
      fun pass s => (hpast' pass _).trans (hpast pass s)⟩

theorem ParsedInitializations.parsedAll {type : VariableType}
    (h : ParsedInitializations inLoop type stmts) : ParsedAll false stmts := by
  induction stmts with
  | nil => trivial
  | cons stmt stmts ih =>
    cases stmt with
    | declaration => exact ⟨rfl, ih h.2⟩
    | _ => exact ⟨(compound_spec.1 _ h.1 false true).1, ih h.2⟩

namespace Pass

/-- Only declarations change what is visible after a statement. -/
theorem walk_frame (pass : Pass) :
    (∀ (stmt : Statement) (inLoop : Bool) (s : State), Parsed inLoop stmt →
      Frame (isDeclaration stmt) s (pass.walk stmt s).2 ∧ (WellPlaced s.scope s.past →
        ∀ o ∈ occurrencesOf (pass.walk stmt s).1, WellPlaced o.scope o.past)) ∧
    ∀ (stmts : List Statement) (inLoop : Bool) (s : State), ParsedAll inLoop stmts →
      Frame true s (pass.walkAll stmts s).2 ∧ (WellPlaced s.scope s.past →
        ∀ o ∈ occurrencesOf (pass.walkAll stmts s).1, WellPlaced o.scope o.past) := by
  apply body_induction
  case simple =>
    intro stmt hstmt inLoop s h
    rw [walk_simple pass hstmt]
    exact ⟨Frame.refl _ s, fun hs => hs.occurrences _ _ _⟩
  case declaration =>
    intro info xtype name dimensions isConstant isAnonymous inLoop s h
    simp only [walk]
    exact ⟨⟨⟨[_], rfl⟩, ⟨[_], rfl⟩, fun hs => hs.declare name xtype, Bool.noConfusion⟩, fun hs => hs.occurrences _ _ _⟩
  case initializationBlock =>
    intro info xtype stmts ih inLoop s h
    simp only [walk]
    exact ih false s h.2.parsedAll
  case block =>
    intro info stmts ih inLoop s h
    simp only [walk]
    obtain ⟨hframe, hfound⟩ := ih inLoop { s with environment := pass.enterBlock s.environment } h
    obtain ⟨front, hfront⟩ := hframe.scope
    refine ⟨⟨⟨[], rfl⟩, hframe.past, fun hs => ?_, fun _ => rfl⟩, hfound⟩
    have hplaced := hframe.placed hs
    exact ⟨fun d hd => hplaced.visible d (hfront ▸ List.mem_append_right _ hd), hplaced.numbered⟩
  case ifThen =>
    intro info cond ifCase ih inLoop s h
    simp only [walk, occurrencesOf_append, List.mem_append]
    obtain ⟨hframe, hfound⟩ := ih inLoop s h.2
    refine ⟨⟨hframe.scope, hframe.past, hframe.placed, fun _ => hframe.kept h.1⟩, fun hs o ho => ?_⟩
    rcases ho with ho | ho
    · exact hs.occurrences _ _ _ o ho
    · exact hfound hs o ho
  case ifThenElse =>
    intro info cond ifCase elseCase ih ih' inLoop s h
    simp only [walk, occurrencesOf_append, List.mem_append]
    obtain ⟨hframe, hfound⟩ := ih inLoop s h.1.2
    obtain ⟨hframe', hfound'⟩ := ih' inLoop (pass.walk ifCase s).2 h.2.2
    rw [h.1.1] at hframe
    rw [h.2.1] at hframe'
    refine ⟨hframe.trans hframe', fun hs o ho => ?_⟩
    rcases ho with (ho | ho) | ho
    · exact hs.occurrences _ _ _ o ho
    · exact hfound hs o ho
    · exact hfound' (hframe.placed hs) o ho
  case whileStmt =>
    intro info cond stmt ih inLoop s h
    simp only [walk, occurrencesOf_append, List.mem_append]
    obtain ⟨hframe, hfound⟩ := ih true s h.2
    refine ⟨⟨hframe.scope, hframe.past, hframe.placed, fun _ => hframe.kept h.1⟩, fun hs o ho => ?_⟩
    rcases ho with ho | ho
    · exact hs.occurrences _ _ _ o ho
    · exact hfound hs o ho
  case nil =>
    intro inLoop s h
    exact ⟨Frame.refl _ s, fun _ _ ho => absurd ho List.not_mem_nil⟩
  case cons =>
    intro stmt stmts ih ih' inLoop s h
    simp only [walkAll, occurrencesOf_append, List.mem_append]
    obtain ⟨hframe, hfound⟩ := ih inLoop s h.1
    obtain ⟨hframe', hfound'⟩ := ih' inLoop (pass.walk stmt s).2 h.2
    refine ⟨⟨(hframe.trans hframe').scope, (hframe.trans hframe').past, (hframe.trans hframe').placed, Bool.noConfusion⟩,
      fun hs o ho => ?_⟩
    rcases ho with ho | ho
    · exact hfound hs o ho
    · exact hfound' (hframe.placed hs) o ho

end Pass

/-! ## Declarations in loops -/

/-- The declarations that are added are variables. -/
def AddsVariables (s t : State) : Prop := ∃ front, t.past = front ++ s.past ∧ ∀ d ∈ front, d.kind = .var

theorem AddsVariables.refl (s : State) : AddsVariables s s := ⟨[], rfl, nofun⟩

theorem AddsVariables.trans {u : State} (h : AddsVariables s t) (h' : AddsVariables t u) : AddsVariables s u := by
  obtain ⟨front, hfront, hvar⟩ := h
  obtain ⟨front', hfront', hvar'⟩ := h'
  refine ⟨front' ++ front, by rw [hfront', hfront, List.append_assoc], fun d hd => ?_⟩
  rcases List.mem_append.mp hd with hd | hd
  · exact hvar' d hd
  · exact hvar d hd

/-- A component that is the latest one after such a statement was it before. -/
theorem AddsVariables.latestComponent (h : AddsVariables s t) (name : String) :
    latest t.past name .component = latest s.past name .component := by
  obtain ⟨front, hfront, hvar⟩ := h
  have hnone : latest front name .component = none :=
    latest_eq_none.mpr fun d hd _ hkind => nomatch hkind.symm.trans (hvar d hd)
  rw [hfront, latest_append, hnone, Option.none_or]

namespace Pass

theorem addsVariables_initializations (pass : Pass)
    (h : ParsedInitializations true .var stmts) (s : State) : AddsVariables s (pass.walkAll stmts s).2 := by
  induction stmts generalizing s with
  | nil => exact AddsVariables.refl s
  | cons stmt stmts ih =>
    simp only [walkAll]
    cases stmt with
    | declaration info xtype name dimensions isConstant isAnonymous =>
      obtain ⟨hvar, h⟩ := h
      obtain rfl := hvar rfl
      have hone : AddsVariables s (pass.walk (.declaration info .var name dimensions isConstant isAnonymous) s).2 := by
        refine ⟨[s.next name .var], rfl, fun d hd => ?_⟩
        rw [List.mem_singleton.mp hd]
        rfl
      exact hone.trans (ih h _)
    | _ => exact AddsVariables.trans ⟨[], (compound_spec.1 _ h.1 false true).2.2 pass s, nofun⟩ (ih h.2 _)

/-- In loops only variables are declared. -/
theorem walk_addsVariables (pass : Pass) :
    (∀ (stmt : Statement) (s : State), Parsed true stmt → treatStatement false stmt = [] →
      AddsVariables s (pass.walk stmt s).2) ∧
    ∀ (stmts : List Statement) (s : State), ParsedAll true stmts → treatStatements false stmts = [] →
      AddsVariables s (pass.walkAll stmts s).2 := by
  apply body_induction
  case simple =>
    intro stmt hstmt s _ _
    rw [walk_simple pass hstmt]
    exact AddsVariables.refl s
  case declaration =>
    intro info xtype name dimensions isConstant isAnonymous s h _
    exact absurd h (by simp [Parsed])
  case initializationBlock =>
    intro info xtype stmts _ s h hcorrect
    have hwire : isWire xtype = false := by
      by_contra hwire
      simp [treatStatement, hwire] at hcorrect
    have hvar : xtype = .var := by
      have hanonymous := h.1 rfl
      cases xtype with
      | var => rfl
      | anonymousComponent => exact absurd rfl hanonymous
      | signal | component | bus => cases hwire
    subst hvar
    exact addsVariables_initializations pass h.2 s
  case block =>
    intro info stmts ih s h hcorrect
    obtain ⟨front, hfront, hvar⟩ := ih { s with environment := pass.enterBlock s.environment } h hcorrect
    exact ⟨front, hfront, hvar⟩
  case ifThen =>
    intro info cond ifCase ih s h hcorrect
    exact ih s h.2 hcorrect
  case ifThenElse =>
    intro info cond ifCase elseCase ih ih' s h hcorrect
    obtain ⟨hif, helse⟩ := List.append_eq_nil_iff.mp hcorrect
    exact (ih s h.1.2 hif).trans (ih' _ h.2.2 helse)
  case whileStmt =>
    intro info cond stmt ih s h hcorrect
    exact ih s h.2 hcorrect
  case nil =>
    intro s _ _
    exact AddsVariables.refl s
  case cons =>
    intro stmt stmts ih ih' s h hcorrect
    obtain ⟨hstmt, hstmts⟩ := List.append_eq_nil_iff.mp hcorrect
    exact (ih s h.1 hstmt).trans (ih' _ h.2 hstmts)

end Pass

/-! ## The tables -/

/-- The latest declaration with a type of signal. -/
def latestOfType (wireType : SignalType → SignalType) (declared : List Declared) (name : String) (kind : SymbolKind)
    (type : SignalType) : Option Declared :=
  declared.find? fun d => d.name = name ∧ d.kind = kind ∧ d.signalType.map wireType = some type

/-- The tables have the latest declarations. -/
structure Tables (wireType : SignalType → SignalType) (environment : Environment) (past : List Declared) : Prop where
  components : ∀ name, environment.components.lookup name = latest past name .component
  signals : ∀ name type, (environment.signals.table type).lookup name = latestOfType wireType past name .signal type
  buses : ∀ name type, (environment.buses.table type).lookup name = latestOfType wireType past name .bus type

theorem latestOfType_cons (wireType : SignalType → SignalType) (d : Declared) (declared : List Declared)
    (name : String) (kind : SymbolKind) (type : SignalType) :
    latestOfType wireType (d :: declared) name kind type =
      if name = d.name ∧ kind = d.kind ∧ d.signalType.map wireType = some type then some d
      else latestOfType wireType declared name kind type := by
  unfold latestOfType
  rw [List.find?_cons]
  by_cases h : d.name = name ∧ d.kind = kind ∧ d.signalType.map wireType = some type
  · rw [if_pos ⟨h.1.symm, h.2.1.symm, h.2.2⟩, decide_eq_true h]
  · rw [if_neg (fun h' => h ⟨h'.1.symm, h'.2.1.symm, h'.2.2⟩), decide_eq_false h]

theorem latest_cons_of_ne (h : kind ≠ d.kind) (declared : List Declared)
    (name : String) : latest (d :: declared) name kind = latest declared name kind := by
  rw [latest_cons, if_neg fun h' => h h'.2]

theorem latestOfType_cons_of_ne {wireType : SignalType → SignalType} (h : kind ≠ d.kind) (declared : List Declared)
    (name : String) (type : SignalType) :
    latestOfType wireType (d :: declared) name kind type = latestOfType wireType declared name kind type := by
  rw [latestOfType_cons, if_neg fun h' => h h'.2.1]

namespace Pass

/-- The tables into which a pass puts the signals and buses. -/
def wireType : Pass → SignalType → SignalType
  | typeReduction, _ => .intermediate
  | typeCheck, type => type

theorem declare_eq (pass : Pass) (environment : Environment) (d : Declared) :
    pass.declare environment d =
      match d.xtype with
      | .var => environment.addVariable d.name d
      | .component => environment.addComponent d.name d
      | .anonymousComponent => environment.addComponent d.name d
      | .bus _ type _ => environment.addBus (pass.wireType type) d.name d
      | .signal type _ => environment.addSignal (pass.wireType type) d.name d := by
  cases pass
  · show reduceTypesInDeclaration environment d = _
    unfold reduceTypesInDeclaration
    cases d.xtype <;> rfl
  · show typeDeclaration environment d = _
    unfold typeDeclaration
    cases d.xtype <;> rfl

/-- A declaration goes to the table that it is the latest of. -/
theorem tables_declare (pass : Pass) (h : Tables pass.wireType environment past) (d : Declared) :
    Tables pass.wireType (pass.declare environment d) (d :: past) := by
  obtain ⟨dname, xtype, number⟩ := d
  rw [declare_eq]
  have hinsert (type type' : SignalType) (name : String) :
      name = dname ∧ type = type' ↔ name = dname ∧ type' = type := by rw [@eq_comm _ type]
  cases xtype with
  | var =>
    refine ⟨fun name => ?_, fun name type => ?_, fun name type => ?_⟩
    · exact (h.components name).trans (latest_cons_of_ne (by simp [Declared.kind]) past name).symm
    · exact (h.signals name type).trans (latestOfType_cons_of_ne (by simp [Declared.kind]) past name type).symm
    · exact (h.buses name type).trans (latestOfType_cons_of_ne (by simp [Declared.kind]) past name type).symm
  | component | anonymousComponent =>
    refine ⟨fun name => ?_, fun name type => ?_, fun name type => ?_⟩
    · rw [latest_cons, ← h.components]
      by_cases hname : name = dname
      · subst hname
        simp [RawEnvironment.addComponent, Declared.kind]
      · simp [RawEnvironment.addComponent, hname]
    · exact (h.signals name type).trans (latestOfType_cons_of_ne (by simp [Declared.kind]) past name type).symm
    · exact (h.buses name type).trans (latestOfType_cons_of_ne (by simp [Declared.kind]) past name type).symm
  | signal type' tags =>
    refine ⟨fun name => ?_, fun name type => ?_, fun name type => ?_⟩
    · exact (h.components name).trans (latest_cons_of_ne (by simp [Declared.kind]) past name).symm
    · rw [latestOfType_cons, ← h.signals]
      show ((environment.signals.add _ _ _).table type).lookup name = _
      rw [Wires.lookup_table_add]
      simp only [Declared.kind, Declared.signalType, hinsert, Option.map_some, Option.some.injEq, true_and]
    · exact (h.buses name type).trans (latestOfType_cons_of_ne (by simp [Declared.kind]) past name type).symm
  | bus id type' tags =>
    refine ⟨fun name => ?_, fun name type => ?_, fun name type => ?_⟩
    · exact (h.components name).trans (latest_cons_of_ne (by simp [Declared.kind]) past name).symm
    · exact (h.signals name type).trans (latestOfType_cons_of_ne (by simp [Declared.kind]) past name type).symm
    · rw [latestOfType_cons, ← h.buses]
      show ((environment.buses.add _ _ _).table type).lookup name = _
      rw [Wires.lookup_table_add]
      simp only [Declared.kind, Declared.signalType, hinsert, Option.map_some, Option.some.injEq, true_and]

/-- The declarations that are in the tables when a name is looked up. -/
def before : Pass → Occurrence → List Declared
  | typeReduction, o => o.pastWithOwn
  | typeCheck, o => o.past

theorem tables_blocks (pass : Pass) :
    (Tables pass.wireType (pass.enterBlock environment) past ↔ Tables pass.wireType environment past) ∧
      (Tables pass.wireType (pass.leaveBlock environment) past ↔ Tables pass.wireType environment past) := by
  cases pass
  · exact ⟨Iff.rfl, Iff.rfl⟩
  · exact ⟨⟨fun h => ⟨h.components, h.signals, h.buses⟩, fun h => ⟨h.components, h.signals, h.buses⟩⟩,
      fun h => ⟨h.components, h.signals, h.buses⟩, fun h => ⟨h.components, h.signals, h.buses⟩⟩

theorem tables_lookups (pass : Pass) (h : Tables pass.wireType s.environment s.past) (names : List (String × Bool)) :
    ∀ l ∈ s.lookups names, Tables pass.wireType l.environment (pass.before l.occurrence) := by
  intro l hl
  obtain ⟨name, -, rfl⟩ := List.mem_map.mp hl
  cases pass <;> exact h

/-- Every name is looked up in the tables of what stands before. -/
theorem walk_tables (pass : Pass) :
    (∀ (stmt : Statement) (s : State), Tables pass.wireType s.environment s.past →
      Tables pass.wireType (pass.walk stmt s).2.environment (pass.walk stmt s).2.past ∧
        ∀ l ∈ (pass.walk stmt s).1, Tables pass.wireType l.environment (pass.before l.occurrence)) ∧
    ∀ (stmts : List Statement) (s : State), Tables pass.wireType s.environment s.past →
      Tables pass.wireType (pass.walkAll stmts s).2.environment (pass.walkAll stmts s).2.past ∧
        ∀ l ∈ (pass.walkAll stmts s).1, Tables pass.wireType l.environment (pass.before l.occurrence) := by
  apply body_induction
  case simple =>
    intro stmt hstmt s h
    rw [walk_simple pass hstmt]
    exact ⟨h, pass.tables_lookups h _⟩
  case declaration =>
    intro info xtype name dimensions isConstant isAnonymous s h
    simp only [walk]
    refine ⟨pass.tables_declare h _, fun l hl => ?_⟩
    obtain ⟨symbol, -, rfl⟩ := List.mem_map.mp hl
    cases pass
    · exact typeReduction.tables_declare h _
    · exact h
  case initializationBlock =>
    intro info xtype stmts ih s h
    exact ih s h
  case block =>
    intro info stmts ih s h
    obtain ⟨htables, hfound⟩ := ih { s with environment := pass.enterBlock s.environment } (pass.tables_blocks.1.mpr h)
    exact ⟨pass.tables_blocks.2.mpr htables, hfound⟩
  case ifThen =>
    intro info cond ifCase ih s h
    simp only [walk, List.mem_append]
    obtain ⟨htables, hfound⟩ := ih s h
    refine ⟨htables, fun l hl => ?_⟩
    rcases hl with hl | hl
    · exact pass.tables_lookups h _ l hl
    · exact hfound l hl
  case ifThenElse =>
    intro info cond ifCase elseCase ih ih' s h
    simp only [walk, List.mem_append]
    obtain ⟨htables, hfound⟩ := ih s h
    obtain ⟨htables', hfound'⟩ := ih' _ htables
    refine ⟨htables', fun l hl => ?_⟩
    rcases hl with (hl | hl) | hl
    · exact pass.tables_lookups h _ l hl
    · exact hfound l hl
    · exact hfound' l hl
  case whileStmt =>
    intro info cond stmt ih s h
    simp only [walk, List.mem_append]
    obtain ⟨htables, hfound⟩ := ih s h
    refine ⟨htables, fun l hl => ?_⟩
    rcases hl with hl | hl
    · exact pass.tables_lookups h _ l hl
    · exact hfound l hl
  case nil =>
    intro s h
    exact ⟨h, fun _ hl => absurd hl List.not_mem_nil⟩
  case cons =>
    intro stmt stmts ih ih' s h
    simp only [walkAll, List.mem_append]
    obtain ⟨htables, hfound⟩ := ih s h
    obtain ⟨htables', hfound'⟩ := ih' _ htables
    refine ⟨htables', fun l hl => ?_⟩
    rcases hl with hl | hl
    · exact hfound l hl
    · exact hfound' l hl

end Pass

/-! ## The blocks of variables -/

/-- A block has the latest variables of its declarations. -/
def Holds (block : HashMap String Declared) (declared : List Declared) : Prop :=
  ∀ name, block.lookup name = latest declared name .var

/-- The blocks of an environment for the blocks of declarations. -/
abbrev Stack (vars : Variables Declared) (blocks : List (List Declared)) : Prop := List.Forall₂ Holds vars blocks

theorem Stack.getVariable (h : Stack vars blocks)
    (name : String) : vars.getVariable name = latest blocks.flatten name .var := by
  induction h with
  | nil => rfl
  | cons hblock _ ih =>
    rw [List.flatten_cons, latest_append, ← hblock name, ← ih]
    unfold Variables.getVariable
    rw [List.findSome?_cons]
    cases AList.lookup name _ <;> rfl

theorem Stack.enter (h : Stack vars blocks) :
    Stack vars.addVariableBlock ([] :: blocks) := List.Forall₂.cons (fun _ => rfl) h

theorem Stack.leave (h : Stack vars (block :: blocks)) : Stack vars.removeVariableBlock blocks := by
  cases h with
  | cons _ h => exact h

theorem Stack.addVariable (h : Stack vars (block :: blocks)) (hd : d.kind = .var) :
    Stack (vars.addVariable d.name d) ((d :: block) :: blocks) := by
  cases h with
  | cons hblock h =>
    refine List.Forall₂.cons (fun name => ?_) h
    rw [latest_cons, hd]
    by_cases hname : name = d.name
    · rw [if_pos ⟨hname, rfl⟩, hname, AList.lookup_insert]
    · rw [if_neg fun h' => hname h'.1, AList.lookup_insert_ne hname, hblock]

/-- Symbols that are no variables are not in the blocks. -/
theorem Stack.other (h : Stack vars (block :: blocks)) (hd : d.kind ≠ .var) : Stack vars ((d :: block) :: blocks) := by
  cases h with
  | cons hblock h =>
    exact List.Forall₂.cons (fun name => (hblock name).trans (latest_cons_of_ne hd.symm block name).symm) h

theorem Stack.declare (pass : Pass) (h : Stack environment.vars (block :: blocks)) (d : Declared) :
    Stack (pass.declare environment d).vars ((d :: block) :: blocks) := by
  rw [Pass.declare_eq]
  obtain ⟨name, xtype, number⟩ := d
  cases xtype with
  | var => exact h.addVariable (d := ⟨name, .var, number⟩) rfl
  | signal | component | anonymousComponent | bus => exact h.other (by simp [Declared.kind])

/-- The merge of two stacks for the same declarations. -/
theorem Stack.merge {left right : Variables Declared} (h : Stack left blocks)
    (h' : Stack right blocks) : Stack (left.merge right fun d _ => d) blocks := by
  induction h generalizing right with
  | nil =>
    cases h'
    exact List.Forall₂.nil
  | cons hblock _ ih =>
    cases h' with
    | cons hblock' h' =>
      refine List.Forall₂.cons (fun name => ?_) (ih h')
      rw [ProgramStructure.lookup_hashmapUnion, hblock, hblock']
      cases latest _ name .var <;> rfl

/-- A name is looked up in blocks with the visible variables. -/
def FindsVariables (scope : List Declared) (environment : Environment) : Prop :=
  ∀ name, environment.getVariable name = latest scope name .var

namespace Pass

theorem finds_lookups (h : FindsVariables s.scope s.environment) (names : List (String × Bool)) :
    ∀ l ∈ s.lookups names, FindsVariables l.occurrence.scope l.environment := by
  intro l hl
  obtain ⟨name, -, rfl⟩ := List.mem_map.mp hl
  exact h

/-- Type check looks the names up among the visible variables. -/
theorem walk_stack :
    (∀ (stmt : Statement) (s : State) (block : List Declared) (blocks : List (List Declared)),
      s.scope = block ++ blocks.flatten → Stack s.environment.vars (block :: blocks) →
      (∃ block', (typeCheck.walk stmt s).2.scope = block' ++ blocks.flatten ∧
        Stack (typeCheck.walk stmt s).2.environment.vars (block' :: blocks)) ∧
        ∀ l ∈ (typeCheck.walk stmt s).1, FindsVariables l.occurrence.scope l.environment) ∧
    ∀ (stmts : List Statement) (s : State) (block : List Declared) (blocks : List (List Declared)),
      s.scope = block ++ blocks.flatten → Stack s.environment.vars (block :: blocks) →
      (∃ block', (typeCheck.walkAll stmts s).2.scope = block' ++ blocks.flatten ∧
        Stack (typeCheck.walkAll stmts s).2.environment.vars (block' :: blocks)) ∧
        ∀ l ∈ (typeCheck.walkAll stmts s).1, FindsVariables l.occurrence.scope l.environment := by
  have hfinds {s : State} {block : List Declared} {blocks : List (List Declared)}
      (hscope : s.scope = block ++ blocks.flatten) (h : Stack s.environment.vars (block :: blocks)) :
      FindsVariables s.scope s.environment := by
    intro name
    rw [hscope]
    exact h.getVariable name
  apply body_induction
  case simple =>
    intro stmt hstmt s block blocks hscope h
    rw [walk_simple _ hstmt]
    exact ⟨⟨block, hscope, h⟩, finds_lookups (hfinds hscope h) _⟩
  case declaration =>
    intro info xtype name dimensions isConstant isAnonymous s block blocks hscope h
    simp only [walk]
    refine ⟨⟨s.next name xtype :: block, congrArg (List.cons _) hscope, h.declare typeCheck _⟩, fun l hl => ?_⟩
    obtain ⟨symbol, -, rfl⟩ := List.mem_map.mp hl
    exact hfinds hscope h
  case initializationBlock =>
    intro info xtype stmts ih s block blocks hscope h
    exact ih s block blocks hscope h
  case block =>
    intro info stmts ih s block blocks hscope h
    obtain ⟨⟨block', hscope', h'⟩, hfound⟩ :=
      ih { s with environment := typeCheck.enterBlock s.environment } [] (block :: blocks) hscope h.enter
    exact ⟨⟨block, hscope, h'.leave⟩, hfound⟩
  case ifThen =>
    intro info cond ifCase ih s block blocks hscope h
    simp only [walk, List.mem_append]
    obtain ⟨hstack, hfound⟩ := ih s block blocks hscope h
    refine ⟨hstack, fun l hl => ?_⟩
    rcases hl with hl | hl
    · exact finds_lookups (hfinds hscope h) _ l hl
    · exact hfound l hl
  case ifThenElse =>
    intro info cond ifCase elseCase ih ih' s block blocks hscope h
    simp only [walk, List.mem_append]
    obtain ⟨⟨block', hscope', h'⟩, hfound⟩ := ih s block blocks hscope h
    obtain ⟨hstack, hfound'⟩ := ih' _ block' blocks hscope' h'
    refine ⟨hstack, fun l hl => ?_⟩
    rcases hl with (hl | hl) | hl
    · exact finds_lookups (hfinds hscope h) _ l hl
    · exact hfound l hl
    · exact hfound' l hl
  case whileStmt =>
    intro info cond stmt ih s block blocks hscope h
    simp only [walk, List.mem_append]
    obtain ⟨hstack, hfound⟩ := ih s block blocks hscope h
    refine ⟨hstack, fun l hl => ?_⟩
    rcases hl with hl | hl
    · exact finds_lookups (hfinds hscope h) _ l hl
    · exact hfound l hl
  case nil =>
    intro s block blocks hscope h
    exact ⟨⟨block, hscope, h⟩, fun _ hl => absurd hl List.not_mem_nil⟩
  case cons =>
    intro stmt stmts ih ih' s block blocks hscope h
    simp only [walkAll, List.mem_append]
    obtain ⟨⟨block', hscope', h'⟩, hfound⟩ := ih s block blocks hscope h
    obtain ⟨hstack, hfound'⟩ := ih' _ block' blocks hscope' h'
    refine ⟨hstack, fun l hl => ?_⟩
    rcases hl with hl | hl
    · exact hfound l hl
    · exact hfound' l hl

end Pass

/-! ## The known/unknown analysis -/

open Pass (typeCheck typeReduction)

theorem subset_of_eq {l l' : List Occurrence} (h : l = l') : l ⊆ l' := h ▸ List.Subset.refl l

theorem append_subset_append {l l' k k' : List Occurrence} (h : l ⊆ l') (h' : k ⊆ k') : l ++ k ⊆ l' ++ k' :=
  List.append_subset.mpr ⟨List.subset_append_of_subset_left k' h, List.subset_append_of_subset_right l' h'⟩

theorem analyzes_simple (hstmt : isSimple stmt = true) :
    Analyzes stmt s found s' ↔ found = s.lookups (statementSymbols stmt) ∧ s' = s := by
  cases stmt <;> first | rfl | cases hstmt

/-- The analysis goes through the places of the body. -/
theorem analyzes_samePlace :
    (∀ (stmt : Statement) (s t s' : State) (found : List Lookup), s.SamePlace t → Analyzes stmt s found s' →
      s'.SamePlace (typeCheck.walk stmt t).2 ∧
        occurrencesOf found ⊆ occurrencesOf (typeCheck.walk stmt t).1) ∧
    ∀ (stmts : List Statement) (s t s' : State) (found : List Lookup), s.SamePlace t → AnalyzesAll stmts s found s' →
      s'.SamePlace (typeCheck.walkAll stmts t).2 ∧
        occurrencesOf found ⊆ occurrencesOf (typeCheck.walkAll stmts t).1 := by
  apply body_induction
  case simple =>
    intro stmt hstmt s t s' found hplace h
    obtain ⟨rfl, rfl⟩ := (analyzes_simple hstmt).mp h
    rw [Pass.walk_simple _ hstmt]
    exact ⟨hplace, (subset_of_eq (hplace.lookups _))⟩
  case declaration =>
    intro info xtype name dimensions isConstant isAnonymous s t s' found hplace h
    obtain ⟨rfl, rfl⟩ := h
    simp only [Pass.walk, hplace.next, hplace.scope, hplace.past]
    exact ⟨hplace.declare .., subset_of_eq (occurrencesOf_lookups ..)⟩
  case initializationBlock =>
    intro info xtype stmts ih s t s' found hplace h
    exact ih s t s' found hplace h
  case block =>
    intro info stmts ih s t s' found hplace h
    obtain ⟨u, h, rfl⟩ := h
    obtain ⟨hplace', hfound⟩ := ih { s with environment := s.environment.addVariableBlock }
      { t with environment := typeCheck.enterBlock t.environment } u found ⟨hplace.scope, hplace.past⟩ h
    exact ⟨⟨hplace.scope, hplace'.past⟩, hfound⟩
  case ifThen =>
    intro info cond ifCase ih s t s' found hplace h
    obtain ⟨found', u, h, rfl, rfl⟩ := h
    obtain ⟨hplace', hfound⟩ := ih s t u found' hplace h
    simp only [Pass.walk, occurrencesOf_append]
    exact ⟨⟨hplace'.scope, hplace'.past⟩, append_subset_append (subset_of_eq (hplace.lookups _)) hfound⟩
  case ifThenElse =>
    intro info cond ifCase elseCase ih ih' s t s' found hplace h
    obtain ⟨found', u, found'', u', h, h', rfl, rfl⟩ := h
    obtain ⟨hplace', hfound⟩ := ih s t u found' hplace h
    obtain ⟨hplace'', hfound'⟩ := ih' { u with environment := s.environment } _ u' found''
      ⟨hplace'.scope, hplace'.past⟩ h'
    simp only [Pass.walk, occurrencesOf_append]
    exact ⟨⟨hplace''.scope, hplace''.past⟩,
      append_subset_append (append_subset_append (subset_of_eq (hplace.lookups _)) hfound) hfound'⟩
  case whileStmt =>
    intro info cond stmt ih s t s' found hplace h
    obtain ⟨found', hrounds, rfl⟩ := h
    have hround : s'.SamePlace (typeCheck.walk stmt t).2 ∧
        occurrencesOf found' ⊆ occurrencesOf (typeCheck.walk stmt t).1 := by
      clear * - hrounds hplace ih
      induction hrounds with
      | last h => exact ih _ t _ _ hplace h
      | again h _ ihRounds =>
        obtain ⟨hplace', hfound'⟩ := ihRounds ⟨hplace.scope, hplace.past⟩
        rw [occurrencesOf_append]
        exact ⟨hplace', List.append_subset.mpr ⟨(ih _ t _ _ hplace h).2, hfound'⟩⟩
    simp only [Pass.walk, occurrencesOf_append]
    refine ⟨hround.1, List.append_subset.mpr ⟨?_, ?_⟩⟩
    · exact List.subset_append_of_subset_right _ hround.2
    · refine List.subset_append_of_subset_left _ ?_
      exact subset_of_eq ((occurrencesOf_lookups ..).trans (hplace.lookups (symbols cond)))
  case nil =>
    intro s t s' found hplace h
    obtain ⟨rfl, rfl⟩ := h
    exact ⟨hplace, List.Subset.refl _⟩
  case cons =>
    intro stmt stmts ih ih' s t s' found hplace h
    obtain ⟨found', u, found'', h, h', rfl⟩ := h
    obtain ⟨hplace', hfound⟩ := ih s t u found' hplace h
    obtain ⟨hplace'', hfound'⟩ := ih' u _ s' found'' hplace' h'
    simp only [Pass.walkAll, occurrencesOf_append]
    exact ⟨hplace'', append_subset_append hfound hfound'⟩

/-- There is a run that looks up all names: it analyses every loop once. -/
theorem exists_analyzes :
    (∀ (stmt : Statement) (s t : State), s.SamePlace t → ∃ found s', Analyzes stmt s found s' ∧
      occurrencesOf (typeCheck.walk stmt t).1 ⊆ occurrencesOf found) ∧
    ∀ (stmts : List Statement) (s t : State), s.SamePlace t → ∃ found s', AnalyzesAll stmts s found s' ∧
      occurrencesOf (typeCheck.walkAll stmts t).1 ⊆ occurrencesOf found := by
  apply body_induction
  case simple =>
    intro stmt hstmt s t hplace
    rw [Pass.walk_simple _ hstmt]
    exact ⟨_, _, (analyzes_simple hstmt).mpr ⟨rfl, rfl⟩, (subset_of_eq (hplace.lookups _).symm)⟩
  case declaration =>
    intro info xtype name dimensions isConstant isAnonymous s t hplace
    refine ⟨_, _, ⟨rfl, rfl⟩, ?_⟩
    simp only [Pass.walk, hplace.next, hplace.scope, hplace.past]
    exact subset_of_eq (occurrencesOf_lookups ..)
  case initializationBlock =>
    intro info xtype stmts ih s t hplace
    exact ih s t hplace
  case block =>
    intro info stmts ih s t hplace
    obtain ⟨found, u, h, hfound⟩ := ih { s with environment := s.environment.addVariableBlock }
      { t with environment := typeCheck.enterBlock t.environment } ⟨hplace.scope, hplace.past⟩
    exact ⟨found, _, ⟨u, h, rfl⟩, hfound⟩
  case ifThen =>
    intro info cond ifCase ih s t hplace
    obtain ⟨found, u, h, hfound⟩ := ih s t hplace
    refine ⟨_, _, ⟨found, u, h, rfl, rfl⟩, ?_⟩
    simp only [Pass.walk, occurrencesOf_append]
    exact append_subset_append (subset_of_eq (hplace.lookups _).symm) hfound
  case ifThenElse =>
    intro info cond ifCase elseCase ih ih' s t hplace
    obtain ⟨found, u, h, hfound⟩ := ih s t hplace
    obtain ⟨hplace', -⟩ := analyzes_samePlace.1 ifCase s t u found hplace h
    obtain ⟨found', u', h', hfound'⟩ := ih' { u with environment := s.environment } (typeCheck.walk ifCase t).2
      ⟨hplace'.scope, hplace'.past⟩
    refine ⟨_, _, ⟨found, u, found', u', h, h', rfl, rfl⟩, ?_⟩
    simp only [Pass.walk, occurrencesOf_append]
    exact append_subset_append (append_subset_append (subset_of_eq (hplace.lookups _).symm) hfound) hfound'
  case whileStmt =>
    intro info cond stmt ih s t hplace
    obtain ⟨found, u, h, hfound⟩ := ih s t hplace
    refine ⟨_, u, ⟨found, Rounds.last h, rfl⟩, ?_⟩
    simp only [Pass.walk, occurrencesOf_append]
    refine List.append_subset.mpr ⟨?_, ?_⟩
    · refine List.subset_append_of_subset_right _ ?_
      exact subset_of_eq ((hplace.lookups (symbols cond)).symm.trans (occurrencesOf_lookups ..))
    · exact List.subset_append_of_subset_left _ hfound
  case nil =>
    intro s t _
    exact ⟨[], s, ⟨rfl, rfl⟩, List.Subset.refl _⟩
  case cons =>
    intro stmt stmts ih ih' s t hplace
    obtain ⟨found, u, h, hfound⟩ := ih s t hplace
    obtain ⟨hplace', -⟩ := analyzes_samePlace.1 stmt s t u found hplace h
    obtain ⟨found', u', h', hfound'⟩ := ih' u (typeCheck.walk stmt t).2 hplace'
    refine ⟨_, u', ⟨found, u, found', h, h', rfl⟩, ?_⟩
    simp only [Pass.walkAll, occurrencesOf_append]
    exact append_subset_append hfound hfound'

/-- The component that was declared last is in the table while it is visible. -/
def KeepsComponents (s : State) : Prop :=
  ∀ name d, latest s.past name .component = some d → d ∈ s.scope → s.environment.getComponent name = some d

/-- The state in the blocks. -/
structure InBlocks (s : State) (block : List Declared) (blocks : List (List Declared)) : Prop where
  placed : WellPlaced s.scope s.past
  scope : s.scope = block ++ blocks.flatten
  vars : Stack s.environment.vars (block :: blocks)
  components : KeepsComponents s

theorem InBlocks.findsVariables (h : InBlocks s block blocks) : FindsVariables s.scope s.environment := by
  intro name
  rw [h.scope]
  exact h.vars.getVariable name

/-- What is found for a name: the latest variable that is visible, and the latest component if it is visible. -/
structure Lookup.Finds (l : Lookup) : Prop where
  vars : FindsVariables (l.occurrence.dimensionOf.toList ++ l.occurrence.scope) l.environment
  components : ∀ name d, latest l.occurrence.pastWithOwn name .component = some d → d ∈ l.occurrence.scope →
    l.environment.getComponent name = some d

theorem InBlocks.finds
    (h : InBlocks s block blocks) (names : List (String × Bool)) : ∀ l ∈ s.lookups names, l.Finds := by
  intro l hl
  obtain ⟨name, -, rfl⟩ := List.mem_map.mp hl
  exact ⟨h.findsVariables, h.components⟩

theorem keepsComponents_declare (h : KeepsComponents s) (d : Declared) :
    KeepsComponents (s.declare d (typeReduction.declare s.environment d)) := by
  obtain ⟨dname, xtype, number⟩ := d
  intro name e hlatest hvisible
  -- a declaration that is no component leaves the table
  have hother (hkind : (SymbolKind.component) ≠ Declared.kind ⟨dname, xtype, number⟩) :
      s.environment.getComponent name = some e := by
    have hbefore : latest s.past name .component = some e := (latest_cons_of_ne hkind _ _).symm.trans hlatest
    refine h name e hbefore ?_
    rcases List.mem_cons.mp hvisible with rfl | hvisible
    · exact absurd (latest_eq_some hbefore).2.2.symm hkind
    · exact hvisible
  rw [Pass.declare_eq]
  cases xtype with
  | var => exact hother (by simp [Declared.kind])
  | signal => exact hother (by simp [Declared.kind])
  | bus => exact hother (by simp [Declared.kind])
  | component | anonymousComponent =>
    replace hlatest := (latest_cons _ _ _ _).symm.trans hlatest
    by_cases hname : name = dname
    · subst hname
      rw [if_pos ⟨rfl, rfl⟩] at hlatest
      cases hlatest
      exact AList.lookup_insert _
    · rw [if_neg fun h' => hname h'.1] at hlatest
      refine (AList.lookup_insert_ne hname).trans (h name e hlatest ?_)
      rcases List.mem_cons.mp hvisible with rfl | hvisible
      · exact absurd (latest_eq_some hlatest).2.1.symm hname
      · exact hvisible

/-- A component that was declared last and was visible before a statement is in the table there. -/
theorem KeepsComponents.before (h : KeepsComponents s) (hplaced : WellPlaced s.scope s.past)
    (hnumbered : Numbered t.past) (hpast : ∃ front, t.past = front ++ s.past)
    (hlatest : latest t.past name .component = some d) (hvisible : d ∈ s.scope) :
    s.environment.getComponent name = some d := by
  obtain ⟨front, hfront⟩ := hpast
  rw [hfront] at hlatest hnumbered
  exact h name d (hnumbered.latest_before hlatest (hplaced.visible d hvisible)) hvisible

theorem getComponent_mergeBranches (left right : Environment) (name : String) :
    (mergeBranches left right).getComponent name = (right.getComponent name).or (left.getComponent name) :=
  ProgramStructure.lookup_extend ..

theorem ParsedInitializations.treatStatements {type : VariableType} (h : ParsedInitializations inLoop type stmts)
    (allowed : Bool) : SymbolAnalysis.treatStatements allowed stmts = [] := by
  induction stmts with
  | nil => rfl
  | cons stmt stmts ih =>
    cases stmt with
    | declaration => exact ih h.2
    | _ => rw [SymbolAnalysis.treatStatements, (compound_spec.1 _ h.1 false allowed).2.1, List.nil_append, ih h.2]

theorem Analyzes.frame
    (hparsed : Parsed inLoop stmt) (h : Analyzes stmt s found s') : Frame (isDeclaration stmt) s s' := by
  obtain ⟨hscope, hpast⟩ := (analyzes_samePlace.1 stmt s s s' found ⟨rfl, rfl⟩ h).1
  have hframe := ((Pass.walk_frame typeCheck).1 stmt inLoop s hparsed).1
  exact ⟨hscope ▸ hframe.scope, hpast ▸ hframe.past, by rw [hscope, hpast]; exact hframe.placed,
    hscope ▸ hframe.kept⟩

theorem Analyzes.addsVariables (hparsed : Parsed true stmt) (hcorrect : treatStatement false stmt = [])
    (h : Analyzes stmt s found s') : AddsVariables s s' := by
  obtain ⟨-, hpast⟩ := (analyzes_samePlace.1 stmt s s s' found ⟨rfl, rfl⟩ h).1
  obtain ⟨front, hfront, hvar⟩ := (Pass.walk_addsVariables typeCheck).1 stmt s hparsed hcorrect
  exact ⟨front, hpast.trans hfront, hvar⟩

/-- The analysis keeps the latest component as long as it is visible. -/
theorem analyzes_inBlocks :
    (∀ (stmt : Statement) (inLoop : Bool) (s s' : State) (found : List Lookup) (block : List Declared)
      (blocks : List (List Declared)), Parsed inLoop stmt → treatStatement (!inLoop) stmt = [] →
      InBlocks s block blocks → Analyzes stmt s found s' →
      (∃ block', InBlocks s' block' blocks ∧ (isDeclaration stmt = false → block' = block)) ∧
        ∀ l ∈ found, l.Finds) ∧
    ∀ (stmts : List Statement) (inLoop : Bool) (s s' : State) (found : List Lookup) (block : List Declared)
      (blocks : List (List Declared)), ParsedAll inLoop stmts → treatStatements (!inLoop) stmts = [] →
      InBlocks s block blocks → AnalyzesAll stmts s found s' →
      (∃ block', InBlocks s' block' blocks) ∧ ∀ l ∈ found, l.Finds := by
  apply body_induction
  case simple =>
    intro stmt hstmt inLoop s s' found block blocks _ _ hs h
    obtain ⟨rfl, rfl⟩ := (analyzes_simple hstmt).mp h
    exact ⟨⟨block, hs, fun _ => rfl⟩, hs.finds _⟩
  case declaration =>
    intro info xtype name dimensions isConstant isAnonymous inLoop s s' found block blocks _ _ hs h
    obtain ⟨rfl, rfl⟩ := h
    have hs' : InBlocks (s.declare (s.next name xtype) (typeReduction.declare s.environment (s.next name xtype)))
        (s.next name xtype :: block) blocks :=
      ⟨hs.placed.declare name xtype, congrArg (List.cons _) hs.scope, hs.vars.declare typeReduction _,
        keepsComponents_declare hs.components _⟩
    refine ⟨⟨_, hs', nofun⟩, fun l hl => ?_⟩
    obtain ⟨symbol, -, rfl⟩ := List.mem_map.mp hl
    exact ⟨hs'.findsVariables,
      fun name d hlatest hvisible => hs'.components name d hlatest (List.mem_cons_of_mem _ hvisible)⟩
  case initializationBlock =>
    intro info xtype stmts ih inLoop s s' found block blocks hparsed _ hs h
    obtain ⟨⟨block', hs'⟩, hfound⟩ := ih false s s' found block blocks hparsed.2.parsedAll
      (hparsed.2.treatStatements _) hs h
    exact ⟨⟨block', hs', nofun⟩, hfound⟩
  case block =>
    intro info stmts ih inLoop s s' found block blocks hparsed hcorrect hs h
    obtain ⟨t, h, rfl⟩ := h
    obtain ⟨⟨block', ht⟩, hfound⟩ := ih inLoop { s with environment := s.environment.addVariableBlock } t found []
      (block :: blocks) hparsed hcorrect ⟨hs.placed, hs.scope, hs.vars.enter, hs.components⟩ h
    have hsub : ∀ d ∈ s.scope, d ∈ t.scope := by
      intro d hd
      rw [ht.scope, List.flatten_cons, ← hs.scope]
      exact List.mem_append_right _ hd
    refine ⟨⟨block, ⟨⟨fun d hd => ht.placed.visible d (hsub d hd), ht.placed.numbered⟩, hs.scope, ht.vars.leave, ?_⟩,
      fun _ => rfl⟩, hfound⟩
    exact fun name d hlatest hvisible => ht.components name d hlatest (hsub d hvisible)
  case ifThen =>
    intro info cond ifCase ih inLoop s s' found block blocks hparsed hcorrect hs h
    obtain ⟨found', t, h, rfl, rfl⟩ := h
    have hframe := h.frame hparsed.2
    obtain ⟨⟨block', ht, hblock⟩, hfound⟩ := ih inLoop s t found' block blocks hparsed.2 hcorrect hs h
    rw [hblock hparsed.1] at ht
    refine ⟨⟨block, ⟨ht.placed, ht.scope, ht.vars.merge hs.vars, fun name d hlatest hvisible => ?_⟩, fun _ => rfl⟩,
      fun l hl => ?_⟩
    · have hvisible' : d ∈ s.scope := hframe.kept hparsed.1 ▸ hvisible
      rw [getComponent_mergeBranches,
        hs.components.before hs.placed ht.placed.numbered hframe.past hlatest hvisible', Option.some_or]
    · rcases List.mem_append.mp hl with hl | hl
      · exact hs.finds _ l hl
      · exact hfound l hl
  case ifThenElse =>
    intro info cond ifCase elseCase ih ih' inLoop s s' found block blocks hparsed hcorrect hs h
    obtain ⟨found', t, found'', u, h, h', rfl, rfl⟩ := h
    obtain ⟨hif, helse⟩ := List.append_eq_nil_iff.mp hcorrect
    have hframe := h.frame hparsed.1.2
    obtain ⟨⟨block', ht, hblock⟩, hfound⟩ := ih inLoop s t found' block blocks hparsed.1.2 hif hs h
    rw [hblock hparsed.1.1] at ht
    -- the second branch starts with the components from before the first one
    have hstart : InBlocks { t with environment := s.environment } block blocks := by
      refine ⟨ht.placed, ht.scope, hs.vars, fun name d hlatest hvisible => ?_⟩
      exact hs.components.before hs.placed ht.placed.numbered hframe.past hlatest
        (hframe.kept hparsed.1.1 ▸ hvisible)
    obtain ⟨⟨block'', hu, hblock'⟩, hfound'⟩ := ih' inLoop { t with environment := s.environment } u found'' block
      blocks hparsed.2.2 helse hstart h'
    rw [hblock' hparsed.2.1] at hu
    refine ⟨⟨block, ⟨hu.placed, hu.scope, ht.vars.merge hu.vars, fun name d hlatest hvisible => ?_⟩, fun _ => rfl⟩,
      fun l hl => ?_⟩
    · rw [getComponent_mergeBranches, hu.components name d hlatest hvisible, Option.some_or]
    · rcases List.mem_append.mp hl with hl | hl
      · rcases List.mem_append.mp hl with hl | hl
        · exact hs.finds _ l hl
        · exact hfound l hl
      · exact hfound' l hl
  case whileStmt =>
    intro info cond stmt ih inLoop s s' found block blocks hparsed hcorrect hs h
    obtain ⟨found', hrounds, rfl⟩ := h
    have hround : InBlocks s' block blocks ∧ AddsVariables s s' ∧ s'.scope = s.scope ∧ ∀ l ∈ found', l.Finds := by
      clear * - hrounds hparsed hcorrect hs ih
      induction hrounds with
      | @last s s' found h =>
        obtain ⟨⟨block', ht, hblock⟩, hfound⟩ := ih true s s' found block blocks hparsed.2 hcorrect hs h
        rw [hblock hparsed.1] at ht
        exact ⟨ht, h.addsVariables hparsed.2 hcorrect, (h.frame hparsed.2).kept hparsed.1, hfound⟩
      | @again s t s' found found' h _ ihRounds =>
        obtain ⟨⟨block', ht, hblock⟩, hfound⟩ := ih true s t found block blocks hparsed.2 hcorrect hs h
        rw [hblock hparsed.1] at ht
        have hstart : InBlocks { s with environment := t.environment } block blocks := by
          refine ⟨hs.placed, hs.scope, ht.vars, fun name d hlatest hvisible => ht.components name d ?_ ?_⟩
          · rw [(h.addsVariables hparsed.2 hcorrect).latestComponent name]
            exact hlatest
          · rw [(h.frame hparsed.2).kept hparsed.1]
            exact hvisible
        obtain ⟨hs', hadds, hscope, hfound'⟩ := ihRounds hstart
        refine ⟨hs', hadds, hscope, fun l hl => ?_⟩
        rcases List.mem_append.mp hl with hl | hl
        · exact hfound l hl
        · exact hfound' l hl
    obtain ⟨hs', hadds, hscope, hfound⟩ := hround
    refine ⟨⟨block, hs', fun _ => rfl⟩, fun l hl => ?_⟩
    rcases List.mem_append.mp hl with hl | hl
    · exact hfound l hl
    · obtain ⟨symbol, -, rfl⟩ := List.mem_map.mp hl
      refine ⟨hscope ▸ hs'.findsVariables, fun name d hlatest hvisible => hs'.components name d ?_ ?_⟩
      · rw [hadds.latestComponent name]
        exact hlatest
      · rw [hscope]
        exact hvisible
  case nil =>
    intro inLoop s s' found block blocks _ _ hs h
    obtain ⟨rfl, rfl⟩ := h
    exact ⟨⟨block, hs⟩, nofun⟩
  case cons =>
    intro stmt stmts ih ih' inLoop s s' found block blocks hparsed hcorrect hs h
    obtain ⟨found', t, found'', h, h', rfl⟩ := h
    obtain ⟨hstmt, hstmts⟩ := List.append_eq_nil_iff.mp hcorrect
    obtain ⟨⟨block', ht, -⟩, hfound⟩ := ih inLoop s t found' block blocks hparsed.1 hstmt hs h
    obtain ⟨hu, hfound'⟩ := ih' inLoop t s' found'' block' blocks hparsed.2 hstmts ht h'
    refine ⟨hu, fun l hl => ?_⟩
    rcases List.mem_append.mp hl with hl | hl
    · exact hfound l hl
    · exact hfound' l hl

end Circom.TypeAnalysis.NameResolution
