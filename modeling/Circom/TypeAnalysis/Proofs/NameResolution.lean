import Circom.TypeAnalysis.Proofs.NamePlaces

/-!
# Names and scopes

A name is resolved by lexical scope where the declarations in the tables are the innermost ones.
-/

namespace Circom.TypeAnalysis.NameResolution

open Circom.Ast
open Circom.ProgramStructure (RawEnvironment Wires Variables)
open Pass (typeCheck typeReduction)
open SymbolAnalysis

variable {blocks : List (List Declared)} {environment : List (List String)} {block : List Declared}
variable {body : List Statement} {params : List String} {name : String}

/-! ## What is found in the tables -/

theorem hasComponent_eq (environment : Environment) (name : String) :
    environment.hasComponent name = (environment.getComponent name).isSome := by
  rw [Bool.eq_iff_iff]
  exact (decide_eq_true_iff).trans AList.lookup_isSome.symm

theorem hasSignal_eq (environment : Environment) (name : String) :
    environment.hasSignal name = (environment.getSignal name).isSome := environment.signals.has_eq_isSome name

theorem hasBus_eq (environment : Environment) (name : String) :
    environment.hasBus name = (environment.getBus name).isSome := environment.buses.has_eq_isSome name

theorem hasVariable_eq (environment : Environment) (name : String) :
    environment.hasVariable name = (environment.getVariable name).isSome :=
  Variables.hasVariable_eq_isSome name

/-- Type check finds signals and buses with their types. -/
theorem Tables.getWire {environment : Environment} {past : List Declared}
    (h : Tables typeCheck.wireType environment past) (name : String) :
    environment.getSignal name = latestWire past name .signal ∧ environment.getBus name = latestWire past name .bus := by
  have htype (kind : SymbolKind) (type : SignalType) : latestOfType typeCheck.wireType past name kind type =
      past.find? fun d => d.name = name ∧ d.kind = kind ∧ d.signalType = some type := by
    have hmap (d : Declared) : d.signalType.map typeCheck.wireType = d.signalType := by cases d.signalType <;> rfl
    simp only [latestOfType, hmap]
  refine ⟨(environment.signals.get_eq_or name).trans ?_, (environment.buses.get_eq_or name).trans ?_⟩
  · rw [h.signals, h.signals, h.signals, htype, htype, htype]
    rfl
  · rw [h.buses, h.buses, h.buses, htype, htype, htype]
    rfl

/-- Type reduction finds the latest signal or bus. -/
theorem Tables.getLatest {environment : Environment} {past : List Declared}
    (h : Tables typeReduction.wireType environment past) (name : String) :
    environment.getSignal name = latest past name .signal ∧ environment.getBus name = latest past name .bus := by
  have hnone (kind : SymbolKind) (type : SignalType) (htype : type ≠ .intermediate) :
      latestOfType typeReduction.wireType past name kind type = none := by
    refine List.find?_eq_none.mpr fun d _ hd => ?_
    obtain ⟨-, -, hd⟩ := of_decide_eq_true hd
    obtain ⟨type', -, htype'⟩ := Option.map_eq_some_iff.mp hd
    exact htype htype'.symm
  have hsome (kind : SymbolKind) (hkind : kind = .signal ∨ kind = .bus) :
      latestOfType typeReduction.wireType past name kind .intermediate = latest past name kind := by
    unfold latestOfType latest
    congr 1
    funext d
    rw [decide_eq_decide]
    refine ⟨fun hd => ⟨hd.1, hd.2.1⟩, fun hd => ⟨hd.1, hd.2, ?_⟩⟩
    obtain ⟨dname, xtype, number⟩ := d
    obtain ⟨-, rfl⟩ := hd
    cases xtype with
    | signal | bus => rfl
    | var | component | anonymousComponent => rcases hkind with hkind | hkind <;> cases hkind
  refine ⟨(environment.signals.get_eq_or name).trans ?_, (environment.buses.get_eq_or name).trans ?_⟩
  · rw [h.signals, h.signals, h.signals, hnone _ .input nofun, hnone _ .output nofun, hsome _ (Or.inl rfl)]
    rfl
  · rw [h.buses, h.buses, h.buses, hnone _ .input nofun, hnone _ .output nofun, hsome _ (Or.inr rfl)]
    rfl

/-- The name of a signal or bus is in one of its tables. -/
theorem latestWire_eq_none {declared : List Declared} {kind : SymbolKind} (hkind : kind = .signal ∨ kind = .bus) :
    latestWire declared name kind = none ↔ latest declared name kind = none := by
  rw [latest_eq_none]
  simp only [latestWire, Option.or_eq_none_iff, List.find?_eq_none, decide_eq_true_eq]
  constructor
  · rintro ⟨⟨hin, hout⟩, hinter⟩ ⟨dname, xtype, number⟩ hd hname hk
    subst hk
    cases xtype with
    | signal type tags =>
      cases type with
      | input => exact hin _ hd ⟨hname, rfl, rfl⟩
      | output => exact hout _ hd ⟨hname, rfl, rfl⟩
      | intermediate => exact hinter _ hd ⟨hname, rfl, rfl⟩
    | bus id type tags =>
      cases type with
      | input => exact hin _ hd ⟨hname, rfl, rfl⟩
      | output => exact hout _ hd ⟨hname, rfl, rfl⟩
      | intermediate => exact hinter _ hd ⟨hname, rfl, rfl⟩
    | var | component | anonymousComponent => rcases hkind with hkind | hkind <;> cases hkind
  · intro h
    exact ⟨⟨fun d hd h' => h d hd h'.1 h'.2.1, fun d hd h' => h d hd h'.1 h'.2.1⟩,
      fun d hd h' => h d hd h'.1 h'.2.1⟩

theorem Occurrence.visible_eq_some {o : Occurrence} {d : Declared} (h : o.visible = some d) :
    d ∈ o.scope ∧ d.name = o.name ∧ latest o.scope o.name d.kind = some d := by
  have hname : d.name = o.name := by simpa using List.find?_some h
  refine ⟨List.mem_of_find?_eq_some h, hname, ?_⟩
  unfold Occurrence.visible at h
  unfold latest
  obtain ⟨hd, front, back, hscope, hfront⟩ := List.find?_eq_some_iff_append.mp h
  rw [List.find?_eq_some_iff_append]
  refine ⟨by simp [hname], front, back, hscope, fun e he => ?_⟩
  have hne : e.name ≠ o.name := by simpa using hfront e he
  simp [hne]

theorem latest_isSome {declared : List Declared} {d : Declared} (h : d ∈ declared) :
    ∃ e, latest declared d.name d.kind = some e := by
  cases hlatest : latest declared d.name d.kind with
  | some e => exact ⟨e, rfl⟩
  | none => exact absurd rfl (latest_eq_none.mp hlatest d h rfl)

/-! ## When the innermost declaration is found -/

section

variable {l : Lookup} {d : Declared}

theorem reduces_iff (htables : Tables typeReduction.wireType l.environment l.occurrence.pastWithOwn)
    (hplaced : WellPlaced l.occurrence.scope l.occurrence.past) (hvisible : l.occurrence.visible = some d) :
    reductionOf l.environment l.occurrence.name = expected (fun k => k = .component ∨ k = .bus) d ↔
      l.occurrence.Reducible d := by
  obtain ⟨hscope, hname, -⟩ := Occurrence.visible_eq_some hvisible
  obtain ⟨e, he⟩ := latest_isSome (List.mem_append_right l.occurrence.dimensionOf.toList (hplaced.visible d hscope))
  obtain ⟨hsignal, hbus⟩ := htables.getLatest l.occurrence.name
  have hcomponent : l.environment.getComponent l.occurrence.name = latest l.occurrence.pastWithOwn l.occurrence.name
    .component := htables.components _
  rw [hname] at he
  unfold reductionOf expected Occurrence.Reducible Occurrence.NeverDeclared
  rw [hasSignal_eq, hasComponent_eq, hasBus_eq, hsignal, hbus, hcomponent]
  change latest l.occurrence.pastWithOwn _ _ = _ at he
  cases hkind : d.kind with
  | signal =>
    rw [hkind] at he
    simp [he]
  | component =>
    rw [hkind] at he
    rw [he]
    cases latest l.occurrence.pastWithOwn l.occurrence.name .signal <;> simp
  | bus =>
    rw [hkind] at he
    rw [he]
    cases latest l.occurrence.pastWithOwn l.occurrence.name .signal <;>
      cases latest l.occurrence.pastWithOwn l.occurrence.name .component <;> simp
  | var =>
    cases latest l.occurrence.pastWithOwn l.occurrence.name .signal <;>
      cases latest l.occurrence.pastWithOwn l.occurrence.name .component <;>
      cases latest l.occurrence.pastWithOwn l.occurrence.name .bus <;> simp

theorem types_iff (htables : Tables typeCheck.wireType l.environment l.occurrence.past)
    (hfinds : FindsVariables l.occurrence.scope l.environment)
    (hplaced : WellPlaced l.occurrence.scope l.occurrence.past) (hvisible : l.occurrence.visible = some d) :
    (entryOf l.environment l.occurrence.name = expected (fun _ => true) d ∧
      if l.occurrence.hasField then
        tagEntryOf l.environment l.occurrence.name = expected (fun k => k ≠ .var) d
      else symbolInformationOf l.environment l.occurrence.name = some d.kind) ↔ l.occurrence.Typable d := by
  obtain ⟨hscope, hname, hvar⟩ := Occurrence.visible_eq_some hvisible
  obtain ⟨e, he⟩ := latest_isSome (hplaced.visible d hscope)
  obtain ⟨hsignal, hbus⟩ := htables.getWire l.occurrence.name
  have hcomponent : l.environment.getComponent l.occurrence.name = latest l.occurrence.past l.occurrence.name
    .component := htables.components _
  rw [hname] at he
  unfold entryOf tagEntryOf symbolInformationOf expected Occurrence.Typable Occurrence.NeverDeclared
  rw [hasSignal_eq, hasComponent_eq, hasBus_eq, hasVariable_eq, hsignal, hbus, hcomponent, hfinds,
    ← latestWire_eq_none (Or.inl rfl), ← latestWire_eq_none (Or.inr rfl)]
  cases hkind : d.kind with
  | component =>
    rw [hkind] at he
    rw [he]
    cases l.occurrence.hasField <;> cases latest l.occurrence.scope l.occurrence.name .var <;>
      cases latestWire l.occurrence.past l.occurrence.name .signal <;>
      cases latestWire l.occurrence.past l.occurrence.name .bus <;> simp
  | signal =>
    cases latest l.occurrence.past l.occurrence.name .component <;>
      cases l.occurrence.hasField <;> cases latest l.occurrence.scope l.occurrence.name .var <;>
      cases latestWire l.occurrence.past l.occurrence.name .signal <;>
      cases latestWire l.occurrence.past l.occurrence.name .bus <;> simp
  | bus =>
    cases latest l.occurrence.past l.occurrence.name .component <;>
      cases l.occurrence.hasField <;> cases latest l.occurrence.scope l.occurrence.name .var <;>
      cases latestWire l.occurrence.past l.occurrence.name .signal <;>
      cases latestWire l.occurrence.past l.occurrence.name .bus <;> simp
  | var =>
    rw [hkind] at hvar
    rw [hvar]
    cases latest l.occurrence.past l.occurrence.name .component <;>
      cases l.occurrence.hasField <;>
      cases latestWire l.occurrence.past l.occurrence.name .signal <;>
      cases latestWire l.occurrence.past l.occurrence.name .bus <;> simp

theorem tags_iff (hfinds : l.Finds) (hvisible : l.occurrence.visible = some d) (hreducible : l.occurrence.Reducible d) :
    (match d.kind with
      | .var => l.environment.getVariable l.occurrence.name = some d
      | .component => l.environment.getComponent l.occurrence.name = some d
      | _ => True) ↔ l.occurrence.Taggable d := by
  obtain ⟨hscope, hname, hvar⟩ := Occurrence.visible_eq_some hvisible
  unfold Occurrence.Taggable
  unfold Occurrence.Reducible at hreducible
  cases hkind : d.kind with
  | var =>
    rw [hkind] at hvar
    rw [hfinds.vars]
    cases l.occurrence.dimensionOf with
    | none => simp [hvar]
    | some e =>
      show latest (e :: l.occurrence.scope) _ _ = _ ↔ _
      rw [latest_cons, hvar]
      by_cases he : l.occurrence.name = e.name ∧ SymbolKind.var = e.kind
      · rw [if_pos he]
        simp [← he.1, ← he.2]
      · rw [if_neg he]
        refine ⟨fun _ _ e' he' hk hn => absurd ⟨?_, ?_⟩ he, fun _ => rfl⟩
        · rw [← hn, Option.mem_some_iff.mp he']
        · rw [← hk, Option.mem_some_iff.mp he']
  | component =>
    rw [hkind] at hreducible
    simp [hfinds.components _ d hreducible.2 hscope]
  | signal => simp
  | bus => simp

end

/-! ## Accepted bodies -/

section

variable (program : ProgramInfo)

/-- The symbols in the environment of the check are declared in the block. -/
abbrev Names (environment : List (List String)) (blocks : List (List Declared)) : Prop :=
  List.Forall₂ (fun names declared => ∀ name ∈ names, ∃ d ∈ declared, d.name = name) environment blocks

theorem Names.visible (h : Names environment blocks) (hname : symbolInEnvironment environment name = true) :
    ∃ d ∈ blocks.flatten, d.name = name := by
  induction h with
  | nil => cases hname
  | cons hblock _ ih =>
    unfold symbolInEnvironment at hname
    rw [List.any_cons, Bool.or_eq_true, decide_eq_true_iff] at hname
    rw [List.flatten_cons]
    rcases hname with hname | hname
    · obtain ⟨d, hd, rfl⟩ := hblock name hname
      exact ⟨d, List.mem_append_left _ hd, rfl⟩
    · obtain ⟨d, hd, rfl⟩ := ih hname
      exact ⟨d, List.mem_append_right _ hd, rfl⟩

theorem Names.declare (h : Names environment (block :: blocks)) (d : Declared) :
    Names (addSymbolToBlock environment d.name).2 ((d :: block) :: blocks) := by
  cases h with
  | @cons names _ environment _ hblock h =>
    have hold : ∀ name ∈ names, ∃ e ∈ d :: block, e.name = name := by
      intro name hname
      obtain ⟨e, he, rfl⟩ := hblock name hname
      exact ⟨e, List.mem_cons_of_mem _ he, rfl⟩
    simp only [addSymbolToBlock]
    split
    · exact List.Forall₂.cons hold h
    · refine List.Forall₂.cons (fun name hname => ?_) h
      rcases List.mem_cons.mp hname with rfl | hname
      · exact ⟨d, List.mem_cons_self, rfl⟩
      · exact hold name hname

theorem undeclaredReports_eq_nil {info : Meta}
    (h : undeclaredReports environment info name = []) : symbolInEnvironment environment name = true := by
  unfold undeclaredReports at h
  split_ifs at h with hname
  exact hname

mutual

/-- The symbols of an expression without reports are in the environment. -/
theorem analyzeExpression_eq_nil {environment : List (List String)} : ∀ {expr : Expression},
    analyzeExpression program environment expr = [] →
      ∀ symbol ∈ symbols expr, symbolInEnvironment environment symbol.1 = true
  | .infixOp _ lhe _ rhe, h, symbol, hs => by
    obtain ⟨hl, hr⟩ := List.append_eq_nil_iff.mp h
    rcases List.mem_append.mp hs with hs | hs
    · exact analyzeExpression_eq_nil hl symbol hs
    · exact analyzeExpression_eq_nil hr symbol hs
  | .prefixOp _ _ rhe, h, symbol, hs => @analyzeExpression_eq_nil _ rhe h symbol hs
  | .parallelOp _ rhe, h, symbol, hs => @analyzeExpression_eq_nil _ rhe h symbol hs
  | .inlineSwitchOp _ cond ifTrue ifFalse, h, symbol, hs => by
    obtain ⟨hct, hf⟩ := List.append_eq_nil_iff.mp h
    obtain ⟨hc, ht⟩ := List.append_eq_nil_iff.mp hct
    rcases List.mem_append.mp hs with hs | hs
    · rcases List.mem_append.mp hs with hs | hs
      · exact analyzeExpression_eq_nil hc symbol hs
      · exact analyzeExpression_eq_nil ht symbol hs
    · exact analyzeExpression_eq_nil hf symbol hs
  | .var _ name access, h, symbol, hs => by
    obtain ⟨hname, haccess⟩ := List.append_eq_nil_iff.mp h
    rcases List.mem_cons.mp hs with rfl | hs
    · exact undeclaredReports_eq_nil hname
    · exact analyzeAccess_eq_nil haccess symbol hs
  | .call info id args, h, symbol, hs => by
    unfold analyzeExpression at h
    split at h
    · exact analyzeExpressions_eq_nil h symbol hs
    · next hne => exact absurd h hne
  | .busCall info id args, h, symbol, hs => by
    unfold analyzeExpression at h
    split at h
    · exact analyzeExpressions_eq_nil h symbol hs
    · next hne => exact absurd h hne
  | .arrayInLine _ values, h, symbol, hs => @analyzeExpressions_eq_nil _ values h symbol hs
  | .uniformArray _ value dimension, h, symbol, hs => by
    obtain ⟨hl, hr⟩ := List.append_eq_nil_iff.mp h
    rcases List.mem_append.mp hs with hs | hs
    · exact analyzeExpression_eq_nil hl symbol hs
    · exact analyzeExpression_eq_nil hr symbol hs
  | .number .., _, _, hs => nomatch hs
  | .anonymousComp .., _, _, hs => nomatch hs
  | .tuple .., _, _, hs => nomatch hs

theorem analyzeExpressions_eq_nil {environment : List (List String)} : ∀ {exprs : List Expression},
    analyzeExpressions program environment exprs = [] →
      ∀ symbol ∈ symbolsAll exprs, symbolInEnvironment environment symbol.1 = true
  | [], _, _, hs => nomatch hs
  | expr :: exprs, h, symbol, hs => by
    obtain ⟨hl, hr⟩ := List.append_eq_nil_iff.mp h
    rcases List.mem_append.mp hs with hs | hs
    · exact analyzeExpression_eq_nil hl symbol hs
    · exact analyzeExpressions_eq_nil hr symbol hs

theorem analyzeAccess_eq_nil {environment : List (List String)} : ∀ {access : List Access},
    analyzeAccess program environment access = [] →
      ∀ symbol ∈ symbolsAccess access, symbolInEnvironment environment symbol.1 = true
  | [], _, _, hs => nomatch hs
  | .arrayAccess index :: access, h, symbol, hs => by
    obtain ⟨hl, hr⟩ := List.append_eq_nil_iff.mp h
    rcases List.mem_append.mp hs with hs | hs
    · exact analyzeExpression_eq_nil hl symbol hs
    · exact analyzeAccess_eq_nil hr symbol hs
  | .componentAccess _ :: access, h, symbol, hs => @analyzeAccess_eq_nil _ access h symbol hs

end

theorem analyzeLog_eq_nil {args : List LogArgument} (h : analyzeLog program environment args = []) :
    ∀ symbol ∈ symbolsLog args, symbolInEnvironment environment symbol.1 = true := by
  induction args with
  | nil => nofun
  | cons arg args ih =>
    cases arg with
    | logStr string => exact ih h
    | logExp arg =>
      obtain ⟨hl, hr⟩ := List.append_eq_nil_iff.mp h
      intro symbol hs
      rcases List.mem_append.mp hs with hs | hs
      · exact analyzeExpression_eq_nil program hl symbol hs
      · exact ih hr symbol hs

theorem analyzeStatement_simple {stmt : Statement} (hstmt : isSimple stmt = true)
    (h : (analyzeStatement program environment stmt).1 = []) :
    (analyzeStatement program environment stmt).2 = environment ∧
      ∀ symbol ∈ statementSymbols stmt, symbolInEnvironment environment symbol.1 = true := by
  cases stmt with
  | returnStmt info value => exact ⟨rfl, analyzeExpression_eq_nil program h⟩
  | underscoreSubstitution info op rhe => exact ⟨rfl, analyzeExpression_eq_nil program h⟩
  | assert info arg => exact ⟨rfl, analyzeExpression_eq_nil program h⟩
  | logCall info args => exact ⟨rfl, analyzeLog_eq_nil program h⟩
  | multSubstitution => exact ⟨rfl, nofun⟩
  | constraintEquality info lhe rhe =>
    obtain ⟨hl, hr⟩ := List.append_eq_nil_iff.mp h
    refine ⟨rfl, fun symbol hs => ?_⟩
    rcases List.mem_append.mp hs with hs | hs
    · exact analyzeExpression_eq_nil program hl symbol hs
    · exact analyzeExpression_eq_nil program hr symbol hs
  | substitution info var access op rhe =>
    obtain ⟨hrhe, htarget⟩ := List.append_eq_nil_iff.mp h
    obtain ⟨hname, haccess⟩ := List.append_eq_nil_iff.mp htarget
    refine ⟨rfl, fun symbol hs => ?_⟩
    rcases List.mem_cons.mp hs with rfl | hs
    · exact undeclaredReports_eq_nil hname
    · rcases List.mem_append.mp hs with hs | hs
      · exact analyzeAccess_eq_nil program haccess symbol hs
      · exact analyzeExpression_eq_nil program hrhe symbol hs
  | declaration | initializationBlock | block | ifThenElse | whileStmt => cases hstmt

theorem visible_lookups (h : Names environment blocks) {names : List (String × Bool)}
    (hnames : ∀ symbol ∈ names, symbolInEnvironment environment symbol.1 = true) (past : List Declared)
    (dimensionOf : Option Declared) (env : Environment) :
    ∀ o ∈ occurrencesOf (lookups blocks.flatten past dimensionOf env names), o.visible.isSome := by
  intro o ho
  simp only [occurrencesOf, lookups, List.map_map, List.mem_map] at ho
  obtain ⟨symbol, hsymbol, rfl⟩ := ho
  obtain ⟨d, hd, hname⟩ := h.visible (hnames symbol hsymbol)
  refine List.find?_isSome.mpr ⟨d, hd, ?_⟩
  simpa using hname

/-- In a body that the check accepts every name has a visible declaration. -/
theorem visible_of_accepted :
    (∀ (stmt : Statement) (environment : List (List String)) (s : State) (block : List Declared)
      (blocks : List (List Declared)), (analyzeStatement program environment stmt).1 = [] →
      s.scope = (block :: blocks).flatten → Names environment (block :: blocks) →
      (∃ block', (typeCheck.walk stmt s).2.scope = (block' :: blocks).flatten ∧
        Names (analyzeStatement program environment stmt).2 (block' :: blocks)) ∧
        ∀ o ∈ occurrencesOf (typeCheck.walk stmt s).1, o.visible.isSome) ∧
    ∀ (stmts : List Statement) (environment : List (List String)) (s : State) (block : List Declared)
      (blocks : List (List Declared)), (analyzeStatements program environment stmts).1 = [] →
      s.scope = (block :: blocks).flatten → Names environment (block :: blocks) →
      (∃ block', (typeCheck.walkAll stmts s).2.scope = (block' :: blocks).flatten ∧
        Names (analyzeStatements program environment stmts).2 (block' :: blocks)) ∧
        ∀ o ∈ occurrencesOf (typeCheck.walkAll stmts s).1, o.visible.isSome := by
  apply body_induction
  case simple =>
    intro stmt hstmt environment s block blocks h hscope hnames
    obtain ⟨henvironment, hsymbols⟩ := analyzeStatement_simple program hstmt h
    rw [Pass.walk_simple _ hstmt, henvironment]
    refine ⟨⟨block, hscope, hnames⟩, ?_⟩
    unfold State.lookups
    rw [hscope]
    exact visible_lookups hnames hsymbols _ _ _
  case declaration =>
    intro info xtype name dimensions isConstant isAnonymous environment s block blocks h hscope hnames
    obtain ⟨hdimensions, -⟩ := List.append_eq_nil_iff.mp (List.append_eq_nil_iff.mp h).1
    simp only [Pass.walk]
    refine ⟨⟨s.next name xtype :: block, congrArg (List.cons _) hscope, hnames.declare (s.next name xtype)⟩, ?_⟩
    rw [hscope]
    exact visible_lookups hnames (analyzeExpressions_eq_nil program hdimensions) _ _ _
  case initializationBlock =>
    intro info xtype stmts ih environment s block blocks h hscope hnames
    exact ih environment s block blocks h hscope hnames
  case block =>
    intro info stmts ih environment s block blocks h hscope hnames
    obtain ⟨⟨block', hscope', hnames'⟩, hfound⟩ := ih ([] :: environment)
      { s with environment := typeCheck.enterBlock s.environment } [] (block :: blocks) h hscope
      (List.Forall₂.cons (fun _ hname => absurd hname List.not_mem_nil) hnames)
    refine ⟨⟨block, hscope, ?_⟩, hfound⟩
    show Names (analyzeStatements program ([] :: environment) stmts).2.tail _
    generalize (analyzeStatements program ([] :: environment) stmts).2 = after at hnames'
    cases hnames' with
    | cons _ hnames' => exact hnames'
  case ifThen =>
    intro info cond ifCase ih environment s block blocks h hscope hnames
    simp only [analyzeStatement] at h
    obtain ⟨hcond, hif⟩ := List.append_eq_nil_iff.mp h
    simp only [Pass.walk, occurrencesOf_append, List.mem_append]
    obtain ⟨hnames', hfound⟩ := ih environment s block blocks hif hscope hnames
    refine ⟨hnames', fun o ho => ?_⟩
    rcases ho with ho | ho
    · unfold State.lookups at ho
      rw [hscope] at ho
      exact visible_lookups hnames (analyzeExpression_eq_nil program hcond) _ _ _ o ho
    · exact hfound o ho
  case ifThenElse =>
    intro info cond ifCase elseCase ih ih' environment s block blocks h hscope hnames
    simp only [analyzeStatement] at h
    obtain ⟨hconds, helse⟩ := List.append_eq_nil_iff.mp h
    obtain ⟨hcond, hif⟩ := List.append_eq_nil_iff.mp hconds
    simp only [Pass.walk, occurrencesOf_append, List.mem_append]
    obtain ⟨⟨block', hscope', hnames'⟩, hfound⟩ := ih environment s block blocks hif hscope hnames
    obtain ⟨hnames'', hfound'⟩ := ih' _ _ block' blocks helse hscope' hnames'
    refine ⟨hnames'', fun o ho => ?_⟩
    rcases ho with (ho | ho) | ho
    · unfold State.lookups at ho
      rw [hscope] at ho
      exact visible_lookups hnames (analyzeExpression_eq_nil program hcond) _ _ _ o ho
    · exact hfound o ho
    · exact hfound' o ho
  case whileStmt =>
    intro info cond stmt ih environment s block blocks h hscope hnames
    simp only [analyzeStatement] at h
    obtain ⟨hcond, hstmt⟩ := List.append_eq_nil_iff.mp h
    simp only [Pass.walk, occurrencesOf_append, List.mem_append]
    obtain ⟨hnames', hfound⟩ := ih environment s block blocks hstmt hscope hnames
    refine ⟨hnames', fun o ho => ?_⟩
    rcases ho with ho | ho
    · unfold State.lookups at ho
      rw [hscope] at ho
      exact visible_lookups hnames (analyzeExpression_eq_nil program hcond) _ _ _ o ho
    · exact hfound o ho
  case nil =>
    intro environment s block blocks _ hscope hnames
    exact ⟨⟨block, hscope, hnames⟩, fun _ ho => absurd ho List.not_mem_nil⟩
  case cons =>
    intro stmt stmts ih ih' environment s block blocks h hscope hnames
    simp only [analyzeStatements] at h
    obtain ⟨hstmt, hstmts⟩ := List.append_eq_nil_iff.mp h
    simp only [Pass.walkAll, occurrencesOf_append, List.mem_append]
    obtain ⟨⟨block', hscope', hnames'⟩, hfound⟩ := ih environment s block blocks hstmt hscope hnames
    obtain ⟨hnames'', hfound'⟩ := ih' _ _ block' blocks hstmts hscope' hnames'
    refine ⟨hnames'', fun o ho => ?_⟩
    rcases ho with ho | ho
    · exact hfound o ho
    · exact hfound' o ho

end

/-! ## The parameters -/

/-- How a body starts. -/
structure Starts (s : State) (block : List Declared) : Prop where
  placed : WellPlaced s.scope s.past
  scope : s.scope = block
  past : s.past = block
  kinds : ∀ d ∈ block, d.kind = .var
  stack : Stack s.environment.vars [block]
  signals : s.environment.signals = {}
  buses : s.environment.buses = {}
  components : s.environment.components = ∅

theorem ofParams_starts (params : List String) : ∃ block, Starts (State.ofParams params) block ∧
    ∀ environment, Names environment [[]] →
      Names (addParams environment params).2 [block] := by
  have hfold : ∀ (params : List String) (s : State) (block : List Declared), Starts s block →
      ∃ block', Starts (params.foldl (fun s name =>
        s.declare (s.next name .var) (s.environment.addVariable name (s.next name .var))) s) block' ∧
        ∀ environment, Names environment [block] → Names (addParams environment params).2 [block'] := by
    intro params
    induction params with
    | nil => exact fun s block hs => ⟨block, hs, fun environment h => h⟩
    | cons name params ih =>
      intro s block hs
      obtain ⟨block', hs', hnames⟩ := ih (s.declare (s.next name .var)
        (s.environment.addVariable name (s.next name .var))) (s.next name .var :: block)
        { placed := hs.placed.declare name .var
          scope := congrArg (List.cons _) hs.scope
          past := congrArg (List.cons _) hs.past
          kinds := by
            intro d hd
            rcases List.mem_cons.mp hd with rfl | hd
            · rfl
            · exact hs.kinds d hd
          stack := hs.stack.addVariable (d := s.next name .var) rfl
          signals := hs.signals
          buses := hs.buses
          components := hs.components }
      exact ⟨block', hs', fun environment h => hnames _ (h.declare (s.next name .var))⟩
  refine hfold params ⟨[], [], {}⟩ [] ⟨⟨nofun, trivial⟩, rfl, rfl, nofun, ?_, rfl, rfl, rfl⟩
  exact List.Forall₂.cons (fun _ => rfl) List.Forall₂.nil

/-- The tables are empty at the start. -/
theorem Starts.tables {s : State} (h : Starts s block) (pass : Pass) : Tables pass.wireType s.environment s.past := by
  have hnone (kind : SymbolKind) (hkind : kind ≠ .var) (name : String) (p : Declared → Prop) [DecidablePred p] :
      s.past.find? (fun d => d.name = name ∧ d.kind = kind ∧ p d) = none := by
    refine List.find?_eq_none.mpr fun d hd h' => ?_
    obtain ⟨-, hk, -⟩ := of_decide_eq_true h'
    exact hkind (hk.symm.trans (h.kinds d (h.past ▸ hd)))
  refine ⟨fun name => ?_, fun name type => ?_, fun name type => ?_⟩
  · rw [h.components]
    have hlatest : latest s.past name .component = none :=
      latest_eq_none.mpr fun d hd _ hk => nomatch hk.symm.trans (h.kinds d (h.past ▸ hd))
    exact hlatest.symm
  · rw [h.signals]
    cases type <;> exact (hnone .signal nofun name _).symm
  · rw [h.buses]
    cases type <;> exact (hnone .bus nofun name _).symm

theorem Starts.keepsComponents {s : State} (h : Starts s block) : KeepsComponents s := by
  intro name d hlatest _
  obtain ⟨hd, -, hkind⟩ := latest_eq_some hlatest
  exact nomatch hkind.symm.trans (h.kinds d (h.past ▸ hd))

/-! ## The body -/

/-- The passes look up the same names. -/
theorem occurrencesOf_lookups_pass (pass : Pass) (params : List String) (body : List Statement) :
    occurrencesOf (pass.lookups params body) = occurrences params body :=
  ((Pass.walk_samePlace pass typeCheck).2 body _ _ ⟨rfl, rfl⟩).1

theorem mem_occurrencesOf {l : Lookup} {found : List Lookup} (h : l ∈ found) : l.occurrence ∈ occurrencesOf found :=
  List.mem_map.mpr ⟨l, h, rfl⟩

theorem wellPlaced_of_mem (hparsed : ParsedAll false body)
    {o : Occurrence} (ho : o ∈ occurrences params body) : WellPlaced o.scope o.past := by
  obtain ⟨block, hstart, -⟩ := ofParams_starts params
  exact ((Pass.walk_frame typeCheck).2 body false (State.ofParams params) hparsed).2 hstart.placed o ho

theorem typeReduction_tables :
    ∀ l ∈ typeReduction.lookups params body,
      Tables typeReduction.wireType l.environment l.occurrence.pastWithOwn := by
  obtain ⟨block, hstart, -⟩ := ofParams_starts params
  exact ((Pass.walk_tables typeReduction).2 body (State.ofParams params) (hstart.tables _)).2

theorem typeCheck_tables :
    ∀ l ∈ typeCheck.lookups params body,
      Tables typeCheck.wireType l.environment l.occurrence.past ∧
        FindsVariables l.occurrence.scope l.environment := by
  obtain ⟨block, hstart, -⟩ := ofParams_starts params
  intro l hl
  refine ⟨((Pass.walk_tables typeCheck).2 body (State.ofParams params) (hstart.tables _)).2 l hl, ?_⟩
  exact (Pass.walk_stack.2 body (State.ofParams params) block [] (by simp [hstart.scope]) hstart.stack).2 l hl

/-- A run of the known/unknown analysis finds the variables and the latest components. -/
theorem analyzesBody_finds (hparsed : ParsedAll false body) (hsignals : checkSignalCorrectness body = [])
    {found : List Lookup} (h : AnalyzesBody params body found) :
    ∀ l ∈ found, l.Finds ∧ l.occurrence ∈ occurrences params body := by
  obtain ⟨block, hstart, -⟩ := ofParams_starts params
  obtain ⟨s', h⟩ := h
  have hinBlocks : InBlocks { State.ofParams params with
      environment := (State.ofParams params).environment.addVariableBlock } [] [block] :=
    ⟨hstart.placed, by simp [hstart.scope], hstart.stack.enter, hstart.keepsComponents⟩
  intro l hl
  refine ⟨(analyzes_inBlocks.2 body false _ s' found [] [block] hparsed hsignals hinBlocks h).2 l hl, ?_⟩
  exact (analyzes_samePlace.2 body { State.ofParams params with
    environment := (State.ofParams params).environment.addVariableBlock } (State.ofParams params) s' found ⟨rfl, rfl⟩
    h).2 (mem_occurrencesOf hl)

/-- In an accepted body every name has a visible declaration, and all passes find it if and only if no other
declaration of the name comes in between. -/
theorem resolvesByScope_iff (program : ProgramInfo) (params : List String) (body : List Statement)
    (hparsed : ParsedAll false body) (hnaming : analyzeSymbols program params body = [])
    (hsignals : checkSignalCorrectness body = []) :
    (∀ o ∈ occurrences params body, o.visible.isSome) ∧
      (ResolvesByScope params body ↔
        ∀ o ∈ occurrences params body, ∀ d, o.visible = some d → o.Unambiguous d) := by
  have hreduces {l : Lookup} (hl : l ∈ typeReduction.lookups params body) {d : Declared}
      (hd : l.occurrence.visible = some d) :
      reductionOf l.environment l.occurrence.name = expected (fun k => k = .component ∨ k = .bus) d ↔
        l.occurrence.Reducible d := by
    have ho := occurrencesOf_lookups_pass typeReduction params body ▸ mem_occurrencesOf hl
    exact reduces_iff (typeReduction_tables l hl) (wellPlaced_of_mem hparsed ho) hd
  have htypes {l : Lookup} (hl : l ∈ typeCheck.lookups params body) {d : Declared}
      (hd : l.occurrence.visible = some d) :=
    types_iff (typeCheck_tables l hl).1 (typeCheck_tables l hl).2 (wellPlaced_of_mem hparsed (mem_occurrencesOf hl)) hd
  constructor
  · obtain ⟨block, hstart, hnames⟩ := ofParams_starts params
    refine ((visible_of_accepted program).2 body _ (State.ofParams params) block []
      (List.append_eq_nil_iff.mp hnaming).2 (by simp [hstart.scope]) (hnames [[]] ?_)).2
    exact List.Forall₂.cons nofun List.Forall₂.nil
  constructor
  · intro h o ho d hd
    have hreducible : o.Reducible d := by
      obtain ⟨l, hl, rfl⟩ := List.mem_map.mp (occurrencesOf_lookups_pass typeReduction params body ▸ ho)
      exact (hreduces hl hd).mp (h.reduces l hl d hd)
    refine ⟨hreducible, ?_, ?_⟩
    · obtain ⟨l, hl, rfl⟩ := List.mem_map.mp ho
      exact (htypes hl hd).mp (h.types l hl d hd)
    · -- the run that analyses every loop once looks the name up
      obtain ⟨found, s', hrun, hfound⟩ := exists_analyzes.2 body { State.ofParams params with
        environment := (State.ofParams params).environment.addVariableBlock } (State.ofParams params) ⟨rfl, rfl⟩
      obtain ⟨l, hl, rfl⟩ := List.mem_map.mp (hfound ho)
      have hbody : AnalyzesBody params body found := ⟨s', hrun⟩
      exact (tags_iff (analyzesBody_finds hparsed hsignals hbody l hl).1 hd hreducible).mp (h.tags found hbody l hl d hd)
  · intro h
    refine ⟨fun l hl d hd => ?_, fun l hl d hd => ?_, fun found hbody l hl d hd => ?_⟩
    · have ho := occurrencesOf_lookups_pass typeReduction params body ▸ mem_occurrencesOf hl
      exact (hreduces hl hd).mpr (h _ ho d hd).reducible
    · exact (htypes hl hd).mpr (h _ (mem_occurrencesOf hl) d hd).typable
    · obtain ⟨hfinds, ho⟩ := analyzesBody_finds hparsed hsignals hbody l hl
      have hunambiguous := h _ ho d hd
      exact (tags_iff hfinds hd hunambiguous.reducible).mpr hunambiguous.taggable

/-- The declaration of a symbol without dimensions. -/
def declarationOf (elemId : ℕ) (xtype : VariableType) (name : String) : Statement :=
  .initializationBlock ⟨elemId, 0, none⟩ xtype [.declaration ⟨elemId + 1, 0, none⟩ xtype name [] true false]

/-- `var x = n; { var x; x = 1; } signal s; s <== x; var (y, z) = (1, x);` without the tuples. -/
def shadowingVariable : List Statement :=
  [declarationOf 0 .var "x",
   .substitution ⟨2, 0, none⟩ "x" [] .assignVar (.var ⟨3, 0, none⟩ "n" []),
   .block ⟨4, 0, none⟩
    [declarationOf 5 .var "x", .substitution ⟨7, 0, none⟩ "x" [] .assignVar (.number ⟨8, 0, none⟩ 1)],
   declarationOf 9 (.signal .intermediate []) "s",
   .substitution ⟨11, 0, none⟩ "s" [] .assignConstraintSignal (.var ⟨12, 0, none⟩ "x" []),
   .initializationBlock ⟨13, 0, none⟩ .var
    [.declaration ⟨14, 0, none⟩ .var "y" [] true false, .declaration ⟨15, 0, none⟩ .var "z" [] true false,
     .block ⟨16, 0, none⟩
      [.substitution ⟨17, 0, none⟩ "y" [] .assignVar (.number ⟨18, 0, none⟩ 1),
       .substitution ⟨19, 0, none⟩ "z" [] .assignVar (.var ⟨20, 0, none⟩ "x" [])]]]

def emptyProgram : ProgramInfo := ⟨fun _ => none, fun _ => none, fun _ => none⟩

theorem resolvesByScope_iff_shadowingVariable : ResolvesByScope ["n"] shadowingVariable := by
  refine (resolvesByScope_iff emptyProgram ["n"] shadowingVariable ?_ (by decide) (by decide)).2.mpr ?_
  · simp [shadowingVariable, declarationOf, ParsedAll, Parsed, ParsedInitializations, isCompound, areCompound,
      isSimple]
  · intro o ho d hd
    simp only [occurrences, Pass.lookups, shadowingVariable, declarationOf, zero_add, Nat.reduceAdd, Pass.walkAll,
      Pass.walk, lookups, symbolsAll, List.map_nil, List.append_nil, State.lookups, statementSymbols, hasField,
      List.any_nil, symbolsAccess, symbols, List.nil_append, List.map_cons, List.cons_append, List.mem_cons,
      List.not_mem_nil, or_false] at ho
    rcases ho with rfl | rfl | rfl | rfl | rfl | rfl | rfl | rfl
    all_goals cases hd
    case refine_2.inr.inr.inr.inl.refl => exact ⟨trivial, ⟨rfl, rfl, rfl, fun h => by cases h⟩, fun _ _ he => by cases he⟩
    all_goals exact ⟨⟨rfl, rfl, rfl⟩, ⟨rfl, rfl, rfl⟩, fun _ _ he => by cases he⟩

/-- `if (1) { signal s; } var s; s = 1;` -/
def signalInBranch : List Statement :=
  [.ifThenElse ⟨0, 0, none⟩ (.number ⟨1, 0, none⟩ 1)
    (.block ⟨2, 0, none⟩ [declarationOf 3 (.signal .intermediate []) "s"]) none,
   declarationOf 5 .var "s",
   .substitution ⟨7, 0, none⟩ "s" [] .assignVar (.number ⟨8, 0, none⟩ 1)]

/-- After the block of a signal a variable of its name is taken for the signal. -/
theorem not_resolvesByScope : ¬ ∀ (program : ProgramInfo) (params : List String) (body : List Statement),
    ParsedAll false body → analyzeSymbols program params body = [] → checkSignalCorrectness body = [] →
    ResolvesByScope params body := by
  intro h
  have hbody := h emptyProgram [] signalInBranch
    (by simp [signalInBranch, declarationOf, ParsedAll, Parsed, ParsedInitializations, isDeclaration])
    (by decide) (by decide)
  have hfound : ∃ l ∈ Pass.typeReduction.lookups [] signalInBranch, ¬ l.Reduces := by
    refine ⟨_, List.mem_singleton.mpr rfl, fun hl => ?_⟩
    cases hl ⟨"s", .var, 1⟩ rfl
  obtain ⟨l, hl, hnot⟩ := hfound
  exact hnot (hbody.reduces l hl)

end Circom.TypeAnalysis.NameResolution
