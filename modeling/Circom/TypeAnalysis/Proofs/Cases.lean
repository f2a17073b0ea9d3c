import Circom.TypeAnalysis.ReferenceInterpreter

/-!
# What a statement can do

The outcomes of running a statement and of analysing it, one lemma for each kind of statement.
-/

namespace Circom.TypeAnalysis

open Circom.Ast

variable {V : Type} [DecidableEq V] {reducesTo : Meta → TypeReduction} {ops : Operators V}
  {signals : Wires V}

variable {op : AssignOp} {environment : Environment} {exit : ExitInformation} {cond rhe : Expression}
variable {choices : List Choice} {dimensions : List Expression} {stmts : List Statement} {info : Meta}
variable {s s' : RunState V} {stmt : Statement} {events : Trace V} {fuel : ℕ}

/-! ## Runs -/

/-- What an assignment can do. -/
theorem execSubstitution_cases {var : String} {access : List Access}
    (h : execSubstitution reducesTo ops signals info var access op rhe choices s = some (s', events)) :
    (reducesTo info = .var ∧ ∃ v, eval reducesTo ops signals s rhe = some v ∧
      s' = { s with vars := s.vars.setVariable var v } ∧ events = []) ∨
    ((∃ t, reducesTo info = .component t) ∧ ∃ path template params,
      evalAccess reducesTo ops signals s access = some path ∧
      instantiation reducesTo ops signals s rhe = some (template, params) ∧ s' = s ∧
      events = [(choices, .instantiation var path template params)]) ∨
    (reducesTo info = .tag ∧ ∃ path v, evalAccess reducesTo ops signals s access = some path ∧
      eval reducesTo ops signals s rhe = some v ∧
      s' = { s with tags := fun name p => if name = var ∧ p = path then some v else s.tags name p } ∧
      events = [(choices, .tagAssignment var path v)]) ∨
    ((reducesTo info = .signal ∨ ∃ b, reducesTo info = .bus b) ∧ s' = s ∧
      events = if op = .assignConstraintSignal then
        [(choices, .constraint (.substitution info var access op rhe)
          (indexValues reducesTo ops signals s (access.filterMap Access.index? ++ indices rhe)))]
        else []) := by
  rw [execSubstitution, Option.bind_eq_bind, Option.bind_eq_some_iff] at h
  obtain ⟨path, hpath, h⟩ := h
  cases hreduces : reducesTo info with
  | var =>
    simp only [hreduces] at h
    split at h
    · simp only [Option.bind_eq_bind, Option.bind_eq_some_iff, Option.some.injEq, Prod.mk.injEq] at h
      obtain ⟨v, hv, rfl, rfl⟩ := h
      exact Or.inl ⟨rfl, v, hv, rfl, rfl⟩
    · simp at h
  | component t =>
    simp only [hreduces, Option.bind_eq_bind, Option.bind_eq_some_iff, Prod.exists, Option.some.injEq,
      Prod.mk.injEq] at h
    obtain ⟨template, params, hparams, rfl, rfl⟩ := h
    exact Or.inr (Or.inl ⟨⟨t, rfl⟩, path, template, params, hpath, hparams, rfl, rfl⟩)
  | tag =>
    simp only [hreduces, Option.bind_eq_bind, Option.bind_eq_some_iff, Option.some.injEq,
      Prod.mk.injEq] at h
    obtain ⟨v, hv, rfl, rfl⟩ := h
    exact Or.inr (Or.inr (Or.inl ⟨rfl, path, v, hpath, hv, rfl, rfl⟩))
  | signal =>
    simp only [hreduces, Option.bind_eq_bind, Option.bind_eq_some_iff, Option.some.injEq,
      Prod.mk.injEq] at h
    obtain ⟨v, -, rfl, rfl⟩ := h
    exact Or.inr (Or.inr (Or.inr ⟨Or.inl rfl, rfl, rfl⟩))
  | bus b =>
    simp only [hreduces, Option.bind_eq_bind, Option.bind_eq_some_iff, Option.some.injEq,
      Prod.mk.injEq] at h
    obtain ⟨v, -, rfl, rfl⟩ := h
    exact Or.inr (Or.inr (Or.inr ⟨Or.inr ⟨b, rfl⟩, rfl, rfl⟩))

/-- What a declaration can do. -/
theorem execDeclaration_cases {xtype : VariableType} {name : String}
    (h : execDeclaration reducesTo ops signals xtype name dimensions choices s = some (s', events)) :
    (xtype = .var ∧ s' = { s with vars := s.vars.addVariable name (ops.number 0) } ∧ events = []) ∨
    (xtype = .anonymousComponent ∧ s' = s ∧ events = [(choices, .declaration xtype name [])]) ∨
    (xtype ≠ .var ∧ xtype ≠ .anonymousComponent ∧ s' = s ∧
      ∃ values, evalAll reducesTo ops signals s dimensions = some values ∧
        events = [(choices, .declaration xtype name values)]) := by
  unfold execDeclaration at h
  split at h
  · simp only [Option.some.injEq, Prod.mk.injEq] at h
    obtain ⟨rfl, rfl⟩ := h
    exact Or.inr (Or.inl ⟨rfl, rfl, rfl⟩)
  · simp only [Option.bind_eq_bind, Option.bind_eq_some_iff, Option.some.injEq, Prod.mk.injEq] at h
    obtain ⟨values, -, rfl, rfl⟩ := h
    exact Or.inl ⟨rfl, rfl, rfl⟩
  · next hanonymous hvar =>
    simp only [Option.bind_eq_bind, Option.bind_eq_some_iff, Option.some.injEq, Prod.mk.injEq] at h
    obtain ⟨values, hvalues, rfl, rfl⟩ := h
    exact Or.inr (Or.inr ⟨hvar, hanonymous, rfl, values, hvalues, rfl⟩)

theorem exec_ifThenElse {ifCase : Statement} {elseCase : Option Statement}
    (h : exec reducesTo ops signals fuel (.ifThenElse info cond ifCase elseCase) choices s = some (s', events)) :
    (evalCond reducesTo ops signals cond s = some true ∧
      exec reducesTo ops signals fuel ifCase (choices ++ [.branch true]) s = some (s', events)) ∨
    evalCond reducesTo ops signals cond s = some false ∧
      ((∃ elseStmt, elseCase = some elseStmt ∧
        exec reducesTo ops signals fuel elseStmt (choices ++ [.branch false]) s = some (s', events)) ∨
      elseCase = none ∧ s' = s ∧ events = []) := by
  cases elseCase with
  | some elseStmt =>
    simp only [exec, Option.bind_eq_bind, Option.bind_eq_some_iff] at h
    obtain ⟨c, hc, h⟩ := h
    cases c with
    | true => exact Or.inl ⟨hc, h⟩
    | false => exact Or.inr ⟨hc, Or.inl ⟨elseStmt, rfl, h⟩⟩
  | none =>
    simp only [exec, Option.bind_eq_bind, Option.bind_eq_some_iff] at h
    obtain ⟨c, hc, h⟩ := h
    cases c with
    | true => exact Or.inl ⟨hc, h⟩
    | false =>
      simp only [Bool.false_eq_true, if_false, Option.some.injEq, Prod.mk.injEq] at h
      exact Or.inr ⟨hc, Or.inr ⟨rfl, h.1.symm, h.2.symm⟩⟩

theorem exec_block (h : exec reducesTo ops signals fuel (.block info stmts) choices s = some (s', events)) :
    ∃ s1, execAll reducesTo ops signals fuel stmts choices
        { s with vars := s.vars.addVariableBlock } = some (s1, events) ∧
      s' = { s1 with vars := s1.vars.removeVariableBlock } := by
  simp only [exec, Option.bind_eq_bind, Option.bind_eq_some_iff, Prod.exists, Option.some.injEq,
    Prod.mk.injEq] at h
  obtain ⟨s1, events1, h1, rfl, rfl⟩ := h
  exact ⟨s1, h1, rfl⟩

theorem execAll_cons (h : execAll reducesTo ops signals fuel (stmt :: stmts) choices s = some (s', events)) :
    ∃ s1 events1 events2, exec reducesTo ops signals fuel stmt choices s = some (s1, events1) ∧
      execAll reducesTo ops signals fuel stmts choices s1 = some (s', events2) ∧
      events = events1 ++ events2 := by
  simp only [execAll, Option.bind_eq_bind, Option.bind_eq_some_iff, Prod.exists, Option.some.injEq,
    Prod.mk.injEq] at h
  obtain ⟨s1, events1, h1, s2, events2, h2, rfl, rfl⟩ := h
  exact ⟨s1, events1, events2, h1, h2, rfl⟩

theorem exec_assert {arg : Expression}
    (h : exec reducesTo ops signals fuel (.assert info arg) choices s = some (s', events)) : s' = s ∧ events = [] := by
  rw [exec, Option.bind_eq_bind, Option.bind_eq_some_iff] at h
  obtain ⟨c, -, h⟩ := h
  cases c with
  | true =>
    simp only [if_true, Option.some.injEq, Prod.mk.injEq] at h
    exact ⟨h.1.symm, h.2.symm⟩
  | false => simp at h

theorem execLoop_induction {r : RunState V → RunState V → Trace V → Prop} (hrefl : ∀ s, r s s [])
    (htrans : ∀ s s' s'' events events', r s s' events → r s' s'' events' → r s s'' (events ++ events'))
    {cond : RunState V → Option Bool} {body : ℕ → RunState V → Option (RunState V × Trace V)}
    (hbody : ∀ k s s' events, body k s = some (s', events) → r s s' events) :
    ∀ (fuel k : ℕ) (s s' : RunState V) (events : Trace V),
      execLoop cond body fuel k s = some (s', events) → r s s' events := by
  intro fuel
  induction fuel with
  | zero => intro k s s' events h; simp [execLoop] at h
  | succ fuel ih =>
    intro k s s' events h
    rw [execLoop, Option.bind_eq_bind, Option.bind_eq_some_iff] at h
    obtain ⟨c, -, h⟩ := h
    cases c with
    | true =>
      simp only [if_true, Option.bind_eq_bind, Option.bind_eq_some_iff, Prod.exists,
        Option.some.injEq, Prod.mk.injEq] at h
      obtain ⟨s1, events1, h1, s2, events2, h2, rfl, rfl⟩ := h
      exact htrans _ _ _ _ _ (hbody _ _ _ _ h1) (ih _ _ _ _ h2)
    | false =>
      simp only [Bool.false_eq_true, if_false, Option.some.injEq, Prod.mk.injEq] at h
      obtain ⟨rfl, rfl⟩ := h
      exact hrefl s

/-! ## The analysis -/

/-- Nothing is reported and nothing is declared, constrained or tagged. -/
theorem reportIf_eq_nil {cond : Bool} {code : ReportCode} : reportIf cond code info = [] ↔ cond = false := by
  cases cond <;> simp [reportIf]

theorem unreachableReports_eq_nil {tagCond : Tag} {constraintsDeclared tagsModified signalsDeclared : Bool} :
    unreachableReports tagCond constraintsDeclared tagsModified signalsDeclared info = [] ↔
      (tagCond = .unknown → constraintsDeclared = false ∧ tagsModified = false ∧ signalsDeclared = false) := by
  simp only [unreachableReports, List.append_eq_nil_iff, reportIf_eq_nil]
  cases tagCond <;> simp [and_assoc]

theorem max_eq_known {a b : Tag} : a.max b = .known ↔ a = .known ∧ b = .known := by
  cases a <;> cases b <;> simp [Tag.max]

theorem analyzeConstraintSignal_cases {access : Tag}
    (h : analyzeConstraintSignal reducesTo environment info access rhe = some exit) :
    exit.environment = environment ∧ exit.modifiedVariables = [] ∧ exit.constraintsDeclared = true ∧
      (exit.reports = [] → access = .known ∧ unknownIndex reducesTo environment rhe = some false) := by
  simp only [analyzeConstraintSignal, isNonQuadratic, Option.bind_eq_bind, Option.bind_eq_some_iff,
    Option.some.injEq] at h
  obtain ⟨nonQuadratic, hindex, rfl⟩ := h
  refine ⟨rfl, rfl, rfl, fun hreports => ?_⟩
  rw [List.append_eq_nil_iff, reportIf_eq_nil, reportIf_eq_nil] at hreports
  obtain ⟨rfl, haccess⟩ := hreports
  cases access with
  | known => exact ⟨rfl, hindex⟩
  | unknown => simp at haccess

/-- What the analysis of an assignment can find. -/
theorem analyzeSubstitution_cases {var : String} {access : List Access}
    (h : analyzeSubstitution reducesTo info var access op rhe environment = some exit) :
    (reducesTo info = .var ∧ exit.modifiedVariables = [var] ∧ ∃ content,
      exit.environment = { environment with vars := environment.vars.setVariable var content } ∧
      (content.1 = .known → tag reducesTo environment rhe = some .known)) ∨
    (reducesTo info ≠ .var ∧ exit.modifiedVariables = [] ∧ exit.environment = environment ∧
      (((∃ t, reducesTo info = .component t) ∧ exit.constraintsDeclared = true ∨
          reducesTo info = .tag ∧ exit.tagsModified = true) ∧
        (exit.reports = [] → tag reducesTo environment rhe = some .known ∧
          accessTag reducesTo environment access = some .known) ∨
      (reducesTo info = .signal ∨ ∃ b, reducesTo info = .bus b) ∧ (op = .assignConstraintSignal →
        exit.constraintsDeclared = true ∧ (exit.reports = [] →
          accessTag reducesTo environment access = some .known ∧
          unknownIndex reducesTo environment rhe = some false)))) := by
  simp only [analyzeSubstitution, Option.bind_eq_bind, Option.bind_eq_some_iff] at h
  obtain ⟨expressionTag, hexpression, accessTag, haccess, h⟩ := h
  rw [hexpression, haccess]
  -- both tags are known when neither is reported
  have hknown (code : ReportCode) (i j : Meta)
      (hreports : reportIf (expressionTag = .unknown) code i ++ reportIf (accessTag = .unknown) code j = []) :
      some expressionTag = some Tag.known ∧ some accessTag = some Tag.known := by
    rw [List.append_eq_nil_iff, reportIf_eq_nil, reportIf_eq_nil] at hreports
    cases expressionTag <;> cases accessTag <;> simp at hreports ⊢
  cases hreduces : reducesTo info with
  | var =>
    simp only [hreduces, Option.bind_eq_some_iff, Prod.exists, Option.some.injEq] at h
    obtain ⟨value, isArray, -, rfl⟩ := h
    refine Or.inl ⟨rfl, rfl, _, rfl, fun hvalue => ?_⟩
    have hmax : expressionTag.max accessTag = .known := by
      cases isArray with
      | false => exact hvalue
      | true =>
        simp only [Bool.not_true, Bool.false_eq_true, if_false] at hvalue
        split at hvalue
        · exact hvalue
        · next hne => exact absurd hvalue hne
    rw [(max_eq_known.mp hmax).1]
  | component t =>
    simp only [hreduces, Option.some.injEq] at h
    subst h
    exact Or.inr ⟨by simp, rfl, rfl, Or.inl ⟨Or.inl ⟨⟨t, rfl⟩, rfl⟩, hknown _ _ _⟩⟩
  | tag =>
    simp only [hreduces, Option.some.injEq] at h
    subst h
    exact Or.inr ⟨by simp, rfl, rfl, Or.inl ⟨Or.inr ⟨rfl, rfl⟩, hknown _ _ _⟩⟩
  | signal =>
    simp only [hreduces] at h
    split at h
    · obtain ⟨henvironment, hmodified, hdeclared, hreports⟩ := analyzeConstraintSignal_cases h
      refine Or.inr ⟨by simp, hmodified, henvironment, Or.inr ⟨Or.inl rfl, fun _ => ⟨hdeclared, ?_⟩⟩⟩
      intro h
      obtain ⟨haccess, hindex⟩ := hreports h
      exact ⟨by rw [haccess], hindex⟩
    · next hop =>
      simp only [Option.some.injEq] at h
      subst h
      exact Or.inr ⟨by simp, rfl, rfl, Or.inr ⟨Or.inl rfl, fun h => absurd h hop⟩⟩
  | bus b =>
    simp only [hreduces] at h
    split at h
    · simp only [Option.bind_eq_some_iff, Option.some.injEq] at h
      obtain ⟨inner, h, rfl⟩ := h
      obtain ⟨henvironment, hmodified, hdeclared, hreports⟩ := analyzeConstraintSignal_cases h
      refine Or.inr ⟨by simp, hmodified, henvironment, Or.inr ⟨Or.inr ⟨b, rfl⟩, fun _ => ⟨hdeclared, ?_⟩⟩⟩
      intro h
      obtain ⟨haccess, hindex⟩ := hreports (List.append_eq_nil_iff.mp h).2
      exact ⟨by rw [haccess], hindex⟩
    · next hop =>
      simp only [Option.some.injEq] at h
      subst h
      exact Or.inr ⟨by simp, rfl, rfl, Or.inr ⟨Or.inr ⟨b, rfl⟩, fun h => absurd h hop⟩⟩

theorem dimensionReports_eq_nil (h : dimensionReports reducesTo environment dimensions = some []) :
    ∀ e ∈ dimensions, tag reducesTo environment e = some .known := by
  induction dimensions with
  | nil => simp
  | cons dimension dimensions ih =>
    simp only [dimensionReports, Option.bind_eq_bind, Option.bind_eq_some_iff, Option.some.injEq,
      List.append_eq_nil_iff, reportIf_eq_nil] at h
    obtain ⟨t, ht, reports, hreports, hunknown, rfl⟩ := h
    refine List.forall_mem_cons.mpr ⟨?_, ih hreports⟩
    cases t with
    | known => exact ht
    | unknown => simp at hunknown

/-- What the analysis of a declaration can find. -/
theorem analyzeDeclaration_cases {xtype : VariableType} {name : String}
    (h : analyzeDeclaration reducesTo xtype name dimensions environment = some exit) :
    (xtype = .var ∧ exit.modifiedVariables = [name] ∧ exit.environment =
      { environment with vars := environment.vars.addVariable name (.known, !dimensions.isEmpty) }) ∨
    (xtype ≠ .var ∧ exit.modifiedVariables = [] ∧ exit.signalsDeclared = true ∧
      exit.environment.vars = environment.vars ∧
      (exit.environment.components = environment.components ∨
        exit.environment.components = environment.components.insert name .unknown) ∧
      (xtype ≠ .anonymousComponent → exit.reports = [] →
        ∀ e ∈ dimensions, tag reducesTo exit.environment e = some .known)) := by
  cases xtype with
  | var =>
    simp only [analyzeDeclaration, Option.bind_eq_bind, Option.bind_eq_some_iff, reduceCtorEq, if_false,
      Option.some.injEq] at h
    obtain ⟨reports, -, rfl⟩ := h
    exact Or.inl ⟨rfl, rfl, rfl⟩
  | anonymousComponent =>
    simp only [analyzeDeclaration, if_true, Option.some.injEq] at h
    subst h
    exact Or.inr ⟨by simp, rfl, rfl, rfl, Or.inr rfl, fun h => absurd rfl h⟩
  | component =>
    simp only [analyzeDeclaration, Option.bind_eq_bind, Option.bind_eq_some_iff, reduceCtorEq, if_false,
      Option.some.injEq] at h
    obtain ⟨reports, hreports, rfl⟩ := h
    refine Or.inr ⟨by simp, rfl, rfl, rfl, Or.inr rfl, fun _ hnil => ?_⟩
    subst hnil
    exact dimensionReports_eq_nil hreports
  | signal =>
    simp only [analyzeDeclaration, Option.bind_eq_bind, Option.bind_eq_some_iff, reduceCtorEq, if_false,
      Option.some.injEq] at h
    obtain ⟨reports, hreports, rfl⟩ := h
    refine Or.inr ⟨by simp, rfl, rfl, rfl, Or.inl rfl, fun _ hnil => ?_⟩
    subst hnil
    exact dimensionReports_eq_nil hreports
  | bus =>
    simp only [analyzeDeclaration, Option.bind_eq_bind, Option.bind_eq_some_iff, reduceCtorEq, if_false,
      Option.some.injEq] at h
    obtain ⟨reports, hreports, rfl⟩ := h
    refine Or.inr ⟨by simp, rfl, rfl, rfl, Or.inl rfl, fun _ hnil => ?_⟩
    subst hnil
    exact dimensionReports_eq_nil hreports

/-- The analysis of an `else` branch, which may be missing. -/
def analyzeElse (reducesTo : Meta → TypeReduction) (fuel : ℕ) (environment : Environment) :
    Option Statement → Option ExitInformation
  | some elseStmt => analyze reducesTo fuel elseStmt environment
  | none => some { environment := environment }

theorem analyze_ifThenElse {ifCase : Statement} {elseCase : Option Statement}
    (h : analyze reducesTo fuel (.ifThenElse info cond ifCase elseCase) environment = some exit) :
    ∃ tagCond ifInfo elseInfo, tag reducesTo environment cond = some tagCond ∧
      analyze reducesTo fuel ifCase environment = some ifInfo ∧
      analyzeElse reducesTo fuel environment elseCase = some elseInfo ∧
      exit = { ifInfo.add elseInfo with
        environment :=
          if tagCond = .unknown then
            markUnknown (ifInfo.modifiedVariables ++ elseInfo.modifiedVariables)
              (ifInfo.environment.merge elseInfo.environment)
          else ifInfo.environment.merge elseInfo.environment
        reports := ifInfo.reports ++ elseInfo.reports ++ unreachableReports tagCond
          (ifInfo.constraintsDeclared || elseInfo.constraintsDeclared)
          (ifInfo.tagsModified || elseInfo.tagsModified)
          (ifInfo.signalsDeclared || elseInfo.signalsDeclared) cond.info } := by
  cases elseCase with
  | some elseStmt =>
    simp only [analyze, Option.bind_eq_bind, Option.bind_eq_some_iff, Option.some.injEq] at h
    obtain ⟨tagCond, htag, ifInfo, hif, elseInfo, helse, rfl⟩ := h
    exact ⟨tagCond, ifInfo, elseInfo, htag, hif, helse, rfl⟩
  | none =>
    simp only [analyze, Option.bind_eq_bind, Option.bind_eq_some_iff, Option.some.injEq] at h
    obtain ⟨tagCond, htag, ifInfo, hif, elseInfo, rfl, rfl⟩ := h
    exact ⟨tagCond, ifInfo, _, htag, hif, rfl, rfl⟩

theorem analyze_whileStmt (h : analyze reducesTo fuel (.whileStmt info cond stmt) environment = some exit) :
    ∃ entry body after tagOut,
      analyzeLoop (fun environment => analyze reducesTo fuel stmt environment) fuel environment =
        some (entry, body, after) ∧
      tag reducesTo after cond = some tagOut ∧
      exit =
        { reports := body.reports ++ unreachableReports tagOut body.constraintsDeclared body.tagsModified
            body.signalsDeclared cond.info
          environment := if tagOut = .unknown then markUnknown body.modifiedVariables after else after
          constraintsDeclared := body.constraintsDeclared
          tagsModified := body.tagsModified
          signalsDeclared := body.signalsDeclared } := by
  simp only [analyze, Option.bind_eq_bind, Option.bind_eq_some_iff, Prod.exists, Option.some.injEq] at h
  obtain ⟨entry, body, after, hloop, tagOut, htag, rfl⟩ := h
  exact ⟨entry, body, after, tagOut, hloop, htag, rfl⟩

/-- The last round of a loop: no variable gets unknown in it. -/
theorem analyzeLoop_last {analyzeBody : Environment → Option ExitInformation} {entry after : Environment}
    {body : ExitInformation} (h : analyzeLoop analyzeBody fuel environment = some (entry, body, after)) :
    analyzeBody entry = some body ∧
      checkModified entry body.environment body.modifiedVariables = (false, after) := by
  induction fuel generalizing environment with
  | zero => simp [analyzeLoop] at h
  | succ fuel ih =>
    simp only [analyzeLoop, Option.bind_eq_bind, Option.bind_eq_some_iff] at h
    obtain ⟨exit, hbody, h⟩ := h
    split at h
    · exact ih h
    · next hmodified =>
      simp only [Option.some.injEq, Prod.mk.injEq] at h
      obtain ⟨rfl, rfl, rfl⟩ := h
      exact ⟨hbody, Prod.ext (by simpa using hmodified) rfl⟩

theorem add_add (a b c : ExitInformation) : (a.add b).add c = a.add (b.add c) := by
  simp [ExitInformation.add, List.append_assoc, Bool.or_assoc]

theorem start_add (environment : Environment) (exit : ExitInformation) :
    ExitInformation.add { environment := environment } exit = exit := rfl

theorem iterateStatements_eq (fuel : ℕ) (stmts : List Statement) (acc : ExitInformation) :
    iterateStatements reducesTo fuel stmts acc =
      (iterateStatements reducesTo fuel stmts { environment := acc.environment }).map acc.add := by
  induction stmts generalizing acc with
  | nil => simp [iterateStatements, ExitInformation.add]
  | cons stmt stmts ih =>
    simp only [iterateStatements, Option.bind_eq_bind, start_add]
    cases analyze reducesTo fuel stmt acc.environment with
    | none => rfl
    | some exit =>
      rw [Option.bind_some, Option.bind_some, ih, ih exit, Option.map_map]
      congr 1
      funext exit'
      exact add_add acc exit exit'

theorem iterateStatements_cons
    (h : iterateStatements reducesTo fuel (stmt :: stmts) { environment := environment } = some exit) :
    ∃ first rest, analyze reducesTo fuel stmt environment = some first ∧
      iterateStatements reducesTo fuel stmts { environment := first.environment } = some rest ∧
      exit = first.add rest := by
  simp only [iterateStatements, Option.bind_eq_bind, Option.bind_eq_some_iff, start_add] at h
  obtain ⟨first, hfirst, h⟩ := h
  rw [iterateStatements_eq, Option.map_eq_some_iff] at h
  obtain ⟨rest, hrest, rfl⟩ := h
  exact ⟨first, rest, hfirst, hrest, rfl⟩

theorem analyze_block (h : analyze reducesTo fuel (.block info stmts) environment = some exit) :
    ∃ inner, iterateStatements reducesTo fuel stmts
        { environment := { environment with vars := environment.vars.addVariableBlock } } = some inner ∧
      exit = { inner with
        environment := { inner.environment with vars := inner.environment.vars.removeVariableBlock } } := by
  simp only [analyze, Option.bind_eq_bind, Option.bind_eq_some_iff, Option.some.injEq] at h
  obtain ⟨inner, hinner, rfl⟩ := h
  exact ⟨inner, hinner, rfl⟩

/-- What the analysis of a constraint can find. -/
theorem analyze_constraintEquality {lhe : Expression}
    (h : analyze reducesTo fuel (.constraintEquality info lhe rhe) environment = some exit) :
    exit.environment = environment ∧ exit.modifiedVariables = [] ∧ exit.constraintsDeclared = true ∧
      (exit.reports = [] → unknownIndex reducesTo environment lhe = some false ∧
        unknownIndex reducesTo environment rhe = some false) := by
  simp only [analyze, isNonQuadratic, Option.bind_eq_bind, Option.bind_eq_some_iff, Option.some.injEq] at h
  obtain ⟨l, hl, r, hr, rfl⟩ := h
  refine ⟨rfl, rfl, rfl, fun hreports => ?_⟩
  rw [List.append_eq_nil_iff, reportIf_eq_nil, reportIf_eq_nil] at hreports
  obtain ⟨rfl, rfl⟩ := hreports
  exact ⟨hl, hr⟩

theorem analyze_underscoreSubstitution
    (h : analyze reducesTo fuel (.underscoreSubstitution info op rhe) environment = some exit) :
    exit.environment = environment ∧ exit.modifiedVariables = [] ∧
      (op = .assignConstraintSignal → exit.constraintsDeclared = true ∧
        (exit.reports = [] → unknownIndex reducesTo environment rhe = some false)) := by
  simp only [analyze, Option.bind_eq_bind, Option.bind_eq_some_iff] at h
  obtain ⟨t, -, h⟩ := h
  split at h
  · simp only [isNonQuadratic, Option.bind_eq_some_iff, Option.some.injEq] at h
    obtain ⟨nonQuadratic, hindex, rfl⟩ := h
    refine ⟨rfl, rfl, fun _ => ⟨rfl, fun hreports => ?_⟩⟩
    rw [reportIf_eq_nil] at hreports
    rw [hindex, hreports]
  · next hop =>
    simp only [Option.some.injEq] at h
    subst h
    exact ⟨rfl, rfl, fun h => absurd h hop⟩

end Circom.TypeAnalysis
