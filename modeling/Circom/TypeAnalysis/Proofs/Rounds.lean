import Circom.TypeAnalysis.Proofs.Assigned

/-!
# What the analysis of a statement changes

The analysis makes only variables known that the statement assigns to. The set that it hands on is the one
that can be read off the statement. The rounds of a loop go on until every variable that is known at the start
of the body is known at its end, those excepted that are dropped.
-/

namespace Circom.TypeAnalysis

open Circom.Ast
open Circom.Lib (HashMap Scopes)
open Circom.Lib.Scopes
open Circom.ProgramStructure
open Circom.ProgramStructure.Variables

variable {reducesTo : Meta → TypeReduction}
variable {a after b entry environment : Environment} {analyzeBody : Environment → Option ExitInformation}
variable {body : ExitInformation} {assigned : List String} {fuel : ℕ}

/-! ## The collected variables -/

mutual

theorem modifiedVariables_analyze (fuel : ℕ) : ∀ (stmt : Statement) (environment : Environment)
    (exit : ExitInformation), analyze reducesTo fuel stmt environment = some exit →
    exit.modifiedVariables = collectedVariables reducesTo stmt
  | .declaration _ xtype name dimensions _ _, environment, exit, h => by
    rcases analyzeDeclaration_cases h with ⟨rfl, hmodified, -⟩ | ⟨hvar, hmodified, -⟩
    · exact hmodified
    · cases xtype with
      | var => exact absurd rfl hvar
      | _ => exact hmodified
  | .substitution info var access op rhe, environment, exit, h => by
    rcases analyzeSubstitution_cases h with ⟨hvar, hmodified, -⟩ | ⟨hvar, hmodified, -⟩
    · rw [hmodified, collectedVariables, if_pos hvar]
    · rw [hmodified, collectedVariables, if_neg hvar]
  | .underscoreSubstitution _ op rhe, environment, exit, h => (analyze_underscoreSubstitution h).2.1
  | .constraintEquality _ lhe rhe, environment, exit, h => (analyze_constraintEquality h).2.1
  | .ifThenElse _ cond ifCase none, environment, exit, h => by
    obtain ⟨tagCond, ifInfo, elseInfo, -, hif, ⟨rfl⟩, rfl⟩ := analyze_ifThenElse h
    have hmodified := modifiedVariables_analyze fuel ifCase environment ifInfo hif
    simp [ExitInformation.add, collectedVariables, hmodified]
  | .ifThenElse _ cond ifCase (some elseStmt), environment, exit, h => by
    obtain ⟨tagCond, ifInfo, elseInfo, -, hif, helse, rfl⟩ := analyze_ifThenElse h
    have hmodified := modifiedVariables_analyze fuel ifCase environment ifInfo hif
    have hmodifiedElse := modifiedVariables_analyze fuel elseStmt environment elseInfo helse
    simp [ExitInformation.add, collectedVariables, hmodified, hmodifiedElse]
  | .whileStmt _ cond stmt, environment, exit, h => by
    obtain ⟨entry, body, after, tagOut, -, -, rfl⟩ := analyze_whileStmt h
    rfl
  | .block _ stmts, environment, exit, h => by
    obtain ⟨inner, hinner, rfl⟩ := analyze_block h
    exact modifiedVariables_iterateStatements fuel stmts _ inner hinner
  | .initializationBlock _ _ initializations, environment, exit, h =>
    modifiedVariables_iterateStatements fuel initializations environment exit h
  | .assert _ arg, environment, exit, h => by
    simp only [analyze, Option.some.injEq] at h
    subst h
    rfl
  | .logCall .., environment, exit, h => by
    simp only [analyze, Option.some.injEq] at h
    subst h
    rfl
  | .returnStmt .., environment, exit, h => by
    simp only [analyze, Option.some.injEq] at h
    subst h
    rfl
  | .multSubstitution .., environment, exit, h => by
    simp only [analyze, Option.some.injEq] at h
    subst h
    rfl

theorem modifiedVariables_iterateStatements (fuel : ℕ) : ∀ (stmts : List Statement)
    (environment : Environment) (exit : ExitInformation),
    iterateStatements reducesTo fuel stmts { environment := environment } = some exit →
    exit.modifiedVariables = collectedInSequence reducesTo stmts
  | [], environment, exit, h => by
    simp only [iterateStatements, Option.some.injEq] at h
    subst h
    rfl
  | stmt :: stmts, environment, exit, h => by
    obtain ⟨first, rest, hfirst, hrest, rfl⟩ := iterateStatements_cons h
    rw [ExitInformation.add, modifiedVariables_analyze fuel stmt environment first hfirst,
      modifiedVariables_iterateStatements fuel stmts _ rest hrest]
    rfl

end

/-! ## The rounds of a loop -/

theorem eachRound_of_forall {p : Environment → Environment → Prop}
    (h : ∀ environment exit, analyzeBody environment = some exit → p environment exit.environment) :
    ∀ (fuel : ℕ) (environment : Environment), EachRound analyzeBody p fuel environment
  | 0, _ => trivial
  | fuel + 1, environment => fun exit hexit =>
    ⟨h environment exit hexit, fun _ => eachRound_of_forall h fuel _⟩

/-- What holds from the start of every round to its end holds from the start of the loop to the start of the
last round and from there to the end. -/
theorem analyzeLoop_induction {p r : Environment → Environment → Prop}
    (hrefl : ∀ environment, r environment environment) (htrans : ∀ a b c, r a b → r b c → r a c)
    (hround : ∀ environment exit, analyzeBody environment = some exit → p environment exit.environment → r environment (checkModified environment exit.environment exit.modifiedVariables).2)
    (hrounds : EachRound analyzeBody p fuel environment)
    (h : analyzeLoop analyzeBody fuel environment = some (entry, body, after)) :
    r environment entry ∧ p entry body.environment ∧ r entry after := by
  induction fuel generalizing environment with
  | zero => simp [analyzeLoop] at h
  | succ fuel ih =>
    simp only [analyzeLoop, Option.bind_eq_bind, Option.bind_eq_some_iff] at h
    obtain ⟨exit, hbody, h⟩ := h
    obtain ⟨hp, hnext⟩ := hrounds exit hbody
    have hfirst := hround environment exit hbody hp
    split at h
    · next hmodified =>
      obtain ⟨hentry, hrest⟩ := ih (hnext hmodified) h
      exact ⟨htrans _ _ _ hfirst hentry, hrest⟩
    · simp only [Option.some.injEq, Prod.mk.injEq] at h
      obtain ⟨rfl, rfl, rfl⟩ := h
      exact ⟨hrefl environment, hp, hfirst⟩

/-! ## Changes of the environment -/

/-- No component is tagged known. -/
def ComponentsUnknown (components : HashMap String Tag) : Prop :=
  ∀ name t, components.lookup name = some t → t = .unknown

theorem componentsUnknown_insert {components : HashMap String Tag} (h : ComponentsUnknown components)
    (name : String) : ComponentsUnknown (components.insert name .unknown) := by
  intro name' t ht
  by_cases hname : name' = name
  · rw [hname, AList.lookup_insert, Option.some.injEq] at ht
    exact ht.symm
  · rw [AList.lookup_insert_ne hname] at ht
    exact h name' t ht

theorem componentsUnknown_foldl_insert (l : List (String × Tag)) (hl : ∀ e ∈ l, e.2 = .unknown)
    {components : HashMap String Tag} (h : ComponentsUnknown components) :
    ComponentsUnknown
      (l.foldl (fun (components : HashMap String Tag) e => components.insert e.1 e.2) components) := by
  induction l generalizing components with
  | nil => exact h
  | cons e l ih =>
    rw [List.forall_mem_cons] at hl
    have hinsert := componentsUnknown_insert h e.1
    rw [← hl.1] at hinsert
    exact ih hl.2 hinsert

theorem componentsUnknown_merge {left right : Environment} (hleft : ComponentsUnknown left.components)
    (hright : ComponentsUnknown right.components) :
    ComponentsUnknown (left.merge right).components := by
  refine componentsUnknown_foldl_insert _ (fun e he => ?_) hleft
  exact hright e.1 e.2 (AList.mem_pairs_iff_lookup.mp he)

/-- The environment changes as the analysis of a statement may change it. -/
def Evolves (assigned declared : List String) (environment environment' : Environment) : Prop :=
  environment.vars ≠ [] →
    Grows Keeps (· ∈ assigned) (· ∈ declared) environment.vars environment'.vars ∧
      (ComponentsUnknown environment.components → ComponentsUnknown environment'.components)

theorem Evolves.refl (assigned : List String) (environment : Environment) :
    Evolves assigned [] environment environment :=
  fun _ => ⟨grows_nil_iff.mpr (Grows.refl environment.vars), id⟩

theorem Evolves.append {first second firstDeclared secondDeclared : List String} {c : Environment}
    (h : Evolves first firstDeclared a b) (h' : Evolves second secondDeclared b c) :
    Evolves (first ++ second.filter (· ∉ firstDeclared)) (firstDeclared ++ secondDeclared) a c := by
  intro ha
  obtain ⟨hvars, hcomponents⟩ := h ha
  obtain ⟨hvars', hcomponents'⟩ := h' (Grows.ne_nil hvars ha)
  exact ⟨grows_append hvars hvars', hcomponents' ∘ hcomponents⟩

theorem Evolves.mono {assigned' : List String} (h : Evolves assigned [] a b)
    (hmem : ∀ name ∈ assigned, name ∈ assigned') :
    Evolves assigned' [] a b := fun ha => ⟨(h ha).1.mono hmem, (h ha).2⟩

theorem Evolves.trans {c : Environment} (h : Evolves assigned [] a b)
    (h' : Evolves assigned [] b c) : Evolves assigned [] a c := by
  refine (h.append h').mono fun name hname => ?_
  rcases List.mem_append.mp hname with hname | hname
  · exact hname
  · exact (List.mem_filter.mp hname).1

theorem Evolves.sameKeys (h : Evolves assigned [] a b) (ha : a.vars ≠ []) : SameKeys a.vars b.vars :=
  (grows_nil_iff.mp (h ha).1).sameKeys

theorem evolves_of_weaker (h : Weaker a.vars b.vars)
    (hcomponents : ComponentsUnknown a.components → ComponentsUnknown b.components)
    (assigned : List String) : Evolves assigned [] a b :=
  fun _ => ⟨grows_nil_iff.mpr (h.mono fun _ hfalse => hfalse.elim), hcomponents⟩

theorem evolves_markUnknown (names : List String) (environment : Environment) (assigned : List String) :
    Evolves assigned [] environment (markUnknown names environment) := by
  refine evolves_of_weaker (weaker_markUnknown names environment) ?_ assigned
  rw [components_markUnknown]
  exact id

theorem weaker_checkModified {initialState finalState : Environment}
    (hkeys : SameKeys initialState.vars finalState.vars) (names : List String) :
    Weaker finalState.vars (checkModified initialState finalState names).2.vars :=
  weaker_of_known (hkeys.symm.trans (sameKeys_checkNames names hkeys).1) fun _ _ hknown =>
    (knownAt_checkNames names hkeys hknown).1

/-- The variables of an unknown condition are marked. -/
theorem Evolves.mark (h : Evolves assigned [] a b) (t : Tag) (names : List String) :
    Evolves assigned [] a (if t = .unknown then markUnknown names b else b) := by
  split
  · exact h.trans (evolves_markUnknown names b assigned)
  · exact h

/-- The end of a round. -/
theorem Evolves.round (h : Evolves assigned [] a b)
    (names : List String) : Evolves assigned [] a (checkModified a b names).2 := by
  intro ha
  have hkeys := h.sameKeys ha
  refine (h.trans (evolves_of_weaker (weaker_checkModified hkeys names) ?_ assigned)) ha
  rw [checkModified_eq, (sameKeys_checkNames names hkeys).2]
  exact id

theorem evolves_analyzeLoop (hbody : ∀ a exit, analyzeBody a = some exit → Evolves assigned [] a exit.environment)
    (h : analyzeLoop analyzeBody fuel environment = some (entry, body, after)) :
    Evolves assigned [] environment entry ∧ Evolves assigned [] entry after := by
  obtain ⟨hentry, -, hafter⟩ := analyzeLoop_induction
    (r := fun a b => Evolves assigned [] a b) (p := fun _ _ => True)
    (fun a => Evolves.refl _ a) (fun _ _ _ h h' => h.trans h')
    (fun a exit h _ => (hbody a exit h).round exit.modifiedVariables)
    (eachRound_of_forall (fun _ _ _ => trivial) fuel environment) h
  exact ⟨hentry, hafter⟩

/-- Variables that are not joined and have the same tag at the end of the body get known in no round. -/
theorem weaker_round {names : List String} (h : Evolves assigned [] a b) (ha : a.vars ≠ [])
    (hnames : ∀ name ∈ assigned, name ∉ names → Tagged b name .known → Tagged a name .known) :
    Weaker a.vars (checkModified a b names).2.vars := by
  have hkeys := h.sameKeys ha
  refine weaker_of_known (hkeys.trans (weaker_checkModified hkeys names).sameKeys) ?_
  intro i name hknown
  obtain ⟨hafter, hbefore⟩ := knownAt_checkNames names hkeys hknown
  rcases (h ha).1.entries i name with hkeeps | ⟨hassigned, hinner⟩ | ⟨-, hmem⟩
  · exact hkeeps hafter
  · by_cases hmem : name ∈ names
    · exact hbefore hmem hinner
    · refine (tagged_iff_knownAt hinner).mp (hnames name hassigned hmem ?_)
      exact (tagged_iff_knownAt (hkeys.innermost.mp hinner)).mpr hafter
  · simp at hmem

/-- What a loop knows at the start of its last round was known before the loop, and what it knows at the end
was known at the start of the last round. -/
theorem weaker_analyzeLoop {collected : List String}
    (hbody : ∀ a exit, analyzeBody a = some exit → Evolves assigned [] a exit.environment ∧ exit.modifiedVariables = collected)
    (henvironment : environment.vars ≠ [])
    (hrounds : EachRound analyzeBody (fun a b => ∀ name ∈ assigned, name ∉ collected → ∀ t, Tagged a name t ↔ Tagged b name t) fuel environment)
    (h : analyzeLoop analyzeBody fuel environment = some (entry, body, after)) :
    Weaker environment.vars entry.vars ∧ Weaker entry.vars after.vars ∧
      ∀ name ∈ assigned, name ∉ collected → ∀ t, Tagged entry name t ↔ Tagged body.environment name t := by
  obtain ⟨hentry, hdropped, hafter⟩ := analyzeLoop_induction
    (r := fun a b => a.vars ≠ [] → Weaker a.vars b.vars)
    (fun a _ => Weaker.refl a.vars)
    (fun a b c h h' ha => (h ha).trans (h' (Grows.ne_nil (h ha) ha)))
    (fun a exit h hp ha => by
      obtain ⟨hevolves, hmodified⟩ := hbody a exit h
      rw [hmodified]
      exact weaker_round hevolves ha fun name hname hnot => (hp name hname hnot .known).mpr)
    hrounds h
  exact ⟨hentry henvironment, hafter (Grows.ne_nil (hentry henvironment) henvironment), hdropped⟩

/-- Both branches of a conditional start from one environment. -/
theorem Evolves.merge {first second : List String} {left right : Environment}
    (hleft : Evolves first [] environment left) (hright : Evolves second [] environment right)
    (hfirst : ∀ name ∈ first, name ∈ assigned) : Evolves assigned [] environment (left.merge right) := by
  intro henvironment
  have hkeys := (hleft.sameKeys henvironment).symm.trans (hright.sameKeys henvironment)
  have hweaker : Weaker left.vars (left.merge right).vars := (weaker_merge hkeys).1
  obtain ⟨hvars, hcomponents⟩ := (hleft.mono hfirst) henvironment
  obtain ⟨-, hcomponents'⟩ := hright henvironment
  have hmerged : Grows Keeps (· ∈ assigned) (· ∈ ([] : List String)) left.vars (left.merge right).vars :=
    grows_nil_iff.mpr (hweaker.mono fun _ hfalse => hfalse.elim)
  have hgrows := grows_append hvars hmerged
  refine ⟨hgrows.mono ?_, fun h => componentsUnknown_merge (hcomponents h) (hcomponents' h)⟩
  intro name hname
  rcases List.mem_append.mp hname with hname | hname
  · exact hname
  · exact (List.mem_filter.mp hname).1

mutual

theorem evolves_analyze (fuel : ℕ) : ∀ (stmt : Statement) (environment : Environment)
    (exit : ExitInformation), Scalar stmt → analyze reducesTo fuel stmt environment = some exit →
    Evolves (assignedVariables reducesTo stmt) (declaredVariables stmt) environment exit.environment
  | .declaration info xtype name dimensions c a, environment, exit, _, h => by
    rcases analyzeDeclaration_cases h with ⟨rfl, -, henvironment⟩ | ⟨hvar, -, -, hvars, hcomponents, -⟩
    · rw [henvironment]
      exact fun ha => ⟨grows_addVariable ha name _, id⟩
    · have hdeclares : declaredVariables (.declaration info xtype name dimensions c a) = [] := by
        cases xtype with
        | var => exact absurd rfl hvar
        | _ => rfl
      rw [hdeclares]
      refine evolves_of_weaker (by rw [hvars]; exact Weaker.refl _) (fun hunknown => ?_) _
      rcases hcomponents with hsame | hinsert
      · rw [hsame]
        exact hunknown
      · rw [hinsert]
        exact componentsUnknown_insert hunknown name
  | .substitution info var access op rhe, environment, exit, _, h => by
    rcases analyzeSubstitution_cases h with ⟨hvar, -, content, henvironment, -⟩ | ⟨-, -, henvironment, -⟩
    · rw [henvironment, assignedVariables, if_pos hvar]
      exact fun _ => ⟨grows_setVariable var content, id⟩
    · rw [henvironment]
      exact Evolves.refl _ _
  | .underscoreSubstitution _ op rhe, environment, exit, _, h => by
    rw [(analyze_underscoreSubstitution h).1]
    exact Evolves.refl _ _
  | .constraintEquality _ lhe rhe, environment, exit, _, h => by
    rw [(analyze_constraintEquality h).1]
    exact Evolves.refl _ _
  | .ifThenElse _ cond ifCase none, environment, exit, hscalar, h => by
    obtain ⟨hdeclares, hifCase, -⟩ := hscalar
    obtain ⟨tagCond, ifInfo, elseInfo, -, hif, ⟨rfl⟩, rfl⟩ := analyze_ifThenElse h
    have hleft := evolves_analyze fuel ifCase environment ifInfo hifCase hif
    rw [hdeclares] at hleft
    exact (hleft.merge (Evolves.refl [] environment)
      (fun _ hname => List.mem_append_left _ hname)).mark tagCond _
  | .ifThenElse _ cond ifCase (some elseStmt), environment, exit, hscalar, h => by
    obtain ⟨hdeclares, hifCase, hdeclaresElse, helseStmt⟩ := hscalar
    obtain ⟨tagCond, ifInfo, elseInfo, -, hif, helse, rfl⟩ := analyze_ifThenElse h
    have hleft := evolves_analyze fuel ifCase environment ifInfo hifCase hif
    have hright := evolves_analyze fuel elseStmt environment elseInfo helseStmt helse
    rw [hdeclares] at hleft
    rw [hdeclaresElse] at hright
    exact (hleft.merge hright (fun _ hname => List.mem_append_left _ hname)).mark tagCond _
  | .whileStmt _ cond stmt, environment, exit, hscalar, h => by
    obtain ⟨hdeclares, hstmt⟩ := hscalar
    obtain ⟨entry, body, after, tagOut, hloop, -, rfl⟩ := analyze_whileStmt h
    have hbody (a : Environment) (exit : ExitInformation)
        (h : analyze reducesTo fuel stmt a = some exit) :
        Evolves (assignedVariables reducesTo stmt) [] a exit.environment := by
      have hanalyze := evolves_analyze fuel stmt a exit hstmt h
      rw [hdeclares] at hanalyze
      exact hanalyze
    obtain ⟨hentry, hafter⟩ := evolves_analyzeLoop hbody hloop
    exact (hentry.trans hafter).mark tagOut body.modifiedVariables
  | .block _ stmts, environment, exit, hscalar, h => by
    obtain ⟨inner, hinner, rfl⟩ := analyze_block h
    have hstmts := evolves_iterateStatements fuel stmts _ inner hscalar hinner
    intro _
    obtain ⟨hvars, hcomponents⟩ := hstmts (List.cons_ne_nil _ _)
    exact ⟨(Grows.leave hvars).congr (by simp [declaredVariables]), hcomponents⟩
  | .initializationBlock _ _ initializations, environment, exit, hscalar, h =>
    evolves_iterateStatements fuel initializations environment exit hscalar h
  | .assert _ arg, environment, exit, _, h => by
    simp only [analyze, Option.some.injEq] at h
    subst h
    exact Evolves.refl _ _
  | .logCall .., environment, exit, _, h => by
    simp only [analyze, Option.some.injEq] at h
    subst h
    exact Evolves.refl _ _
  | .returnStmt .., environment, exit, _, h => by
    simp only [analyze, Option.some.injEq] at h
    subst h
    exact Evolves.refl _ _
  | .multSubstitution .., environment, exit, _, h => by
    simp only [analyze, Option.some.injEq] at h
    subst h
    exact Evolves.refl _ _

theorem evolves_iterateStatements (fuel : ℕ) : ∀ (stmts : List Statement) (environment : Environment)
    (exit : ExitInformation), AllScalar stmts →
    iterateStatements reducesTo fuel stmts { environment := environment } = some exit →
    Evolves (assignedInSequence reducesTo stmts) (declaredInSequence stmts) environment exit.environment
  | [], environment, exit, _, h => by
    simp only [iterateStatements, Option.some.injEq] at h
    subst h
    exact Evolves.refl _ _
  | stmt :: stmts, environment, exit, hscalar, h => by
    obtain ⟨first, rest, hfirst, hrest, rfl⟩ := iterateStatements_cons h
    exact (evolves_analyze fuel stmt environment first hscalar.1 hfirst).append
      (evolves_iterateStatements fuel stmts _ rest hscalar.2 hrest)

end

end Circom.TypeAnalysis
