import Circom.TypeAnalysis.Proofs.Cases
import Circom.TypeAnalysis.Proofs.Tags

/-!
# What a run of a statement changes

A run changes only the variables that the statement assigns to, and one in which the analysis finds no
constraint, no tag assignment and no declaration builds nothing.
-/

namespace Circom.TypeAnalysis

open Circom.Ast
open Circom.Lib (HashMap Scopes)
open Circom.Lib.Scopes
open Circom.ProgramStructure
open Circom.ProgramStructure.Variables

variable {V : Type} [DecidableEq V] {reducesTo : Meta → TypeReduction} {ops : Operators V}
  {signals : Wires V}

/-! ## Changes of the variables -/

section Blocks

variable {VC : Type} {r : Option VC → Option VC → Prop} {assigned declared : String → Prop}
  {blocks blocks' : Variables VC}

theorem Grows.ne_nil (h : Grows r assigned declared blocks blocks') (hblocks : blocks ≠ []) :
    blocks' ≠ [] := by
  rw [← List.length_pos_iff] at hblocks ⊢
  rw [h.length]
  exact hblocks

/-- Two statements one after the other, where the second one may be in the scope of the first one. -/
theorem grows_append [IsTrans _ r] {first second firstDeclared secondDeclared : List String}
    {blocks'' : Variables VC} (h : Grows r (· ∈ first) (· ∈ firstDeclared) blocks blocks')
    (h' : Grows r (· ∈ second) (· ∈ secondDeclared) blocks' blocks'') :
    Grows r (· ∈ first ++ second.filter (· ∉ firstDeclared)) (· ∈ firstDeclared ++ secondDeclared)
      blocks blocks'' := by
  refine ((h.trans h').mono ?_).congr ?_
  · rintro name (hname | ⟨hname, hnot⟩)
    · exact List.mem_append_left _ hname
    · refine List.mem_append_right _ (List.mem_filter.mpr ⟨hname, ?_⟩)
      rw [decide_eq_true_eq]
      exact hnot
  · intro name
    rw [List.mem_append]

theorem grows_setVariable [Std.Refl r] (name : String) (content : VC) :
    Grows r (· ∈ [name]) (· ∈ ([] : List String)) blocks (blocks.setVariable name content) where
  length := length_setVariable name content
  keys i k := by rw [← (sameKeys_setVariable blocks name content).2]; simp
  entries i k := by
    rw [entry_setVariable]
    split
    · next h => exact Or.inr (Or.inl ⟨List.mem_singleton.mpr h.1, h.1 ▸ h.2⟩)
    · exact Or.inl (Std.Refl.refl _)

theorem grows_addVariable [Std.Refl r] (hblocks : blocks ≠ []) (name : String) (content : VC) :
    Grows r (· ∈ ([] : List String)) (· ∈ [name]) blocks (blocks.addVariable name content) where
  length := length_addVariable name content
  keys i k := by
    rw [entry_addVariable hblocks]
    split
    · next h => simp [h.1, h.2]
    · next h =>
      rw [List.mem_singleton]
      tauto
  entries i k := by
    rw [entry_addVariable hblocks]
    split
    · next h => exact Or.inr (Or.inr ⟨h.1, List.mem_singleton.mpr h.2⟩)
    · exact Or.inl (Std.Refl.refl _)

/-- Nothing is declared. -/
theorem grows_nil_iff :
    Grows r assigned (· ∈ ([] : List String)) blocks blocks' ↔
      Grows r assigned (fun _ => False) blocks blocks' :=
  ⟨fun h => h.congr (by simp), fun h => h.congr (by simp)⟩

end Blocks

/-! ## Runs -/

/-- The variables change as a statement may change them. -/
def Changes (assigned declared : List String) (s s' : RunState V) : Prop :=
  s.vars ≠ [] → Grows Eq (· ∈ assigned) (· ∈ declared) s.vars s'.vars

theorem Changes.refl (s : RunState V) (assigned : List String) : Changes assigned [] s s :=
  fun _ => grows_nil_iff.mpr (Grows.refl s.vars)

theorem Changes.append {first second firstDeclared secondDeclared : List String}
    {s s' s'' : RunState V} (h : Changes first firstDeclared s s')
    (h' : Changes second secondDeclared s' s'') :
    Changes (first ++ second.filter (· ∉ firstDeclared)) (firstDeclared ++ secondDeclared) s s'' :=
  fun hs => grows_append (h hs) (h' (Grows.ne_nil (h hs) hs))

theorem Changes.mono {assigned assigned' : List String} {s s' : RunState V}
    (h : Changes assigned [] s s') (hmem : ∀ name ∈ assigned, name ∈ assigned') :
    Changes assigned' [] s s' := fun hs => (h hs).mono hmem

theorem changes_execSubstitution {info : Meta} {var : String} {access : List Access} {op : AssignOp}
    {rhe : Expression} {choices : List Choice} {s s' : RunState V} {events : Trace V}
    (h : execSubstitution reducesTo ops signals info var access op rhe choices s = some (s', events)) :
    Changes (if reducesTo info = .var then [var] else []) [] s s' := by
  rcases execSubstitution_cases h with
    ⟨hreduces, v, -, rfl, -⟩ | ⟨-, _, _, _, -, -, rfl, -⟩ | ⟨-, _, _, -, -, rfl, -⟩ | ⟨-, rfl, -⟩
  · rw [if_pos hreduces]
    exact fun _ => grows_setVariable var v
  · exact Changes.refl _ _
  · exact fun _ => grows_nil_iff.mpr (Grows.refl s.vars)
  · exact Changes.refl _ _

mutual

theorem changes_exec (fuel : ℕ) : ∀ (stmt : Statement) (choices : List Choice) (s s' : RunState V)
    (events : Trace V), Scalar stmt →
    exec reducesTo ops signals fuel stmt choices s = some (s', events) →
    Changes (assignedVariables reducesTo stmt) (declaredVariables stmt) s s'
  | .declaration _ xtype name dimensions _ _, choices, s, s', events, _, h => by
    rcases execDeclaration_cases h with ⟨rfl, rfl, -⟩ | ⟨rfl, rfl, -⟩ | ⟨hvar, -, rfl, -⟩
    · exact fun hs => grows_addVariable hs name _
    · exact Changes.refl _ _
    · cases xtype with
      | var => exact absurd rfl hvar
      | _ => exact Changes.refl _ _
  | .substitution info var access op rhe, choices, s, s', events, _, h => changes_execSubstitution h
  | .underscoreSubstitution _ op rhe, choices, s, s', events, _, h => by
    simp only [exec, Option.bind_eq_bind, Option.bind_eq_some_iff, Option.some.injEq,
      Prod.mk.injEq] at h
    obtain ⟨v, -, rfl, -⟩ := h
    exact Changes.refl _ _
  | .constraintEquality _ lhe rhe, choices, s, s', events, _, h => by
    simp only [exec, Option.bind_eq_bind, Option.bind_eq_some_iff, Option.some.injEq,
      Prod.mk.injEq] at h
    obtain ⟨l, -, r, -, rfl, -⟩ := h
    exact Changes.refl _ _
  | .ifThenElse _ cond ifCase none, choices, s, s', events, hscalar, h => by
    obtain ⟨hdeclares, hifCase, -⟩ := hscalar
    rcases exec_ifThenElse h with ⟨-, h⟩ | ⟨-, ⟨elseStmt, helse, -⟩ | ⟨-, rfl, -⟩⟩
    · have hchanges := changes_exec fuel ifCase _ s s' events hifCase h
      rw [hdeclares] at hchanges
      exact hchanges.mono fun name hname => List.mem_append_left _ hname
    · simp at helse
    · exact Changes.refl _ _
  | .ifThenElse _ cond ifCase (some elseStmt), choices, s, s', events, hscalar, h => by
    obtain ⟨hdeclares, hifCase, hdeclaresElse, helseStmt⟩ := hscalar
    rcases exec_ifThenElse h with ⟨-, h⟩ | ⟨-, ⟨elseStmt, ⟨rfl⟩, h⟩ | ⟨helse, -⟩⟩
    · have hchanges := changes_exec fuel ifCase _ s s' events hifCase h
      rw [hdeclares] at hchanges
      exact hchanges.mono fun name hname => List.mem_append_left _ hname
    · have hchanges := changes_exec fuel elseStmt _ s s' events helseStmt h
      rw [hdeclaresElse] at hchanges
      exact hchanges.mono fun name hname => List.mem_append_right _ hname
    · simp at helse
  | .whileStmt _ cond stmt, choices, s, s', events, hscalar, h => by
    obtain ⟨hdeclares, hstmt⟩ := hscalar
    refine execLoop_induction (r := fun s s' _ => Changes (assignedVariables reducesTo stmt) [] s s')
      (fun s => Changes.refl _ _) ?_ ?_ fuel 0 s s' events h
    · intro s s1 s2 _ _ h1 h2
      refine (h1.append h2).mono fun name hname => ?_
      rcases List.mem_append.mp hname with hname | hname
      · exact hname
      · exact (List.mem_filter.mp hname).1
    · intro k s s1 events1 h1
      have hchanges := changes_exec fuel stmt _ s s1 events1 hstmt h1
      rw [hdeclares] at hchanges
      exact hchanges
  | .block _ stmts, choices, s, s', events, hscalar, h => by
    obtain ⟨s1, h1, rfl⟩ := exec_block h
    have hchanges := changes_execAll fuel stmts choices _ s1 events hscalar h1
    exact fun _ => (Grows.leave (hchanges (List.cons_ne_nil _ _))).congr (by simp [declaredVariables])
  | .initializationBlock _ _ initializations, choices, s, s', events, hscalar, h =>
    changes_execAll fuel initializations choices s s' events hscalar h
  | .assert _ arg, choices, s, s', events, _, h => by
    obtain ⟨rfl, -⟩ := exec_assert h
    exact Changes.refl _ _
  | .logCall .., _, s, s', events, _, h => by
    simp only [exec, Option.some.injEq, Prod.mk.injEq] at h
    obtain ⟨rfl, -⟩ := h
    exact Changes.refl _ _
  | .returnStmt .., _, s, s', events, _, h => by simp [exec] at h
  | .multSubstitution .., _, s, s', events, _, h => by simp [exec] at h

theorem changes_execAll (fuel : ℕ) : ∀ (stmts : List Statement) (choices : List Choice)
    (s s' : RunState V) (events : Trace V), AllScalar stmts →
    execAll reducesTo ops signals fuel stmts choices s = some (s', events) →
    Changes (assignedInSequence reducesTo stmts) (declaredInSequence stmts) s s'
  | [], choices, s, s', events, _, h => by
    simp only [execAll, Option.some.injEq, Prod.mk.injEq] at h
    obtain ⟨rfl, -⟩ := h
    exact Changes.refl _ _
  | stmt :: stmts, choices, s, s', events, hscalar, h => by
    obtain ⟨s1, events1, events2, h1, h2, -⟩ := execAll_cons h
    exact (changes_exec fuel stmt choices s s1 events1 hscalar.1 h1).append
      (changes_execAll fuel stmts choices s1 s' events2 hscalar.2 h2)

end

/-! ## Statements that build nothing -/

/-- The analysis has found no constraint, no tag assignment and no declaration. -/
def ExitInformation.Silent (exit : ExitInformation) : Prop :=
  exit.constraintsDeclared = false ∧ exit.tagsModified = false ∧ exit.signalsDeclared = false

theorem silent_add {a b : ExitInformation} : (a.add b).Silent ↔ a.Silent ∧ b.Silent := by
  simp only [ExitInformation.Silent, ExitInformation.add, Bool.or_eq_false_iff]
  tauto

theorem silent_execSubstitution {info : Meta} {var : String} {access : List Access} {op : AssignOp}
    {rhe : Expression} {environment : Environment} {exit : ExitInformation} {choices : List Choice}
    {s s' : RunState V} {events : Trace V}
    (hanalyze : analyzeSubstitution reducesTo info var access op rhe environment = some exit)
    (hsilent : exit.Silent)
    (h : execSubstitution reducesTo ops signals info var access op rhe choices s = some (s', events)) :
    s'.tags = s.tags ∧ events = [] := by
  obtain ⟨hconstraints, htags, -⟩ := hsilent
  rcases execSubstitution_cases h with
    ⟨-, v, -, rfl, rfl⟩ | ⟨⟨t, hreduces⟩, _, _, _, -, -, -, -⟩ | ⟨hreduces, _, _, -, -, -, -⟩ |
      ⟨hreduces, rfl, rfl⟩
  · exact ⟨rfl, rfl⟩
  · rcases analyzeSubstitution_cases hanalyze with
      ⟨hvar, -⟩ | ⟨-, -, -, ⟨⟨-, hdeclared⟩ | ⟨htag, -⟩, -⟩ | ⟨hsignal | ⟨b, hbus⟩, -⟩⟩
    · simp [hreduces] at hvar
    · simp [hdeclared] at hconstraints
    · simp [hreduces] at htag
    · simp [hreduces] at hsignal
    · simp [hreduces] at hbus
  · rcases analyzeSubstitution_cases hanalyze with
      ⟨hvar, -⟩ | ⟨-, -, -, ⟨⟨⟨t, hcomponent⟩, -⟩ | ⟨-, hmodified⟩, -⟩ | ⟨hsignal | ⟨b, hbus⟩, -⟩⟩
    · simp [hreduces] at hvar
    · simp [hreduces] at hcomponent
    · simp [hmodified] at htags
    · simp [hreduces] at hsignal
    · simp [hreduces] at hbus
  · refine ⟨rfl, ?_⟩
    rcases analyzeSubstitution_cases hanalyze with
      ⟨hvar, -⟩ | ⟨-, -, -, ⟨⟨⟨t, hcomponent⟩, -⟩ | ⟨htag, -⟩, -⟩ | ⟨-, hconstraint⟩⟩
    · simp [hvar] at hreduces
    · simp [hcomponent] at hreduces
    · simp [htag] at hreduces
    · split
      · next hop =>
        rw [(hconstraint hop).1] at hconstraints
        simp at hconstraints
      · rfl

mutual

/-- A run of a statement in which the analysis finds nothing that builds the circuit has no events and leaves
the tags alone. -/
theorem silent_exec (fuel fuel' : ℕ) : ∀ (stmt : Statement) (environment : Environment)
    (exit : ExitInformation) (choices : List Choice) (s s' : RunState V) (events : Trace V),
    analyze reducesTo fuel stmt environment = some exit → exit.Silent →
    exec reducesTo ops signals fuel' stmt choices s = some (s', events) →
    s'.tags = s.tags ∧ events = []
  | .declaration _ xtype name dimensions _ _, environment, exit, choices, s, s', events, hanalyze, hsilent,
      h => by
    rcases analyzeDeclaration_cases hanalyze with ⟨rfl, -⟩ | ⟨-, -, hdeclared, -⟩
    · rcases execDeclaration_cases h with ⟨-, rfl, rfl⟩ | ⟨hxtype, -⟩ | ⟨hxtype, -⟩
      · exact ⟨rfl, rfl⟩
      · simp at hxtype
      · exact absurd rfl hxtype
    · have hsignals := hsilent.2.2
      rw [hdeclared] at hsignals
      simp at hsignals
  | .substitution info var access op rhe, environment, exit, choices, s, s', events, hanalyze, hsilent, h =>
    silent_execSubstitution hanalyze hsilent h
  | .underscoreSubstitution _ op rhe, environment, exit, choices, s, s', events, hanalyze, hsilent, h => by
    obtain ⟨-, -, hconstraint⟩ := analyze_underscoreSubstitution hanalyze
    simp only [exec, Option.bind_eq_bind, Option.bind_eq_some_iff, Option.some.injEq,
      Prod.mk.injEq] at h
    obtain ⟨v, -, rfl, rfl⟩ := h
    refine ⟨rfl, ?_⟩
    split
    · next hop =>
      have hconstraints := hsilent.1
      rw [(hconstraint hop).1] at hconstraints
      simp at hconstraints
    · rfl
  | .constraintEquality _ lhe rhe, environment, exit, choices, s, s', events, hanalyze, hsilent, h => by
    obtain ⟨-, -, hdeclared, -⟩ := analyze_constraintEquality hanalyze
    have hconstraints := hsilent.1
    rw [hdeclared] at hconstraints
    simp at hconstraints
  | .ifThenElse _ cond ifCase none, environment, exit, choices, s, s', events, hanalyze, hsilent, h => by
    obtain ⟨tagCond, ifInfo, elseInfo, -, hif, -, rfl⟩ := analyze_ifThenElse hanalyze
    have hboth : ifInfo.Silent ∧ elseInfo.Silent := silent_add.mp hsilent
    rcases exec_ifThenElse h with ⟨-, h⟩ | ⟨-, ⟨elseStmt, helse, -⟩ | ⟨-, rfl, rfl⟩⟩
    · exact silent_exec fuel fuel' ifCase environment ifInfo _ s s' events hif hboth.1 h
    · simp at helse
    · exact ⟨rfl, rfl⟩
  | .ifThenElse _ cond ifCase (some elseStmt), environment, exit, choices, s, s', events, hanalyze, hsilent,
      h => by
    obtain ⟨tagCond, ifInfo, elseInfo, -, hif, helse, rfl⟩ := analyze_ifThenElse hanalyze
    have hboth : ifInfo.Silent ∧ elseInfo.Silent := silent_add.mp hsilent
    rcases exec_ifThenElse h with ⟨-, h⟩ | ⟨-, ⟨elseStmt, ⟨rfl⟩, h⟩ | ⟨hnone, -⟩⟩
    · exact silent_exec fuel fuel' ifCase environment ifInfo _ s s' events hif hboth.1 h
    · exact silent_exec fuel fuel' elseStmt environment elseInfo _ s s' events helse hboth.2 h
    · simp at hnone
  | .whileStmt _ cond stmt, environment, exit, choices, s, s', events, hanalyze, hsilent, h => by
    obtain ⟨entry, body, after, tagOut, hloop, -, rfl⟩ := analyze_whileStmt hanalyze
    have hbody := (analyzeLoop_last hloop).1
    refine execLoop_induction (r := fun s s' events => s'.tags = s.tags ∧ events = [])
      (fun s => ⟨rfl, rfl⟩) ?_ ?_ fuel' 0 s s' events h
    · rintro s s1 s2 _ _ ⟨h1, rfl⟩ ⟨h2, rfl⟩
      exact ⟨h2.trans h1, rfl⟩
    · intro k s s1 events1 h1
      exact silent_exec fuel fuel' stmt entry body _ s s1 events1 hbody hsilent h1
  | .block _ stmts, environment, exit, choices, s, s', events, hanalyze, hsilent, h => by
    obtain ⟨inner, hinner, rfl⟩ := analyze_block hanalyze
    obtain ⟨s1, h1, rfl⟩ := exec_block h
    have hstmts := silent_execAll fuel fuel' stmts _ inner choices _ s1 events hinner hsilent h1
    exact hstmts
  | .initializationBlock _ _ initializations, environment, exit, choices, s, s', events, hanalyze, hsilent,
      h => silent_execAll fuel fuel' initializations environment exit choices s s' events hanalyze hsilent h
  | .assert _ arg, environment, exit, choices, s, s', events, _, _, h => by
    obtain ⟨rfl, rfl⟩ := exec_assert h
    exact ⟨rfl, rfl⟩
  | .logCall .., _, _, _, s, s', events, _, _, h => by
    simp only [exec, Option.some.injEq, Prod.mk.injEq] at h
    obtain ⟨rfl, rfl⟩ := h
    exact ⟨rfl, rfl⟩
  | .returnStmt .., _, _, _, s, s', events, _, _, h => by simp [exec] at h
  | .multSubstitution .., _, _, _, s, s', events, _, _, h => by simp [exec] at h

theorem silent_execAll (fuel fuel' : ℕ) : ∀ (stmts : List Statement) (environment : Environment)
    (exit : ExitInformation) (choices : List Choice) (s s' : RunState V) (events : Trace V),
    iterateStatements reducesTo fuel stmts { environment := environment } = some exit → exit.Silent →
    execAll reducesTo ops signals fuel' stmts choices s = some (s', events) →
    s'.tags = s.tags ∧ events = []
  | [], _, _, _, s, s', events, _, _, h => by
    simp only [execAll, Option.some.injEq, Prod.mk.injEq] at h
    obtain ⟨rfl, rfl⟩ := h
    exact ⟨rfl, rfl⟩
  | stmt :: stmts, environment, exit, choices, s, s', events, hanalyze, hsilent, h => by
    obtain ⟨first, rest, hfirst, hrest, rfl⟩ := iterateStatements_cons hanalyze
    obtain ⟨hsilentFirst, hsilentRest⟩ := silent_add.mp hsilent
    obtain ⟨s1, events1, events2, h1, h2, rfl⟩ := execAll_cons h
    obtain ⟨htags1, rfl⟩ :=
      silent_exec fuel fuel' stmt environment first choices s s1 events1 hfirst hsilentFirst h1
    obtain ⟨htags2, rfl⟩ :=
      silent_execAll fuel fuel' stmts _ rest choices s1 s' events2 hrest hsilentRest h2
    exact ⟨htags2.trans htags1, rfl⟩

end

end Circom.TypeAnalysis
