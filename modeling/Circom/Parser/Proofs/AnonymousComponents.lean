import Circom.Ast.Proofs.Occurrences
import Circom.Lib.Outcomes
import Circom.Parser.SyntaxSugarRemover

/-!
# Anonymous components

What the expansion of an anonymous component consists of, and what holds of all statements of an expanded
body.
-/

namespace Circom.Parser

open Circom.Ast
open Circom.Lib (Occurs bind_eq_ok bind_eq_error occurs_iff forall_occurs_iff)

variable {signals : List Expression} {info : Meta}

/-! ## The inputs of a component -/

section Inputs

variable {α β : Type}

theorem mem_btreeInsert {key : String} {value : α} {entries : List (String × α)} {x : String × α}
    (h : x ∈ btreeInsert key value entries) : x = (key, value) ∨ x ∈ entries := by
  induction entries with
  | nil => exact Or.inl (List.mem_singleton.mp h)
  | cons entry entries ih =>
    rw [btreeInsert] at h
    split_ifs at h
    · exact List.mem_cons.mp h
    · rcases List.mem_cons.mp h with h | h
      · exact Or.inl h
      · exact Or.inr (List.mem_cons_of_mem _ h)
    · rcases List.mem_cons.mp h with rfl | h
      · exact Or.inr List.mem_cons_self
      · rcases ih h with h | h
        · exact Or.inl h
        · exact Or.inr (List.mem_cons_of_mem _ h)

theorem btreeInsert_map (f : α → β) (key : String) (value : α) (entries : List (String × α)) :
    (btreeInsert key value entries).map (Prod.map id f) =
      btreeInsert key (f value) (entries.map (Prod.map id f)) := by
  induction entries with
  | nil => rfl
  | cons entry entries ih =>
    simp only [btreeInsert, List.map_cons, Prod.map_fst, id]
    split_ifs
    · rfl
    · rfl
    · rw [List.map_cons, ih]

/-- An assignment with another value. -/
abbrev mapSignal (f : α → β) : String × AssignOp × α → String × AssignOp × β :=
  Prod.map id (Prod.map id f)

theorem namedAssignments_map (f : α → β) (info : Meta) (template : TemplateData)
    (names : List (AssignOp × String)) (signals : List α)
    (assignments : List (String × AssignOp × α)) :
    namedAssignments info template names (signals.map f) (assignments.map (mapSignal f)) =
      (namedAssignments info template names signals assignments).map
        (List.map (mapSignal f)) := by
  induction names generalizing signals assignments with
  | nil => rfl
  | cons entry names ih =>
    obtain ⟨operator, name⟩ := entry
    simp only [namedAssignments]
    split_ifs
    · rfl
    · cases signals with
      | nil => rfl
      | cons signal signals =>
        rw [← ih, btreeInsert_map]
        rfl
    · rfl

/-- The inputs are chosen by name and position alone. -/
theorem inputsToAssignments_map (f : α → β) (info : Meta) (template : TemplateData)
    (names : Option (List (AssignOp × String))) (signals : List α) :
    inputsToAssignments info template names (signals.map f) =
      (inputsToAssignments info template names signals).map (List.map (mapSignal f)) := by
  cases names with
  | some names =>
    have hnamed := namedAssignments_map f info template names signals []
    simp only [List.map_nil] at hnamed
    simp only [inputsToAssignments, hnamed]
    split_ifs
    · rfl
    · cases namedAssignments info template names signals [] with
      | error e => rfl
      | ok assignments =>
        simp only [Except.map, bind, Except.bind, List.length_map]
        split_ifs
        · rfl
        · rfl
  | none =>
    simp only [inputsToAssignments, List.length_map]
    split_ifs
    · rfl
    · have hfold : ∀ (inputs : List (String × α)) (assignments : List (String × AssignOp × α)),
          (inputs.foldl (fun assignments input =>
            btreeInsert input.1 (AssignOp.assignConstraintSignal, input.2) assignments)
            assignments).map (mapSignal f) =
          (inputs.map (Prod.map id f)).foldl (fun assignments input =>
            btreeInsert input.1 (AssignOp.assignConstraintSignal, input.2) assignments)
            (assignments.map (mapSignal f)) := by
        intro inputs
        induction inputs with
        | nil => exact fun _ => rfl
        | cons input inputs ih =>
          intro assignments
          rw [List.foldl_cons, ih, btreeInsert_map]
          rfl
      have hzip : template.inputDeclarations.zip (signals.map f) =
          (template.inputDeclarations.zip signals).map (Prod.map id f) := by
        rw [List.zip_map_right]
      rw [hzip]
      exact congrArg Except.ok (hfold _ []).symm

theorem mem_namedAssignments {template : TemplateData} {names : List (AssignOp × String)} {signals : List α}
    {assignments result : List (String × AssignOp × α)}
    (h : namedAssignments info template names signals assignments = .ok result) :
    ∀ x ∈ result, x ∈ assignments ∨ x.2.2 ∈ signals := by
  induction names generalizing signals assignments with
  | nil =>
    cases h
    exact fun x hx => Or.inl hx
  | cons entry names ih =>
    obtain ⟨operator, name⟩ := entry
    simp only [namedAssignments] at h
    split_ifs at h
    · cases signals with
      | nil => cases h
      | cons signal signals =>
        intro x hx
        rcases ih h x hx with hx | hx
        · rcases mem_btreeInsert hx with rfl | hx
          · exact Or.inr List.mem_cons_self
          · exact Or.inl hx
        · exact Or.inr (List.mem_cons_of_mem _ hx)

/-- Only signals of the call are assigned. -/
theorem mem_inputsToAssignments {template : TemplateData} {names : Option (List (AssignOp × String))} {signals : List α}
    {result : List (String × AssignOp × α)} (h : inputsToAssignments info template names signals = .ok result) :
    ∀ x ∈ result, x.2.2 ∈ signals := by
  cases names with
  | some names =>
    simp only [inputsToAssignments] at h
    split_ifs at h
    obtain ⟨assignments, hnamed, h⟩ := bind_eq_ok h
    split_ifs at h
    cases h
    intro x hx
    rcases mem_namedAssignments hnamed x hx with hx | hx
    · cases hx
    · exact hx
  | none =>
    simp only [inputsToAssignments] at h
    split_ifs at h
    cases h
    have hfold : ∀ (inputs : List (String × α)) (assignments : List (String × AssignOp × α)),
        ∀ x ∈ inputs.foldl (fun assignments input =>
          btreeInsert input.1 (AssignOp.assignConstraintSignal, input.2) assignments) assignments,
        x ∈ assignments ∨ ∃ input ∈ inputs, x.2.2 = input.2 := by
      intro inputs
      induction inputs with
      | nil => exact fun _ x hx => Or.inl hx
      | cons input inputs ih =>
        intro assignments x hx
        rcases ih _ x hx with hx | ⟨i, hi, hx⟩
        · rcases mem_btreeInsert hx with rfl | hx
          · exact Or.inr ⟨input, List.mem_cons_self, rfl⟩
          · exact Or.inl hx
        · exact Or.inr ⟨i, List.mem_cons_of_mem _ hi, hx⟩
    intro x hx
    rcases hfold _ _ x hx with hx | ⟨input, hinput, hx⟩
    · cases hx
    · rw [hx]
      exact (List.of_mem_zip hinput).2

theorem op_of_mem_namedAssignments {template : TemplateData} {names : List (AssignOp × String)} {signals : List α}
    {assignments result : List (String × AssignOp × α)}
    (h : namedAssignments info template names signals assignments = .ok result)
    (hops : ∀ x ∈ assignments, x.2.1 = .assignConstraintSignal) : ∀ x ∈ result, x.2.1 = .assignConstraintSignal := by
  induction names generalizing signals assignments with
  | nil =>
    cases h
    exact hops
  | cons entry names ih =>
    obtain ⟨operator, name⟩ := entry
    simp only [namedAssignments] at h
    split_ifs at h with hop
    · cases signals with
      | nil => cases h
      | cons signal signals =>
        apply ih h
        intro x hx
        rcases mem_btreeInsert hx with rfl | hx
        · exact not_not.mp hop
        · exact hops x hx

/-- Every input is assigned by a constraint. -/
theorem op_of_mem_inputsToAssignments {template : TemplateData} {names : Option (List (AssignOp × String))}
    {signals : List α} {result : List (String × AssignOp × α)}
    (h : inputsToAssignments info template names signals = .ok result) :
    ∀ x ∈ result, x.2.1 = .assignConstraintSignal := by
  cases names with
  | some names =>
    simp only [inputsToAssignments] at h
    split_ifs at h
    obtain ⟨assignments, hnamed, h⟩ := bind_eq_ok h
    split_ifs at h
    cases h
    exact op_of_mem_namedAssignments hnamed fun _ h => absurd h List.not_mem_nil
  | none =>
    simp only [inputsToAssignments] at h
    split_ifs at h
    cases h
    have hfold : ∀ (inputs : List (String × α)) (assignments : List (String × AssignOp × α)),
        (∀ x ∈ assignments, x.2.1 = .assignConstraintSignal) →
        ∀ x ∈ inputs.foldl (fun assignments input =>
          btreeInsert input.1 (AssignOp.assignConstraintSignal, input.2) assignments) assignments,
        x.2.1 = .assignConstraintSignal := by
      intro inputs
      induction inputs with
      | nil => exact fun _ h => h
      | cons input inputs ih =>
        intro assignments hops
        apply ih
        intro x hx
        rcases mem_btreeInsert hx with rfl | hx
        · rfl
        · exact hops x hx
    exact hfold _ _ fun _ h => absurd h List.not_mem_nil

end Inputs

/-! ## What an expansion consists of -/

section Expansion

variable {templates : List (String × TemplateData)} {fileLib : FileLibrary}
  {varAccess : Option Expression}

theorem removeAnonymousFromEach_eq (exps : List Expression) :
    removeAnonymousFromEach templates fileLib varAccess exps =
      exps.map (removeAnonymousFromExpression templates fileLib varAccess) := by
  induction exps with
  | nil => rfl
  | cons exp exps ih => rw [removeAnonymousFromEach, ih, List.map_cons]

/-- The signals that are assigned to an input. -/
def usedSignals (templates : List (String × TemplateData)) (info : Meta) (id : String)
    (names : Option (List (AssignOp × String))) (signals : List Expression) : List Expression :=
  match templates.lookup id with
  | none => []
  | some template =>
    match inputsToAssignments info template names signals with
    | .ok inputs => inputs.map fun input => input.2.2
    | .error _ => []

theorem mem_of_mem_usedSignals {id : String} {names : Option (List (AssignOp × String))} {e : Expression}
    (h : e ∈ usedSignals templates info id names signals) : e ∈ signals := by
  rw [usedSignals] at h
  split at h
  · cases h
  · split at h
    · rename_i inputs hinputs
      obtain ⟨input, hinput, rfl⟩ := List.mem_map.mp h
      exact mem_inputsToAssignments hinputs input hinput
    · cases h

/-- The assignment to an input, after what its signal needs. -/
def inputStatements (info : Meta) (idAnonTemp : String) (access : List Access)
    (input : (String × AssignOp × Expression) × UpdatedExpression) : List Statement :=
  input.2.substitutions ++ [.substitution info idAnonTemp
    (access ++ [.componentAccess input.1.1]) input.1.2.1 input.2.expression]

theorem assignInputs_eq_ok {expand : Expression → Except Failure UpdatedExpression} {idAnonTemp : String}
    {access : List Access} {signals : List (String × AssignOp × Expression)} {result : List Statement × List Statement}
    (h : assignInputs info idAnonTemp access (signals.map (mapSignal expand)) = .ok result) :
    ∃ inputs : List ((String × AssignOp × Expression) × UpdatedExpression),
      inputs.map Prod.fst = signals ∧ (∀ input ∈ inputs, expand input.1.2.2 = .ok input.2) ∧
      result = (inputs.flatMap fun input => input.2.initComponents,
        inputs.flatMap (inputStatements info idAnonTemp access)) := by
  induction signals generalizing result with
  | nil =>
    cases h
    exact ⟨[], rfl, fun _ h => (List.not_mem_nil h).elim, rfl⟩
  | cons signal signals ih =>
    obtain ⟨u, hu, h⟩ := bind_eq_ok h
    obtain ⟨rest, hrest, h⟩ := bind_eq_ok h
    cases h
    obtain ⟨inputs, hfst, hexpand, rfl⟩ := ih hrest
    refine ⟨(signal, u) :: inputs, ?_, ?_, ?_⟩
    · rw [List.map_cons, hfst]
    · intro input hinput
      rcases List.mem_cons.mp hinput with rfl | hinput
      · exact hu
      · exact hexpand input hinput
    · simp [inputStatements]

theorem collectValues_eq_ok {expand : Expression → Except Failure UpdatedExpression}
    {values : List Expression} {result : List Statement × List Statement × List Expression}
    (h : collectValues (values.map expand) = .ok result) :
    ∃ entries : List (Expression × UpdatedExpression),
      entries.map Prod.fst = values ∧ (∀ entry ∈ entries, expand entry.1 = .ok entry.2) ∧
      result = (entries.flatMap fun entry => entry.2.initComponents,
        entries.flatMap fun entry => entry.2.substitutions,
        entries.map fun entry => entry.2.expression) := by
  induction values generalizing result with
  | nil =>
    cases h
    exact ⟨[], rfl, fun _ h => (List.not_mem_nil h).elim, rfl⟩
  | cons value values ih =>
    obtain ⟨u, hu, h⟩ := bind_eq_ok h
    obtain ⟨rest, hrest, h⟩ := bind_eq_ok h
    cases h
    obtain ⟨entries, hfst, hexpand, rfl⟩ := ih hrest
    refine ⟨(value, u) :: entries, ?_, ?_, rfl⟩
    · rw [List.map_cons, hfst]
    · intro entry hentry
      rcases List.mem_cons.mp hentry with rfl | hentry
      · exact hu
      · exact hexpand entry hentry

/-- An expanded anonymous component: its declaration, its creation and the assignments to its inputs. -/
theorem removeAnonymousComp_eq_ok {id : String} {isParallel : Bool}
    {params : List Expression} {names : Option (List (AssignOp × String))}
    {u : UpdatedExpression}
    (h : removeAnonymousComp templates fileLib varAccess info id isParallel params names
      (removeAnonymousFromEach templates fileLib varAccess signals) = .ok u) :
    ∃ (name : String) (outputs : List String)
      (inputs : List ((String × AssignOp × Expression) × UpdatedExpression)),
      nodeName fileLib id info = .ok name ∧
      inputs.map (fun input => input.1.2.2) = usedSignals templates info id names signals ∧
      (∀ input ∈ inputs,
        removeAnonymousFromExpression templates fileLib varAccess input.1.2.2 = .ok input.2) ∧
      (∀ input ∈ inputs, input.1.2.1 = .assignConstraintSignal) ∧
      u = ⟨anonymousDeclaration varAccess info name ::
          inputs.flatMap fun input => input.2.initComponents,
        [.block info (anonymousCreation varAccess info name id isParallel params ::
          inputs.flatMap (inputStatements info name (anonymousAccess varAccess)))],
        anonymousOutput varAccess info name outputs⟩ := by
  rw [removeAnonymousComp] at h
  split at h
  · cases h
  rename_i template htemplate
  obtain ⟨name, hname, h⟩ := bind_eq_ok h
  obtain ⟨assignments, hassignments, h⟩ := bind_eq_ok h
  obtain ⟨assigned, hassigned, h⟩ := bind_eq_ok h
  cases h
  rw [removeAnonymousFromEach_eq, inputsToAssignments_map] at hassignments
  cases hused : inputsToAssignments info template names signals with
  | error e =>
    rw [hused] at hassignments
    cases hassignments
  | ok used =>
    rw [hused] at hassignments
    cases hassignments
    obtain ⟨inputs, hfst, hexpand, rfl⟩ := assignInputs_eq_ok hassigned
    refine ⟨name, template.outputDeclarations, inputs, hname, ?_, hexpand, ?_, rfl⟩
    · simp only [usedSignals, htemplate, hused, ← hfst, List.map_map]
      rfl
    · intro input hinput
      have hmem : input.1 ∈ used := by
        rw [← hfst]
        exact List.mem_map_of_mem hinput
      exact op_of_mem_inputsToAssignments hused input.1 hmem

end Expansion

/-! ## What holds of all statements -/

section Holds

/-- Every right side satisfies `R` and every other expression `T`, and no result is thrown away. -/
def Holds (T R : Expression → Prop) (s : Statement) : Prop :=
  ∀ t : Statement, t.OccursIn s →
    t.isUnderscoreSubstitution = false ∧ (∀ e ∈ t.others, T e) ∧ ∀ e, t.rhe? = some e → R e

def UpdatedExpression.Holds (T R : Expression → Prop) (u : UpdatedExpression) : Prop :=
  (∀ s ∈ u.initComponents, Parser.Holds T R s) ∧ (∀ s ∈ u.substitutions, Parser.Holds T R s) ∧
    R u.expression

def UpdatedStatement.Holds (T R : Expression → Prop) (u : UpdatedStatement) : Prop :=
  Parser.Holds T R u.body ∧ (∀ s ∈ u.initComponents, Parser.Holds T R s) ∧
    (∀ s ∈ u.initVariables, Parser.Holds T R s) ∧ ∀ s ∈ u.substitutions, Parser.Holds T R s

variable {T R H : Expression → Prop}

theorem holds_iff {s : Statement} :
    Holds T R s ↔ (s.isUnderscoreSubstitution = false ∧ (∀ e ∈ s.others, T e) ∧
      ∀ e, s.rhe? = some e → R e) ∧ ∀ c ∈ s.children, Holds T R c :=
  forall_occurs_iff

theorem holds_block {stmts : List Statement} : Holds T R (.block info stmts) ↔ ∀ s ∈ stmts, Holds T R s := by
  rw [holds_iff]
  simp [Statement.isUnderscoreSubstitution, Statement.others, Statement.expressions, Statement.rhe?,
    Statement.children]

theorem holds_initializationBlock {xtype : VariableType} {stmts : List Statement} :
    Holds T R (.initializationBlock info xtype stmts) ↔ ∀ s ∈ stmts, Holds T R s := by
  rw [holds_iff]
  simp [Statement.isUnderscoreSubstitution, Statement.others, Statement.expressions, Statement.rhe?,
    Statement.children]

theorem holds_whileStmt {cond : Expression} {stmt : Statement} :
    Holds T R (.whileStmt info cond stmt) ↔ T cond ∧ Holds T R stmt := by
  rw [holds_iff]
  simp [Statement.isUnderscoreSubstitution, Statement.others, Statement.expressions, Statement.rhe?,
    Statement.children]

theorem holds_ifThenElse {cond : Expression} {ifCase : Statement} {elseCase : Option Statement} :
    Holds T R (.ifThenElse info cond ifCase elseCase) ↔
      T cond ∧ Holds T R ifCase ∧ ∀ s ∈ elseCase, Holds T R s := by
  rw [holds_iff]
  simp [Statement.isUnderscoreSubstitution, Statement.others, Statement.expressions, Statement.rhe?,
    Statement.children]

theorem holds_substitution {var : String} {access : List Access} {op : AssignOp} {rhe : Expression} :
    Holds T R (.substitution info var access op rhe) ↔
      (∀ e ∈ access.filterMap Access.index?, T e) ∧ R rhe := by
  rw [holds_iff]
  simp [Statement.isUnderscoreSubstitution, Statement.others, Statement.rhe?, Statement.children]

theorem holds_multSubstitution {lhe : Expression} {op : AssignOp}
    {rhe : Expression} : Holds T R (.multSubstitution info lhe op rhe) ↔ T lhe ∧ R rhe := by
  rw [holds_iff]
  simp [Statement.isUnderscoreSubstitution, Statement.others, Statement.rhe?, Statement.children]

theorem holds_declaration {xtype : VariableType} {name : String} {dimensions : List Expression}
    {isConstant isAnonymous : Bool} :
    Holds T R (.declaration info xtype name dimensions isConstant isAnonymous) ↔
      ∀ e ∈ dimensions, T e := by
  rw [holds_iff]
  simp [Statement.isUnderscoreSubstitution, Statement.others, Statement.expressions, Statement.rhe?,
    Statement.children]

/-- The expressions that an expansion changes. -/
def isExpanded : Expression → Bool
  | .arrayInLine .. => true
  | .anonymousComp .. => true
  | .tuple .. => true
  | .parallelOp _ rhe => rhe.isAnonymousComp
  | _ => false

theorem removeAnonymousFromExpression_of_not_isExpanded {templates : List (String × TemplateData)}
    {fileLib : FileLibrary} {varAccess : Option Expression} {e : Expression}
    (h : isExpanded e = false) :
    removeAnonymousFromExpression templates fileLib varAccess e = .ok ⟨[], [], e⟩ := by
  cases e with
  | parallelOp info rhe =>
    cases rhe with
    | anonymousComp => cases h
    | _ => rfl
  | arrayInLine | anonymousComp | tuple => cases h
  | _ => rfl

/-- When the expansion of an expression with `H` has only right sides with `R` and other expressions with
`T`. -/
structure ExpansionRule (templates : List (String × TemplateData)) (varAccess : Option Expression)
    (H T R : Expression → Prop) : Prop where
  access : ∀ v ∈ varAccess, T v
  call : ∀ {info id isParallel params signals names},
    H (.anonymousComp info id isParallel params signals names) →
      R (.call info id params) ∧ R (.parallelOp info (.call info id params))
  signals : ∀ {info id isParallel params signals names},
    H (.anonymousComp info id isParallel params signals names) →
      ∀ e ∈ usedSignals templates info id names signals, H e
  parallel : ∀ {info rhe}, rhe.isAnonymousComp = true → H (.parallelOp info rhe) → H rhe
  arrayInLine : ∀ {info values}, H (.arrayInLine info values) → ∀ e ∈ values, H e
  tuple : ∀ {info values}, H (.tuple info values) → ∀ e ∈ values, H e
  newArrayInLine : ∀ {info values}, (∀ e ∈ values, R e) → R (.arrayInLine info values)
  newTuple : ∀ {info values}, (∀ e ∈ values, R e) → R (.tuple info values)
  newVar : ∀ {info name access}, (∀ e ∈ List.filterMap Access.index? access, T e) →
    R (.var info name access)
  other : ∀ {e}, isExpanded e = false → H e → R e

namespace ExpansionRule

variable {templates : List (String × TemplateData)} {fileLib : FileLibrary}
  {varAccess : Option Expression}

theorem anonymousAccess (rule : ExpansionRule templates varAccess H T R) (name : String) :
    (∀ e ∈ (Parser.anonymousAccess varAccess).filterMap Access.index?, T e) ∧
      ∀ e ∈ (Parser.anonymousAccess varAccess ++ [Access.componentAccess name]).filterMap
        Access.index?, T e := by
  cases varAccess with
  | none => simp [Parser.anonymousAccess, Access.index?]
  | some v => simpa [Parser.anonymousAccess, Access.index?] using rule.access v rfl

theorem anonymousDeclaration (rule : ExpansionRule templates varAccess H T R) (info : Meta)
    (name : String) : Holds T R (Parser.anonymousDeclaration varAccess info name) := by
  cases varAccess with
  | none => exact holds_declaration.mpr (by simp)
  | some v => exact holds_declaration.mpr (by simpa using rule.access v rfl)

theorem anonymousOutput (rule : ExpansionRule templates varAccess H T R) (info : Meta)
    (name : String) (outputs : List String) :
    R (Parser.anonymousOutput varAccess info name outputs) := by
  have hvar : ∀ output, R (.var info name
      (Parser.anonymousAccess varAccess ++ [.componentAccess output])) :=
    fun output => rule.newVar (rule.anonymousAccess output).2
  unfold Parser.anonymousOutput
  split
  · exact hvar _
  · apply rule.newTuple
    intro e he
    obtain ⟨output, -, rfl⟩ := List.mem_map.mp he
    exact hvar output

theorem anonymousComp (rule : ExpansionRule templates varAccess H T R) {id : String}
    {isParallel isParallel' : Bool} {params : List Expression}
    {names : Option (List (AssignOp × String))}
    (hH : H (.anonymousComp info id isParallel' params signals names))
    (ih : ∀ e ∈ signals, ∀ u, H e →
      removeAnonymousFromExpression templates fileLib varAccess e = .ok u → u.Holds T R)
    {u : UpdatedExpression}
    (h : removeAnonymousComp templates fileLib varAccess info id isParallel params names
      (removeAnonymousFromEach templates fileLib varAccess signals) = .ok u) : u.Holds T R := by
  obtain ⟨name, outputs, inputs, -, hused, hexpand, -, rfl⟩ := removeAnonymousComp_eq_ok h
  have hinputs : ∀ input ∈ inputs, input.2.Holds T R := by
    intro input hinput
    have hmem : input.1.2.2 ∈ usedSignals templates info id names signals := by
      rw [← hused]
      exact List.mem_map_of_mem hinput
    exact ih _ (mem_of_mem_usedSignals hmem) _ (rule.signals hH _ hmem) (hexpand input hinput)
  refine ⟨?_, ?_, rule.anonymousOutput info name outputs⟩
  · intro s hs
    rcases List.mem_cons.mp hs with rfl | hs
    · exact rule.anonymousDeclaration info name
    · obtain ⟨input, hinput, hs⟩ := List.mem_flatMap.mp hs
      exact (hinputs input hinput).1 s hs
  · intro s hs
    rw [List.mem_singleton.mp hs, holds_block]
    intro s hs
    rcases List.mem_cons.mp hs with rfl | hs
    · have hcall := rule.call hH
      refine holds_substitution.mpr ⟨(rule.anonymousAccess name).1, ?_⟩
      split_ifs
      · exact hcall.2
      · exact hcall.1
    · obtain ⟨input, hinput, hs⟩ := List.mem_flatMap.mp hs
      rcases List.mem_append.mp hs with hs | hs
      · exact (hinputs input hinput).2.1 s hs
      · rw [List.mem_singleton.mp hs]
        exact holds_substitution.mpr ⟨(rule.anonymousAccess _).2, (hinputs input hinput).2.2⟩

theorem values {vals : List Expression}
    (hH : ∀ e ∈ vals, H e)
    (ih : ∀ e ∈ vals, ∀ u, H e →
      removeAnonymousFromExpression templates fileLib varAccess e = .ok u → u.Holds T R)
    {result : List Statement × List Statement × List Expression}
    (h : collectValues (removeAnonymousFromEach templates fileLib varAccess vals) = .ok result) :
    (∀ s ∈ result.1, Holds T R s) ∧ (∀ s ∈ result.2.1, Holds T R s) ∧ ∀ e ∈ result.2.2, R e := by
  rw [removeAnonymousFromEach_eq] at h
  obtain ⟨entries, hfst, hexpand, rfl⟩ := collectValues_eq_ok h
  have hentries : ∀ entry ∈ entries, entry.2.Holds T R := by
    intro entry hentry
    have hmem : entry.1 ∈ vals := by
      rw [← hfst]
      exact List.mem_map_of_mem hentry
    exact ih _ hmem _ (hH _ hmem) (hexpand entry hentry)
  refine ⟨?_, ?_, ?_⟩
  · intro s hs
    obtain ⟨entry, hentry, hs⟩ := List.mem_flatMap.mp hs
    exact (hentries entry hentry).1 s hs
  · intro s hs
    obtain ⟨entry, hentry, hs⟩ := List.mem_flatMap.mp hs
    exact (hentries entry hentry).2.1 s hs
  · intro e he
    obtain ⟨entry, hentry, rfl⟩ := List.mem_map.mp he
    exact (hentries entry hentry).2.2

/-- The expansion of any expression. -/
theorem expression (rule : ExpansionRule templates varAccess H T R) (e : Expression) :
    ∀ u, H e → removeAnonymousFromExpression templates fileLib varAccess e = .ok u →
      u.Holds T R := by
  induction e using Expression.occurs_induction with
  | step e ih =>
    intro u hH h
    by_cases hexp : isExpanded e = true
    · cases e with
      | arrayInLine info vals =>
        obtain ⟨result, hresult, h⟩ := bind_eq_ok h
        cases h
        have hall := values (rule.arrayInLine hH) (fun e he => ih e he e (Occurs.refl e)) hresult
        exact ⟨hall.1, hall.2.1, rule.newArrayInLine hall.2.2⟩
      | tuple info vals =>
        obtain ⟨result, hresult, h⟩ := bind_eq_ok h
        cases h
        have hall := values (rule.tuple hH) (fun e he => ih e he e (Occurs.refl e)) hresult
        exact ⟨hall.1, hall.2.1, rule.newTuple hall.2.2⟩
      | anonymousComp info id isParallel params signals names =>
        have hsignals := fun e (he : e ∈ signals) =>
          ih e (List.mem_append_right params he) e (Occurs.refl e)
        exact rule.anonymousComp hH hsignals h
      | parallelOp info rhe =>
        cases rhe with
        | anonymousComp info' id isParallel params signals names =>
          have hsignals := fun e (he : e ∈ signals) =>
            ih _ (List.mem_singleton.mpr rfl) e
              ((Occurs.refl e).of_mem (List.mem_append_right params he))
          exact rule.anonymousComp (rule.parallel rfl hH) hsignals h
        | _ => cases hexp
      | _ => cases hexp
    · rw [Bool.not_eq_true] at hexp
      rw [removeAnonymousFromExpression_of_not_isExpanded hexp] at h
      cases h
      exact ⟨fun _ h => absurd h List.not_mem_nil, fun _ h => absurd h List.not_mem_nil,
        rule.other hexp hH⟩

end ExpansionRule

end Holds

end Circom.Parser
