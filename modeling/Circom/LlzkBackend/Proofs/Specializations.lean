import Circom.LlzkBackend.Proofs.SpecializationNames
import Circom.LlzkBackend.Proofs.TemplateReplays
import Circom.LlzkBackend.Proofs.TemplateTermination

/-!
# Specializations and their names

Every template that a successful preparation returns is the specialization for one key, and every constructor
in it is called by the name of the key that stands for it, if no two keys of the table clash.
-/

namespace Circom.LlzkBackend

open Circom.Ast
open Circom.Lib (Ensures HashMap ensures_get_bind ensures_iff ensures_pure ensures_throw)

variable {attempt : Attempt} {fuel : ℕ} {s t : Preparation} {key key' : Specialization} {n : String}
variable {main : Expression} {boundArrays expanded : Finset String} {program : ProgramArchive}
variable {nesting prime rounds : ℕ}

/-- No error is excluded. -/
abbrev AnyError : Interruption → Prop := fun _ => True

theorem admitsRetries_anyError : AdmitsRetries attempt AnyError where
  failed _ := trivial
  expandRecursion _ _ _ := trivial
  bindArrayValues _ _ _ := trivial

/-! ## Replaying a specialization -/

theorem view_eq_empty (h : s.loopBudget = none) : s.view = .empty := by
  rw [Preparation.view, h]
  rfl

/-- What `specialize` leaves in the table. -/
def Enters (key : Specialization) (s : Preparation) (name : String) (t : Preparation) : Prop :=
  Extended s.specializations t.specializations ∧ t.loopBudget = none ∧
    t.specializations.lookup key = some name

theorem replaysNames_of_enters {specialize : Specialization → Prepares String}
    (h : ∀ key s, s.loopBudget = none → Ensures (specialize key) s (Enters key s) AnyError)
    (table : HashMap Specialization String) : ReplaysNames table specialize := by
  intro key s hs
  have hok := (ensures_iff.mp (h key s hs)).1
  have hprobe : ¬ s.loopBudget.isSome = true := by
    rw [hs]
    exact Bool.false_ne_true
  refine
    { extended := fun name t hrun => (hok name t hrun).1
      budget := fun name t hrun => by rw [(hok name t hrun).2.1, hs]
      probing := fun name t _ h => absurd h hprobe
      ok := fun name t hrun htable => ?_
      error := fun e _ h => absurd h hprobe }
  obtain ⟨-, ht, hlookup⟩ := hok name t hrun
  have hname : tableName table key = pure name := by
    rw [tableName, htable key name hlookup]
  rw [hname, view_eq_empty hs, view_eq_empty ht]
  rfl

theorem ensures_specialize_enters (attempt : Attempt) (fuel nesting : ℕ) (key : Specialization)
    (s : Preparation) (hs : s.loopBudget = none) :
    Ensures (specialize attempt fuel nesting key) s (Enters key s) AnyError := by
  induction nesting generalizing key s with
  | zero => exact ensures_throw trivial
  | succ nesting ih =>
    refine Ensures.bind (P := fun _ t => s = t)
      (ensures_checkActive (fun _ => trivial) (fun _ => trivial) fun _ => rfl) ?_
    rintro _ _ rfl
    refine ensures_get_bind ?_
    cases hlookup : s.specializations.lookup key with
    | some name => exact ensures_pure ⟨Extended.refl _, hs, hlookup⟩
    | none =>
      refine Ensures.bind (P := fun _ t => s = t)
        (ensures_checkDepth (fun _ => trivial) (fun _ => trivial) fun _ => rfl) ?_
      rintro _ _ rfl
      refine ensures_specializeNew (fun _ => trivial) fun opened hopens => ?_
      refine ensures_iff.mpr ⟨fun r t hrun template _ => ?_, fun _ _ => trivial⟩
      have hwalk := replays_statement attempt (replaysNames_of_enters ih ∅)
        (key.id ∈ attempt.expanded) fuel opened.old.body opened.signature.shapes
        opened.signature.constants (s.enter key opened.name (attempt.isRecursive key s.active))
      have hextended := hwalk.extended r t hrun
      refine ⟨(extended_insert hlookup opened.name).trans hextended,
        eq_none_of_isSome_eq (hwalk.budget r t hrun) hs, ?_⟩
      exact hextended key opened.name (AList.lookup_insert s.specializations)

theorem replaysNames_specialize (attempt : Attempt) (fuel nesting : ℕ)
    (table : HashMap Specialization String) :
    ReplaysNames table (specialize attempt fuel nesting) :=
  replaysNames_of_enters (ensures_specialize_enters attempt fuel nesting) table

/-! ## What the names stand for -/

/-- The template is the specialization for the key: the template of the key opened under the name, with the
body as it is rewritten when every constructor is called by its name in the table. -/
def SpecializedBy (attempt : Attempt) (fuel : ℕ) (table : HashMap Specialization String)
    (key : Specialization) (name : String) (template : TemplateData) : Prop :=
  ∃ opened r, attempt.openTemplate key = .ok opened ∧ opened.name = name ∧
    (statement attempt (tableName table) (key.id ∈ attempt.expanded) fuel opened.old.body
      opened.signature.shapes opened.signature.constants).run .empty = .ok (r, .empty) ∧
    opened.close key r.1 = .ok template

/-- Different keys of the table have different names. -/
def Distinct (table : HashMap Specialization String) : Prop :=
  ∀ key key' name, table.lookup key = some name → table.lookup key' = some name → key = key'

/-- No two keys of the table clash. -/
def ClashFree (table : HashMap Specialization String) : Prop :=
  ∀ key ∈ table, ∀ key' ∈ table, ¬ Clashes key key'

theorem Opens.openTemplate_eq_ok {opened : Opened} (h : Opens attempt key opened) :
    attempt.openTemplate key = .ok opened := by
  have hcollision : ¬ (opened.name ≠ key.id ∧ opened.name ∈ attempt.originals) :=
    fun hname => h.unused hname.1 hname.2
  unfold Attempt.openTemplate
  rw [h.original]
  dsimp only
  rw [if_neg (not_not.mpr h.lengths), h.name]
  change (if _ then _ else _) = _
  rw [if_neg hcollision, h.signature]
  rfl

/-- The state of the table and of the templates between two specializations. -/
structure Named (attempt : Attempt) (fuel : ℕ) (s : Preparation) : Prop where
  nameable (key : Specialization) (name : String) (h : s.specializations.lookup key = some name) :
    Nameable attempt.originals key name
  active (key : Specialization) (h : key ∈ s.active) : key ∈ s.specializations
  complete (key : Specialization) (name : String) (h : s.specializations.lookup key = some name)
    (hactive : key ∉ s.active) (table : HashMap Specialization String)
    (htable : Extended s.specializations table) (hdistinct : Distinct table) :
    ∃ template, s.templates.lookup name = some template ∧
      SpecializedBy attempt fuel table key name template
  templates (name : String) (h : name ∈ s.templates) :
    ∃ key, key ∉ s.active ∧ s.specializations.lookup key = some name

theorem named_empty : Named attempt fuel .empty where
  nameable key name h := by cases h
  active key h := by cases h
  complete key name h := by cases h
  templates name h := absurd h (AList.notMem_empty name)

/-- The table is distinct exactly if no two of its keys clash. -/
theorem Named.distinct_iff (h : Named attempt fuel s) :
    Distinct s.specializations ↔ ClashFree s.specializations := by
  constructor
  · intro hdistinct key hkey key' hkey' hclash
    obtain ⟨name, hname⟩ := AList.mem_iff_exists_lookup.mp hkey
    obtain ⟨name', hname'⟩ := AList.mem_iff_exists_lookup.mp hkey'
    have heq := hclash.name_eq
    rw [(h.nameable key name hname).name, (h.nameable key' name' hname').name] at heq
    cases heq
    exact hclash.ne (hdistinct key key' _ hname hname')
  · intro hfree key key' name hname hname'
    have hkey := AList.mem_iff_exists_lookup.mpr ⟨name, hname⟩
    have hkey' := AList.mem_iff_exists_lookup.mpr ⟨name, hname'⟩
    exact name_injective (hfree key hkey key' hkey') (hfree key' hkey' key hkey)
      (h.nameable key name hname) (h.nameable key' name hname')

theorem Named.clashFree (h : Named attempt fuel s) (hsep : Separated attempt.originals) :
    ClashFree s.specializations := by
  intro key hkey key' hkey'
  obtain ⟨name, hname⟩ := AList.mem_iff_exists_lookup.mp hkey
  obtain ⟨name', hname'⟩ := AList.mem_iff_exists_lookup.mp hkey'
  exact hsep.not_clashes (h.nameable key name hname) (h.nameable key' name' hname')

theorem Requested.nameable {active : Finset Specialization} {opened : Opened}
    (h : Requested attempt active key) (hopens : Opens attempt key opened) :
    Nameable attempt.originals key opened.name where
  original := h.original
  params old hold := by
    rw [hopens.original] at hold
    cases hold
    exact hopens.lengths
  values := h.lengths
  nonempty := h.nonempty
  name := hopens.name
  unused := hopens.unused

theorem Named.enter (h : Named attempt fuel s) (hlookup : s.specializations.lookup key = none)
    (hnameable : Nameable attempt.originals key n) (recursive : Bool) :
    Named attempt fuel (s.enter key n recursive) where
  nameable key' name' hname' := by
    by_cases heq : key' = key
    · subst heq
      rw [Preparation.enter, AList.lookup_insert] at hname'
      cases hname'
      exact hnameable
    · rw [Preparation.enter, AList.lookup_insert_ne heq] at hname'
      exact h.nameable key' name' hname'
  active key' hkey' := by
    refine (AList.mem_insert s.specializations).mpr ?_
    exact (Finset.mem_insert.mp hkey').imp_right (h.active key')
  complete key' name' hname' hactive table htable := by
    have hne : key' ≠ key := fun heq => hactive (heq ▸ Finset.mem_insert_self key s.active)
    rw [Preparation.enter, AList.lookup_insert_ne hne] at hname'
    exact h.complete key' name' hname' (fun hkey' => hactive (Finset.mem_insert_of_mem hkey')) table
      ((extended_insert hlookup n).trans htable)
  templates name' hname' := by
    obtain ⟨key', hkey', hentry⟩ := h.templates name' hname'
    refine ⟨key', fun hmem => ?_, extended_insert hlookup n key' name' hentry⟩
    rcases Finset.mem_insert.mp hmem with rfl | hmem
    · rw [hlookup] at hentry
      cases hentry
    · exact hkey' hmem

/-- A complete template takes the place that no other key has. -/
theorem Named.leave (h : Named attempt fuel t) (hentry : t.specializations.lookup key = some n)
    {template : TemplateData}
    (htemplate : ∀ table, Extended t.specializations table →
      SpecializedBy attempt fuel table key n template) (recursive : Bool) :
    Named attempt fuel (t.leave key n template recursive) where
  nameable := h.nameable
  active key' hkey' := h.active key' (Finset.mem_of_mem_erase hkey')
  complete key' name' hname' hactive table htable hdistinct := by
    by_cases heq : key' = key
    · subst heq
      have hn : name' = n := Option.some.inj (hname'.symm.trans hentry)
      subst hn
      exact ⟨template, AList.lookup_insert t.templates, htemplate table htable⟩
    · have hne : name' ≠ n := by
        rintro rfl
        exact heq (hdistinct key' key _ (htable key' _ hname') (htable key _ hentry))
      obtain ⟨template', hlookup, hspecialized⟩ := h.complete key' name' hname'
        (fun hkey' => hactive (Finset.mem_erase.mpr ⟨heq, hkey'⟩)) table htable hdistinct
      refine ⟨template', ?_, hspecialized⟩
      rw [Preparation.leave, AList.lookup_insert_ne hne]
      exact hlookup
  templates name' hname' := by
    rcases (AList.mem_insert t.templates).mp hname' with rfl | hname'
    · exact ⟨key, Finset.notMem_erase key t.active, hentry⟩
    · obtain ⟨key', hkey', hentry'⟩ := h.templates name' hname'
      exact ⟨key', fun hmem => hkey' (Finset.mem_of_mem_erase hmem), hentry'⟩

/-! ## Runs -/

/-- Some specializations have been completed, and the names stand for them. -/
structure Completes (attempt : Attempt) (fuel : ℕ) (s t : Preparation) : Prop where
  budget : t.loopBudget = none
  active : t.active = s.active
  extended : Extended s.specializations t.specializations
  named : Named attempt fuel t

theorem Completes.refl (hs : s.loopBudget = none) (h : Named attempt fuel s) :
    Completes attempt fuel s s := ⟨hs, rfl, Extended.refl _, h⟩

theorem Completes.trans {u : Preparation} (h : Completes attempt fuel s t)
    (h' : Completes attempt fuel t u) : Completes attempt fuel s u :=
  ⟨h'.budget, h'.active.trans h.active, h.extended.trans h'.extended, h'.named⟩

theorem ensures_specialize_completes (attempt : Attempt) (fuel nesting : ℕ) (key : Specialization)
    (s : Preparation) (hs : s.loopBudget = none) (hnamed : Named attempt fuel s)
    (h : Requested attempt s.active key) :
    Ensures (specialize attempt fuel nesting key) s (fun _ t => Completes attempt fuel s t) AnyError := by
  induction nesting generalizing key s with
  | zero => exact ensures_throw trivial
  | succ nesting ih =>
    refine Ensures.bind (P := fun _ t => s = t)
      (ensures_checkActive (fun _ => trivial) (fun _ => trivial) fun _ => rfl) ?_
    rintro _ _ rfl
    refine ensures_get_bind ?_
    cases hlookup : s.specializations.lookup key with
    | some name => exact ensures_pure (Completes.refl hs hnamed)
    | none =>
      refine Ensures.bind (P := fun _ t => s = t)
        (ensures_checkDepth (fun _ => trivial) (fun _ => trivial) fun _ => rfl) ?_
      rintro _ _ rfl
      refine ensures_specializeNew (fun _ => trivial) fun opened hopens => ?_
      generalize attempt.isRecursive key s.active = recursive
      have hentered := hnamed.enter hlookup (h.nameable hopens) recursive
      have hactive : key ∉ s.active := fun hkey =>
        AList.lookup_eq_none.mp hlookup (hnamed.active key hkey)
      have hinner : SpecializeKeeps attempt (specialize attempt fuel nesting)
          (fun t => Completes attempt fuel (s.enter key opened.name recursive) t) AnyError :=
        fun other t ht hrequested =>
          (ih other t ht.budget ht.named hrequested).imp fun _ _ hu => ht.trans hu
      have hbody := ensures_statement admitsRetries_anyError.toAdmits (fun _ ht => ht.budget) hinner
        (key.id ∈ attempt.expanded) fuel opened.old.body (Or.inl trivial) opened.signature.shapes
        opened.signature.constants _ (Completes.refl (s := s.enter key opened.name recursive) hs hentered)
      refine ensures_iff.mpr ⟨fun r t hrun template hclose => ?_, fun _ _ => trivial⟩
      have ht := (ensures_iff.mp hbody).1 r t hrun
      have hentry : t.specializations.lookup key = some opened.name :=
        ht.extended key opened.name (AList.lookup_insert s.specializations)
      refine
        { budget := ht.budget
          active := ?_
          extended := (extended_insert hlookup opened.name).trans ht.extended
          named := ht.named.leave hentry (fun table htable => ?_) recursive }
      · change t.active.erase key = s.active
        rw [ht.active]
        exact Finset.erase_insert hactive
      · have hreplay := replays_statement attempt (replaysNames_specialize attempt fuel nesting table)
          (key.id ∈ attempt.expanded) fuel opened.old.body opened.signature.shapes
          opened.signature.constants (s.enter key opened.name recursive)
        have hok := hreplay.ok r t hrun htable
        rw [view_eq_empty ht.budget, view_eq_empty (s := s.enter key opened.name recursive) hs] at hok
        exact ⟨opened, r, hopens.openTemplate_eq_ok, rfl, hok, hclose⟩

/-- What a run of an attempt leaves. -/
theorem run_completes {main' : Expression} (h : attempt.run fuel nesting main = .ok (main', t)) :
    Completes attempt fuel .empty t ∧
      ∀ table, Extended t.specializations table →
        (call attempt (tableName table) ∅ ∅ main).run .empty = .ok (main', .empty) := by
  have hkeeps : SpecializeKeeps attempt (specialize attempt fuel nesting)
      (fun t => Completes attempt fuel .empty t) AnyError :=
    fun key s hs hrequested =>
      (ensures_specialize_completes attempt fuel nesting key s hs.budget hs.named hrequested).imp
        fun _ _ hu => hs.trans hu
  have hcall := ensures_call admitsRetries_anyError.toAdmits hkeeps
    (Completes.refl (s := .empty) rfl named_empty) ∅ ∅ main
  have ht := (ensures_iff.mp hcall).1 main' t h
  refine ⟨ht, fun table htable => ?_⟩
  have hreplay : ReplaysAt table .empty (call attempt (specialize attempt fuel nesting) ∅ ∅ main)
      (call attempt (tableName table) ∅ ∅ main) :=
    replays_call (replaysNames_specialize attempt fuel nesting table) rfl ∅ ∅ main
  have hok := hreplay.ok main' t h htable
  rw [view_eq_empty ht.budget] at hok
  exact hok

/-- A successful preparation is a successful run of an attempt. -/
theorem run_of_prepareFrom {result : ProgramArchive}
    (h : prepareFrom program prime fuel nesting rounds expanded boundArrays = .ok result) :
    ∃ expanded boundArrays t, (program.attempt prime expanded boundArrays).run fuel nesting
      program.initialTemplateCall = .ok (result.initialTemplateCall, t) ∧
      result.templates = t.templates := by
  induction rounds generalizing expanded boundArrays with
  | zero => cases h
  | succ rounds ih =>
    rw [prepareFrom] at h
    split at h
    · next main preparation hrun =>
      cases h
      exact ⟨expanded, boundArrays, preparation, hrun, rfl⟩
    · next id hrun =>
      split at h
      · exact ih h
      · cases h
    · next id hrun =>
      split at h
      · exact ih h
      · cases h
    · cases h

/-- The names of a finished table identify its keys: no two keys share a name, a generated name is not the name
of an original template, the templates are the specializations for the keys under their names, and in these and
in the main call every constructor is called by the name of its key. -/
structure Identified (attempt : Attempt) (fuel : ℕ) (main main' : Expression) (t : Preparation) : Prop where
  distinct : Distinct t.specializations
  unused (key : Specialization) (name : String) (h : t.specializations.lookup key = some name) :
    name ≠ key.id → name ∉ attempt.originals
  templates (key : Specialization) (name : String) (h : t.specializations.lookup key = some name) :
    ∃ template, t.templates.lookup name = some template ∧
      SpecializedBy attempt fuel t.specializations key name template
  named (name : String) (h : name ∈ t.templates) : ∃ key, t.specializations.lookup key = some name
  main : (call attempt (tableName t.specializations) ∅ ∅ main).run .empty = .ok (main', .empty)

theorem Completes.identified_iff {main' : Expression} (h : Completes attempt fuel .empty t)
    (hmain : (call attempt (tableName t.specializations) ∅ ∅ main).run .empty = .ok (main', .empty)) :
    Identified attempt fuel main main' t ↔ ClashFree t.specializations := by
  have hnamed := h.named
  constructor
  · intro hidentified
    exact hnamed.distinct_iff.mp hidentified.distinct
  · intro hfree
    have hdistinct := hnamed.distinct_iff.mpr hfree
    refine
      { distinct := hdistinct
        unused := fun key name hname => (hnamed.nameable key name hname).unused
        templates := fun key name hname => ?_
        named := fun name hname => ?_
        main := hmain }
    · refine hnamed.complete key name hname ?_ t.specializations (Extended.refl _) hdistinct
      rw [h.active]
      exact Finset.notMem_empty key
    · obtain ⟨key, -, hentry⟩ := hnamed.templates name hname
      exact ⟨key, hentry⟩

/-- In every successful preparation the names identify the specializations exactly if no two of the keys clash,
and none do if no template is named like another one with the shapes of arguments appended. -/
theorem specialization_names_iff {fuel prime : ℕ} {program result : ProgramArchive}
    (h : prepare fuel program prime = .ok result) :
    (∃ expanded boundArrays t, (program.attempt prime expanded boundArrays).run fuel fuel
      program.initialTemplateCall = .ok (result.initialTemplateCall, t) ∧
      result.templates = t.templates) ∧
    ∀ expanded boundArrays main' t,
      (program.attempt prime expanded boundArrays).run fuel fuel program.initialTemplateCall =
        .ok (main', t) →
      (Identified (program.attempt prime expanded boundArrays) fuel program.initialTemplateCall main' t ↔
        ClashFree t.specializations) ∧
      (Separated program.templates → ClashFree t.specializations) := by
  refine ⟨run_of_prepareFrom h, fun expanded boundArrays main' t hrun => ?_⟩
  obtain ⟨hcompletes, hmain⟩ := run_completes hrun
  exact ⟨hcompletes.identified_iff (hmain t.specializations (Extended.refl _)),
    hcompletes.named.clashFree⟩

def numberArgument (n : ℤ) : Expression := .number ⟨0, 0, none⟩ n

def variableArgument (name : String) : Expression := .var ⟨0, 0, none⟩ name []

def arrayArgument (n : ℤ) : Expression := .arrayInLine ⟨0, 0, none⟩ [numberArgument n]

def constructor (id : String) (args : List Expression) : Statement :=
  .initializationBlock ⟨0, 0, none⟩ .component
    [.declaration ⟨0, 0, none⟩ .component "c" [] false false,
      .substitution ⟨0, 0, none⟩ "c" [] .assignVar (.call ⟨0, 0, none⟩ id args)]

def templateOf (name : String) (params : List String) (stmts : List Statement) : String × TemplateData :=
  (name, ⟨name, 0, .block ⟨0, 0, none⟩ stmts, params, false, false, false⟩)

/-- A template with an array. -/
def arrayProgram : ProgramArchive where
  functions := ∅
  initialTemplateCall := .call ⟨0, 0, none⟩ "Main" []
  templates := AList.ofPairs [
    templateOf "Main" [] [constructor "A" [arrayArgument 1], constructor "A" [numberArgument 2]],
    templateOf "A" ["a"] []]

theorem specialization_names_iff_arrayProgram :
    ∃ result expanded boundArrays t, prepare 10 arrayProgram 101 = .ok result ∧
      result.templates = t.templates ∧
      Identified (arrayProgram.attempt 101 expanded boundArrays) 10 arrayProgram.initialTemplateCall
        result.initialTemplateCall t := by
  have hsucceeds : (prepare 10 arrayProgram 101).isOk = true := by decide +kernel
  cases h : prepare 10 arrayProgram 101 with
  | error e =>
    rw [h] at hsucceeds
    cases hsucceeds
  | ok result =>
    obtain ⟨⟨expanded, boundArrays, t, hrun, htemplates⟩, hall⟩ := specialization_names_iff h
    have hseparated : Separated arrayProgram.templates :=
      separated_of_notMem fun id hid => by
        have hall : ∀ id ∈ arrayProgram.templates.keys, '$' ∉ id.toList := by decide +kernel
        exact hall id hid
    obtain ⟨hiff, hfree⟩ := hall expanded boundArrays _ t hrun
    exact ⟨result, expanded, boundArrays, t, rfl, htemplates, hiff.mpr (hfree hseparated)⟩

/-! ## A clash -/

/-- The token `IDENTIFIER` of the grammar, `[$_]*[a-zA-Z][a-zA-Z$_0-9]*`. -/
def isIdentifier (name : String) : Bool :=
  match name.toList.dropWhile fun c => c = '$' ∨ c = '_' with
  | [] => false
  | c :: cs => c.isAlpha && cs.all fun c => c.isAlphanum || c = '$' || c = '_'

/-- The template `R` is recursive with an array, and two templates that construct it clash. -/
def clashingProgram : ProgramArchive where
  functions := ∅
  initialTemplateCall := .call ⟨0, 0, none⟩ "Main" []
  templates := AList.ofPairs [
    templateOf "Main" [] [constructor "R" [numberArgument 0, arrayArgument 1],
      constructor "A" [numberArgument 0, arrayArgument 1],
      constructor "A$arrays$1_1" [numberArgument 0]],
    templateOf "R" ["n", "a"] [.ifThenElse ⟨0, 0, none⟩ (variableArgument "n")
      (constructor "R" [numberArgument 0, variableArgument "a"]) none],
    templateOf "A" ["n", "a"] [constructor "R" [variableArgument "n", variableArgument "a"]],
    templateOf "A$arrays$1_1" ["n"] [constructor "R" [variableArgument "n", arrayArgument 2]]]

def arrayKey : Specialization := ⟨"A", [none, some [1]], [some (.scalar 0), none]⟩

def scalarKey : Specialization := ⟨"A$arrays$1_1", [none], [some (.scalar 0)]⟩

/-- All templates lead to the recursion. -/
def clashingTemplates : Finset String := {"Main", "R", "A", "A$arrays$1_1"}

/-- The names of the clashing keys, and how many specializations and templates an attempt leaves. -/
def clashingOutcome (r : Expression × Preparation) : Option String × Option String × ℕ × ℕ :=
  (r.2.specializations.lookup arrayKey, r.2.specializations.lookup scalarKey,
    r.2.specializations.keys.length, r.2.templates.keys.length)

theorem clashingProgram_clashes :
    ((clashingProgram.attempt 101 clashingTemplates ∅).run 20 20
      clashingProgram.initialTemplateCall).toOption.map clashingOutcome =
      some (some "A$arrays$1_1$values$0_0", some "A$arrays$1_1$values$0_0", 4, 3) := by
  decide +kernel

/-- The template that an attempt finds to be expanded. -/
def expandedTemplate? {α : Type} : Except Interruption α → Option String
  | .error (.expandRecursion id) => some id
  | _ => none

theorem eq_of_expandedTemplate? {α : Type} {result : Except Interruption α} {id : String}
    (h : expandedTemplate? result = some id) : result = .error (.expandRecursion id) := by
  unfold expandedTemplate? at h
  split at h
  · cases h
    rfl
  · cases h

theorem prepareFrom_of_expandRecursion {callers : Finset String} {id : String}
    (h : (program.attempt prime expanded boundArrays).run fuel nesting program.initialTemplateCall = .error (.expandRecursion id))
    (hcallers : callersOf program.templates fuel id = some callers) :
    prepareFrom program prime fuel nesting (rounds + 1) expanded boundArrays =
      prepareFrom program prime fuel nesting rounds (expanded ∪ callers) boundArrays := by
  rw [prepareFrom, h]
  dsimp only
  rw [hcallers]

theorem prepareFrom_of_ok
    (h : (program.attempt prime expanded boundArrays).run fuel nesting program.initialTemplateCall = .ok (main, t)) :
    prepareFrom program prime fuel nesting (rounds + 1) expanded boundArrays =
      .ok ⟨t.templates, program.functions, main⟩ := by
  rw [prepareFrom, h]

/-- All names are identifiers and the preparation succeeds, but two keys share a name, and of the templates that
were specialized for them one is lost. -/
theorem not_specialization_names :
    (∀ name ∈ clashingProgram.templates.keys, isIdentifier name = true) ∧ arrayKey ≠ scalarKey ∧
    ∃ main' t,
      (clashingProgram.attempt 101 clashingTemplates ∅).run 20 20 clashingProgram.initialTemplateCall =
        .ok (main', t) ∧
      prepare 20 clashingProgram 101 = .ok ⟨t.templates, ∅, main'⟩ ∧
      t.specializations.lookup arrayKey = some "A$arrays$1_1$values$0_0" ∧
      t.specializations.lookup scalarKey = some "A$arrays$1_1$values$0_0" ∧
      t.specializations.keys.length = 4 ∧ t.templates.keys.length = 3 := by
  refine ⟨by decide +kernel, by decide, ?_⟩
  have hclash := clashingProgram_clashes
  cases hrun : (clashingProgram.attempt 101 clashingTemplates ∅).run 20 20
      clashingProgram.initialTemplateCall with
  | error e =>
    rw [hrun] at hclash
    cases hclash
  | ok r =>
    obtain ⟨main', t⟩ := r
    rw [hrun] at hclash
    have houtcome := Option.some.inj hclash
    refine ⟨main', t, rfl, ?_, congrArg Prod.fst houtcome, congrArg (fun o => o.2.1) houtcome,
      congrArg (fun o => o.2.2.1) houtcome, congrArg (fun o => o.2.2.2) houtcome⟩
    have hfirst : (clashingProgram.attempt 101 ∅ ∅).run 20 20 clashingProgram.initialTemplateCall =
        .error (.expandRecursion "R") := eq_of_expandedTemplate? (by decide +kernel)
    have hcallers : callersOf clashingProgram.templates 20 "R" = some clashingTemplates := by
      decide +kernel
    rw [prepare, prepareFrom_of_expandRecursion hfirst hcallers, Finset.empty_union]
    exact prepareFrom_of_ok hrun

end Circom.LlzkBackend
