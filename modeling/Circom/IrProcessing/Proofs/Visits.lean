import Circom.IntermediateRepresentation.InputStores
import Circom.IrProcessing.BuildInputsInfo
import Mathlib.Data.Finset.Basic

/-!
# What one visit does

A visit of a store writes its status and updates the tables; branches and loops are visited list by list.
-/

namespace Circom.IrProcessing

open Circom.IntermediateRepresentation
open Circom.Lib (HashMap)

variable {insideLoop : Bool} {level' : Finset String} {tables tables' : Tables}

/-! ## Kinds of stores -/

/-- A store to the component at the address `v`. -/
def IsKnown (v : ℕ) (store : InputStore) : Prop :=
  alwaysEmpty store.context = false ∧ store.isAnonymous = false ∧
    ∃ parseAs, store.cmpAddress = .value parseAs v

/-- A store to some component of the name, whose address is computed. -/
def IsUnknownOf (name : String) (store : InputStore) : Prop :=
  alwaysEmpty store.context = false ∧ store.isAnonymous = false ∧ store.cmpName = name ∧
    ∀ parseAs v, store.cmpAddress ≠ .value parseAs v

/-- A store that is not always empty, to an anonymous component. -/
def IsAnonymousOf (name : String) (store : InputStore) : Prop :=
  alwaysEmpty store.context = false ∧ store.isAnonymous = true ∧ store.cmpName = name

/-- The store with another status. -/
def withStatus (store : InputStore) (status : StatusInput) (needsDecrement : Bool) : InputStore :=
  { store with status := status, needsDecrement := needsDecrement }

/-- The visit of a store, between two states of the tables. -/
inductive Marks (insideLoop : Bool) (tables : Tables) (level : Finset String) (store : InputStore) :
    InputStore → Tables → Finset String → Prop where
  | empty (needsDecrement : Bool) (h : alwaysEmpty store.context = true) :
    Marks insideLoop tables level store (withStatus store .sizeZero needsDecrement) tables level
  | anonymous (h : alwaysEmpty store.context = false) (ha : store.isAnonymous = true)
      (visited : Visited) (hv : visitAnonymous tables level store.cmpName = some visited) :
    Marks insideLoop tables level store (withStatus store visited.status visited.needsDecrement)
      visited.tables visited.assignmentsLevel
  | known (h : alwaysEmpty store.context = false) (ha : store.isAnonymous = false)
      (parseAs : ValueType) (v : ℕ) (hv : store.cmpAddress = .value parseAs v) (visited : Visited)
      (hvisited : visitKnown insideLoop tables level store.cmpName (cmpKey v) = visited) :
    Marks insideLoop tables level store (withStatus store visited.status visited.needsDecrement)
      visited.tables visited.assignmentsLevel
  | unknown (h : alwaysEmpty store.context = false) (ha : store.isAnonymous = false)
      (hv : ∀ parseAs v, store.cmpAddress ≠ .value parseAs v) :
    Marks insideLoop tables level store (withStatus store .unknown true)
      (visitUnknown tables level store.cmpName).tables level

theorem visitInput_eq_value (insideLoop : Bool) (tables : Tables) (level : Finset String)
    (parseAs : ValueType) (v : ℕ) (cmpName : String) :
    visitInput insideLoop tables level (.value parseAs v) false cmpName =
      some (visitKnown insideLoop tables level cmpName (cmpKey v)) := rfl

theorem visitInput_eq_unknown (insideLoop : Bool) (tables : Tables) (level : Finset String)
    {cmpAddress : Instruction} (h : ∀ parseAs v, cmpAddress ≠ .value parseAs v) (cmpName : String) :
    visitInput insideLoop tables level cmpAddress false cmpName =
      some (visitUnknown tables level cmpName) := by
  cases cmpAddress with
  | value parseAs v => exact absurd rfl (h parseAs v)
  | _ => rfl

/-- An address that is no input is left alone, and an input is marked. -/
theorem visitAddressType_cases {level : Finset String} {context : SizeOption} (srcContext : Option SizeOption)
    {xtype xtype' : AddressType}
    (h : visitAddressType insideLoop (alwaysEmpty context) tables level xtype = some (xtype', tables', level')) :
    (xtype'.inputStore context srcContext = none ∧ xtype.inputStore context srcContext = none ∧
        tables' = tables ∧ level' = level) ∨
      ∃ store store', xtype.inputStore context srcContext = some store ∧
        xtype'.inputStore context srcContext = some store' ∧
        Marks insideLoop tables level store store' tables' level' := by
  cases xtype with
  | var =>
    obtain ⟨rfl, rfl, rfl⟩ : xtype' = .var ∧ tables' = tables ∧ level' = level := by
      simpa [visitAddressType, eq_comm] using h
    exact Or.inl ⟨rfl, rfl, rfl, rfl⟩
  | signal =>
    obtain ⟨rfl, rfl, rfl⟩ : xtype' = .signal ∧ tables' = tables ∧ level' = level := by
      simpa [visitAddressType, eq_comm] using h
    exact Or.inl ⟨rfl, rfl, rfl, rfl⟩
  | subcmpSignal cmpAddress isOutput inputInformation isAnonymous cmpName =>
    cases inputInformation with
    | noInput =>
      obtain ⟨rfl, rfl, rfl⟩ : xtype' = .subcmpSignal cmpAddress isOutput .noInput isAnonymous cmpName ∧
          tables' = tables ∧ level' = level := by
        simpa [visitAddressType, eq_comm] using h
      exact Or.inl ⟨rfl, rfl, rfl, rfl⟩
    | input status needsDecrement =>
      right
      by_cases hempty : alwaysEmpty context = true
      · simp only [visitAddressType, hempty, if_true, Option.some.injEq, Prod.mk.injEq] at h
        obtain ⟨rfl, rfl, rfl⟩ := h
        exact ⟨_, _, rfl, rfl, .empty needsDecrement hempty⟩
      · rw [Bool.not_eq_true] at hempty
        simp only [visitAddressType, hempty, Bool.false_eq_true, if_false] at h
        obtain ⟨visited, hvisited, h⟩ := Option.bind_eq_some_iff.mp h
        simp only [Option.some.injEq, Prod.mk.injEq] at h
        obtain ⟨rfl, rfl, rfl⟩ := h
        refine ⟨_, _, rfl, rfl, ?_⟩
        let store : InputStore :=
          ⟨context, srcContext, cmpAddress, status, needsDecrement, isAnonymous, cmpName⟩
        have hempty' : alwaysEmpty store.context = false := hempty
        cases isAnonymous with
        | true => exact Marks.anonymous hempty' rfl visited hvisited
        | false =>
          by_cases hknown : ∃ parseAs v, cmpAddress = .value parseAs v
          · obtain ⟨parseAs, v, rfl⟩ := hknown
            rw [visitInput_eq_value, Option.some.injEq] at hvisited
            exact Marks.known hempty' rfl parseAs v rfl visited hvisited
          · have hunknown : ∀ parseAs v, cmpAddress ≠ .value parseAs v :=
              fun parseAs v heq => hknown ⟨parseAs, v, heq⟩
            rw [visitInput_eq_unknown _ _ _ hunknown, Option.some.injEq] at hvisited
            rw [← hvisited]
            exact Marks.unknown hempty' rfl hunknown

/-- The visit of an instruction, between two states of the tables. -/
inductive Visits (insideLoop : Bool) (tables : Tables) (level : Finset String) :
    Instruction → Instruction → Tables → Finset String → Prop where
  | branch (cond : Instruction) {ifBranch ifBranch' elseBranch elseBranch' : List Instruction}
      {tables₁ tables₂ : Tables} {level₁ level₂ : Finset String}
      (hif : visitFromEnd true tables ifBranch = some (ifBranch', tables₁, level₁))
      (helse : visitFromEnd true tables₁ elseBranch = some (elseBranch', tables₂, level₂)) :
      Visits insideLoop tables level (.branch cond ifBranch elseBranch)
        (.branch cond ifBranch' elseBranch') tables₂ level
  | loop (continueCondition : Instruction) {body body' : List Instruction} {tables' : Tables}
      {level' : Finset String} (hbody : visitFromEnd true tables body = some (body', tables', level')) :
      Visits insideLoop tables level (.loop continueCondition body) (.loop continueCondition body')
        tables' level
  | skip {instruction instruction' : Instruction} (hdirect : instruction.IsDirect)
      (hdirect' : instruction'.IsDirect) (hstore : instruction.inputStore = none)
      (hstore' : instruction'.inputStore = none) :
      Visits insideLoop tables level instruction instruction' tables level
  | mark {instruction instruction' : Instruction} {store store' : InputStore} {tables' : Tables}
      {level' : Finset String} (hdirect : instruction.IsDirect) (hdirect' : instruction'.IsDirect)
      (hstore : instruction.inputStore = some store) (hstore' : instruction'.inputStore = some store')
      (hmarks : Marks insideLoop tables level store store' tables' level') :
      Visits insideLoop tables level instruction instruction' tables' level'

theorem visits_of_eq {level : Finset String} {instruction instruction' : Instruction}
    (h : visitInstruction insideLoop tables level instruction = some (instruction', tables', level')) :
    Visits insideLoop tables level instruction instruction' tables' level' := by
  cases instruction with
  | branch cond ifBranch elseBranch =>
    obtain ⟨⟨ifBranch', tables₁, level₁⟩, hif, h⟩ := Option.bind_eq_some_iff.mp h
    obtain ⟨⟨elseBranch', tables₂, level₂⟩, helse, h⟩ := Option.bind_eq_some_iff.mp h
    simp only [Option.some.injEq, Prod.mk.injEq] at h
    obtain ⟨rfl, rfl, rfl⟩ := h
    exact .branch cond hif helse
  | loop continueCondition body =>
    obtain ⟨⟨body', tables₁, level₁⟩, hbody, h⟩ := Option.bind_eq_some_iff.mp h
    simp only [Option.some.injEq, Prod.mk.injEq] at h
    obtain ⟨rfl, rfl, rfl⟩ := h
    exact .loop continueCondition hbody
  | store context srcContext destAddressType dest src =>
    obtain ⟨⟨destAddressType', tables₁, level₁⟩, haddress, h⟩ := Option.bind_eq_some_iff.mp h
    simp only [Option.some.injEq, Prod.mk.injEq] at h
    obtain ⟨rfl, rfl, rfl⟩ := h
    obtain ⟨hstore', hstore, rfl, rfl⟩ | ⟨store, store', hstore, hstore', hmarks⟩ :=
      visitAddressType_cases (some srcContext) haddress
    · exact .skip trivial trivial hstore hstore'
    · exact .mark trivial trivial hstore hstore' hmarks
  | call symbol arguments returnInfo =>
    cases returnInfo with
    | intermediate =>
      simp only [visitInstruction, Option.some.injEq, Prod.mk.injEq] at h
      obtain ⟨rfl, rfl, rfl⟩ := h
      exact .skip trivial trivial rfl rfl
    | final context destAddressType dest =>
      obtain ⟨⟨destAddressType', tables₁, level₁⟩, haddress, h⟩ := Option.bind_eq_some_iff.mp h
      simp only [Option.some.injEq, Prod.mk.injEq] at h
      obtain ⟨rfl, rfl, rfl⟩ := h
      obtain ⟨hstore', hstore, rfl, rfl⟩ | ⟨store, store', hstore, hstore', hmarks⟩ :=
        visitAddressType_cases none haddress
      · exact .skip trivial trivial hstore hstore'
      · exact .mark trivial trivial hstore hstore' hmarks
  | _ =>
    simp only [visitInstruction, Option.some.injEq, Prod.mk.injEq] at h
    obtain ⟨rfl, rfl, rfl⟩ := h
    exact .skip trivial trivial rfl rfl

/-- The instructions after the first one are visited before it. -/
theorem visitFromEnd_cons {instruction : Instruction} {instructions code' : List Instruction}
    (h : visitFromEnd insideLoop tables (instruction :: instructions) = some (code', tables', level')) :
    ∃ instruction' instructions' tables₁ level₁, code' = instruction' :: instructions' ∧
      visitFromEnd insideLoop tables instructions = some (instructions', tables₁, level₁) ∧
      visitInstruction insideLoop tables₁ level₁ instruction = some (instruction', tables', level') := by
  obtain ⟨⟨instructions', tables₁, level₁⟩, hrest, h⟩ := Option.bind_eq_some_iff.mp h
  obtain ⟨⟨instruction', tables₂, level₂⟩, hfirst, h⟩ := Option.bind_eq_some_iff.mp h
  simp only [Option.some.injEq, Prod.mk.injEq] at h
  obtain ⟨rfl, rfl, rfl⟩ := h
  exact ⟨instruction', instructions', tables₁, level₁, rfl, hrest, hfirst⟩

end Circom.IrProcessing
