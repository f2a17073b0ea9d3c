import Circom.ProgramStructure.Proofs.Environment
import Circom.TypeAnalysis.Propagation

/-!
# Joining tags

What is known after a merge, after a round of a loop and after the variables of an unknown condition are
marked was known before.
-/

namespace Circom.TypeAnalysis

open Circom.Lib (HashMap Scopes)
open Circom.Lib.Scopes
open Circom.ProgramStructure
open Circom.ProgramStructure.Variables

variable {acc : Bool × Environment} {initialState : Environment} {name : String} {i : ℕ}

/-- The entry of the `i`-th block is tagged known. -/
def KnownAt (blocks : Variables (Tag × Bool)) (i : ℕ) (name : String) : Prop :=
  ∃ isArray, entry blocks i name = some (.known, isArray)

/-- A tag that is known afterwards was known before. -/
def Keeps (before after : Option (Tag × Bool)) : Prop :=
  (∃ isArray, after = some (.known, isArray)) → ∃ isArray, before = some (.known, isArray)

instance : IsPreorder (Option (Tag × Bool)) Keeps where
  refl _ := id
  trans _ _ _ h h' := h ∘ h'

/-- The blocks have the same variables, and only variables that were known are known. -/
def Weaker (before after : Variables (Tag × Bool)) : Prop :=
  Grows Keeps (fun _ => False) (fun _ => False) before after

theorem Weaker.known {before after : Variables (Tag × Bool)} (h : Weaker before after)
    (hknown : KnownAt after i name) : KnownAt before i name := by
  rcases h.entries i name with hkeeps | ⟨hfalse, -⟩ | ⟨-, hfalse⟩
  · exact hkeeps hknown
  · exact hfalse.elim
  · exact hfalse.elim

theorem weaker_of_known {before after : Variables (Tag × Bool)} (hkeys : SameKeys before after)
    (h : ∀ i name, KnownAt after i name → KnownAt before i name) : Weaker before after where
  length := hkeys.1.symm
  keys i k := by rw [hkeys.2 i k]; simp
  entries i k := Or.inl (h i k)

theorem Weaker.refl (blocks : Variables (Tag × Bool)) : Weaker blocks blocks := Grows.refl blocks

theorem Weaker.trans {a b c : Variables (Tag × Bool)} (h : Weaker a b) (h' : Weaker b c) : Weaker a c :=
  weaker_of_known (h.sameKeys.trans h'.sameKeys) fun _ _ hknown => h.known (h'.known hknown)

theorem tagged_iff_knownAt {environment : Environment} (h : Innermost environment.vars i name) :
    Tagged environment name .known ↔ KnownAt environment.vars i name := by
  rw [Tagged, KnownAt, getVariable_eq_entry h]

/-! ## Merging -/

theorem fst_maxEntry (a b : Tag × Bool) :
    (maxEntry a b).1 = .known ↔ a.1 = .known ∧ b.1 = .known := by
  obtain ⟨t, x⟩ := a
  obtain ⟨t', x'⟩ := b
  cases t <;> cases t' <;> simp [maxEntry]

theorem eq_known_iff {a : Tag × Bool} : (∃ isArray, some a = some (Tag.known, isArray)) ↔ a.1 = .known := by
  constructor
  · rintro ⟨isArray, ⟨rfl⟩⟩
    rfl
  · intro h
    exact ⟨a.2, by rw [← h]⟩

/-- Two environments with the same variables merge into one that is weaker than both. -/
theorem weaker_merge {left right : Variables (Tag × Bool)} (hkeys : SameKeys left right) :
    Weaker left (left.merge right maxEntry) ∧ Weaker right (left.merge right maxEntry) := by
  have hentry (i : ℕ) (name : String) :
      (entry left i name = none ∧ entry right i name = none ∧
        entry (left.merge right maxEntry) i name = none) ∨
      ∃ a b, entry left i name = some a ∧ entry right i name = some b ∧
        entry (left.merge right maxEntry) i name = some (maxEntry a b) := by
    rw [entry_merge hkeys.1]
    have hsome := hkeys.2 i name
    cases hl : entry left i name with
    | none =>
      rw [hl, Option.isSome_none, eq_comm, Option.isSome_eq_false_iff, Option.isNone_iff_eq_none] at hsome
      exact Or.inl ⟨rfl, hsome, by rw [hsome]; rfl⟩
    | some a =>
      rw [hl, Option.isSome_some, eq_comm] at hsome
      obtain ⟨b, hb⟩ := Option.isSome_iff_exists.mp hsome
      exact Or.inr ⟨a, b, rfl, hb, by rw [hb]; rfl⟩
  have hleft : SameKeys left (left.merge right maxEntry) := by
    refine ⟨(length_merge hkeys.1 maxEntry).symm, fun i name => ?_⟩
    rcases hentry i name with ⟨hl, -, hm⟩ | ⟨a, b, hl, -, hm⟩
    · rw [hl, hm]
    · rw [hl, hm]; rfl
  constructor
  · refine weaker_of_known hleft fun i name hknown => ?_
    rcases hentry i name with ⟨-, -, hm⟩ | ⟨a, b, hl, -, hm⟩
    · rw [KnownAt, hm] at hknown
      obtain ⟨isArray, h⟩ := hknown
      exact absurd h (by simp)
    · rw [KnownAt, hm, eq_known_iff, fst_maxEntry] at hknown
      rw [KnownAt, hl, eq_known_iff]
      exact hknown.1
  · refine weaker_of_known (hkeys.symm.trans hleft) fun i name hknown => ?_
    rcases hentry i name with ⟨-, -, hm⟩ | ⟨a, b, -, hr, hm⟩
    · rw [KnownAt, hm] at hknown
      obtain ⟨isArray, h⟩ := hknown
      exact absurd h (by simp)
    · rw [KnownAt, hm, eq_known_iff, fst_maxEntry] at hknown
      rw [KnownAt, hr, eq_known_iff]
      exact hknown.2

/-! ## Setting a tag where the variable is found -/

theorem knownAt_setVariable {blocks : Variables (Tag × Bool)} {content : Tag × Bool} {name' : String} :
    KnownAt (blocks.setVariable name content) i name' ↔
      (name' = name ∧ Innermost blocks i name) ∧ content.1 = .known ∨
        ¬ (name' = name ∧ Innermost blocks i name) ∧ KnownAt blocks i name' := by
  rw [KnownAt, entry_setVariable]
  split
  · next h =>
    rw [eq_known_iff]
    tauto
  · next h =>
    rw [← KnownAt]
    tauto

theorem sameKeys_setVariable {VC : Type} (blocks : Variables VC) (name : String) (content : VC) :
    SameKeys blocks (blocks.setVariable name content) := by
  refine ⟨(length_setVariable name content).symm, fun i name' => ?_⟩
  rw [entry_setVariable]
  split
  · next h =>
    rw [h.1, h.2.1]
    rfl
  · rfl

/-- Marking a name changes the entry where it is found. -/
theorem markUnknown_cons (name : String) (names : List String) (environment : Environment) :
    (∃ i content, Innermost environment.vars i name ∧ content.1 = .unknown ∧
      markUnknown (name :: names) environment =
        markUnknown names { environment with vars := environment.vars.setVariable name content }) ∨
    (∀ i, ¬ Innermost environment.vars i name) ∧
      markUnknown (name :: names) environment = markUnknown names environment := by
  cases hget : environment.vars.getVariable name with
  | some content =>
    obtain ⟨i, hi, -⟩ := getVariable_eq_some.mp hget
    refine Or.inl ⟨i, (.unknown, content.2), hi, rfl, ?_⟩
    simp only [markUnknown, List.foldl_cons, hget]
  | none =>
    refine Or.inr ⟨fun i hi => ?_, ?_⟩
    · have := isSome_getVariable.mpr ⟨i, hi⟩
      rw [hget] at this
      simp at this
    · simp only [markUnknown, List.foldl_cons, hget]

@[simp] theorem components_markUnknown (names : List String) (environment : Environment) :
    (markUnknown names environment).components = environment.components := by
  induction names generalizing environment with
  | nil => rfl
  | cons name names ih =>
    rcases markUnknown_cons name names environment with ⟨i, content, -, -, heq⟩ | ⟨-, heq⟩
    · rw [heq, ih]
    · rw [heq, ih]

theorem sameKeys_markUnknown (names : List String) (environment : Environment) :
    SameKeys environment.vars (markUnknown names environment).vars := by
  induction names generalizing environment with
  | nil => exact SameKeys.refl _
  | cons name names ih =>
    rcases markUnknown_cons name names environment with ⟨i, content, -, -, heq⟩ | ⟨-, heq⟩
    · rw [heq]
      refine (sameKeys_setVariable _ name content).trans ?_
      exact ih { environment with vars := environment.vars.setVariable name content }
    · rw [heq]
      exact ih environment

/-- What is still known was known and is not among the marked names. -/
theorem knownAt_markUnknown (names : List String) (environment : Environment)
    (hknown : KnownAt (markUnknown names environment).vars i name) :
    KnownAt environment.vars i name ∧ (name ∈ names → ¬ Innermost environment.vars i name) := by
  induction names generalizing environment with
  | nil => exact ⟨hknown, fun h => absurd h (by simp)⟩
  | cons name' names ih =>
    rcases markUnknown_cons name' names environment with ⟨j, content, hj, hcontent, heq⟩ | ⟨hnone, heq⟩
    · rw [heq] at hknown
      obtain ⟨hknown, hnot⟩ := ih _ hknown
      rcases knownAt_setVariable.mp hknown with ⟨-, hknown⟩ | ⟨hne, hknown⟩
      · rw [hcontent] at hknown
        exact absurd hknown (by simp)
      · refine ⟨hknown, fun hmem hinner => ?_⟩
        rcases List.mem_cons.mp hmem with rfl | hmem
        · exact hne ⟨rfl, hinner⟩
        · exact hnot hmem ((sameKeys_setVariable environment.vars name' content).innermost.mp hinner)
    · rw [heq] at hknown
      obtain ⟨hknown, hnot⟩ := ih _ hknown
      refine ⟨hknown, fun hmem hinner => ?_⟩
      rcases List.mem_cons.mp hmem with rfl | hmem
      · exact hnone i hinner
      · exact hnot hmem hinner

theorem weaker_markUnknown (names : List String) (environment : Environment) :
    Weaker environment.vars (markUnknown names environment).vars :=
  weaker_of_known (sameKeys_markUnknown names environment) fun _ _ hknown =>
    (knownAt_markUnknown names environment hknown).1

/-! ## The end of a round -/

/-- The loop of `checkModified`, from any state of it. -/
def checkNames (initialState : Environment) (names : List String) (acc : Bool × Environment) :
    Bool × Environment :=
  names.foldl (fun (acc : Bool × Environment) name =>
    match initialState.vars.getVariable name, acc.2.vars.getVariable name with
    | some ini, some fin =>
      if ini ≠ fin then
        (acc.1 || fin.1 = .unknown, { acc.2 with vars := acc.2.vars.setVariable name (maxEntry ini fin) })
      else acc
    | _, _ => acc) acc

theorem checkModified_eq (initialState finalState : Environment) (names : List String) :
    checkModified initialState finalState names = checkNames initialState names (false, finalState) := rfl

/-- What the loop does with a name: nothing when it is not a variable or has the same tag, and else it joins
the tags where the variable is found. -/
theorem checkNames_cons (initialState : Environment) (name : String) (names : List String)
    (acc : Bool × Environment) (hkeys : SameKeys initialState.vars acc.2.vars) :
    (checkNames initialState (name :: names) acc = checkNames initialState names acc ∧
      ∀ i, Innermost initialState.vars i name →
        entry initialState.vars i name = entry acc.2.vars i name) ∨
    ∃ i ini fin, Innermost initialState.vars i name ∧ entry initialState.vars i name = some ini ∧
      entry acc.2.vars i name = some fin ∧
      checkNames initialState (name :: names) acc =
        checkNames initialState names (acc.1 || fin.1 = .unknown,
          { acc.2 with vars := acc.2.vars.setVariable name (maxEntry ini fin) }) := by
  simp only [checkNames, List.foldl_cons]
  cases hini : initialState.vars.getVariable name with
  | none =>
    refine Or.inl ⟨rfl, fun i hi => ?_⟩
    have := isSome_getVariable.mpr ⟨i, hi⟩
    rw [hini] at this
    simp at this
  | some ini =>
    obtain ⟨i, hi, hentry⟩ := getVariable_eq_some.mp hini
    obtain ⟨fin, hfin⟩ := Option.isSome_iff_exists.mp (hkeys.innermost.mp hi).1
    have hget := (getVariable_eq_entry (hkeys.innermost.mp hi)).trans hfin
    rw [hget]
    by_cases heq : ini = fin
    · refine Or.inl ⟨by simp [heq], fun j hj => ?_⟩
      rw [hj.unique hi, hentry, hfin, heq]
    · refine Or.inr ⟨i, ini, fin, hi, hentry, hfin, ?_⟩
      simp [heq]

theorem sameKeys_checkNames (names : List String) (hkeys : SameKeys initialState.vars acc.2.vars) :
    SameKeys initialState.vars (checkNames initialState names acc).2.vars ∧
      (checkNames initialState names acc).2.components = acc.2.components := by
  induction names generalizing acc with
  | nil => exact ⟨hkeys, rfl⟩
  | cons name names ih =>
    rcases checkNames_cons initialState name names acc hkeys with ⟨heq, -⟩ | ⟨i, ini, fin, -, -, -, heq⟩
    · rw [heq]
      exact ih hkeys
    · rw [heq]
      exact ih (hkeys.trans (sameKeys_setVariable _ name _))

/-- What is known at the end of a round was known after the body, and before it when it was joined. -/
theorem knownAt_checkNames (names : List String) (hkeys : SameKeys initialState.vars acc.2.vars)
    (hknown : KnownAt (checkNames initialState names acc).2.vars i name) :
    KnownAt acc.2.vars i name ∧
      (name ∈ names → Innermost initialState.vars i name → KnownAt initialState.vars i name) := by
  induction names generalizing acc with
  | nil => exact ⟨hknown, fun h => absurd h (by simp)⟩
  | cons name' names ih =>
    rcases checkNames_cons initialState name' names acc hkeys with
      ⟨heq, hsame⟩ | ⟨j, ini, fin, hj, hini, hfin, heq⟩
    · rw [heq] at hknown
      obtain ⟨hafter, hbefore⟩ := ih hkeys hknown
      refine ⟨hafter, fun hmem hinner => ?_⟩
      rcases List.mem_cons.mp hmem with rfl | hmem
      · rw [KnownAt, hsame i hinner]
        exact hafter
      · exact hbefore hmem hinner
    · rw [heq] at hknown
      obtain ⟨hafter, hbefore⟩ := ih (hkeys.trans (sameKeys_setVariable _ name' _)) hknown
      rcases knownAt_setVariable.mp hafter with ⟨⟨rfl, hinner⟩, hmax⟩ | ⟨hne, hafter⟩
      · have hij : i = j := hinner.unique (hkeys.innermost.mp hj)
        subst hij
        rw [fst_maxEntry] at hmax
        refine ⟨?_, fun _ _ => ?_⟩
        · rw [KnownAt, hfin, eq_known_iff]
          exact hmax.2
        · rw [KnownAt, hini, eq_known_iff]
          exact hmax.1
      · refine ⟨hafter, fun hmem hinner => ?_⟩
        rcases List.mem_cons.mp hmem with rfl | hmem
        · exact absurd ⟨rfl, hkeys.innermost.mp hinner⟩ hne
        · exact hbefore hmem hinner

theorem fst_checkNames (names : List String) (hkeys : SameKeys initialState.vars acc.2.vars)
    (hflag : (checkNames initialState names acc).1 = false) : acc.1 = false := by
  induction names generalizing acc with
  | nil => exact hflag
  | cons name names ih =>
    rcases checkNames_cons initialState name names acc hkeys with ⟨heq, -⟩ | ⟨i, ini, fin, -, -, -, heq⟩
    · rw [heq] at hflag
      exact ih hkeys hflag
    · rw [heq] at hflag
      exact (Bool.or_eq_false_iff.mp (ih (hkeys.trans (sameKeys_setVariable _ name _)) hflag)).1

/-- When no variable gets unknown, what was known before the round and after the body stays known, and so
does a joined variable that was known before. -/
theorem knownAt_checkNames_of_unmodified (names : List String) (hkeys : SameKeys initialState.vars acc.2.vars)
    (hflag : (checkNames initialState names acc).1 = false) (hinner : Innermost initialState.vars i name)
    (hini : KnownAt initialState.vars i name) (h : name ∈ names ∨ KnownAt acc.2.vars i name) :
    KnownAt (checkNames initialState names acc).2.vars i name := by
  induction names generalizing acc with
  | nil => exact h.resolve_left (by simp)
  | cons name' names ih =>
    rcases checkNames_cons initialState name' names acc hkeys with
      ⟨heq, hsame⟩ | ⟨j, ini, fin, hj, hentry, -, heq⟩
    · rw [heq] at hflag ⊢
      refine ih hkeys hflag ?_
      rcases h with hmem | hknown
      · rcases List.mem_cons.mp hmem with rfl | hmem
        · rw [KnownAt, hsame i hinner] at hini
          exact Or.inr hini
        · exact Or.inl hmem
      · exact Or.inr hknown
    · rw [heq] at hflag ⊢
      have hkeys' := hkeys.trans (sameKeys_setVariable acc.2.vars name' (maxEntry ini fin))
      have hfin := (Bool.or_eq_false_iff.mp (fst_checkNames names hkeys' hflag)).2
      refine ih hkeys' hflag ?_
      by_cases hname : name = name'
      · subst hname
        have hij : i = j := hinner.unique hj
        subst hij
        rw [KnownAt, hentry, eq_known_iff] at hini
        have hfin' : fin.1 = .known := by
          cases ht : fin.1 with
          | known => rfl
          | unknown => simp [ht] at hfin
        refine Or.inr (knownAt_setVariable.mpr (Or.inl ⟨⟨rfl, hkeys.innermost.mp hinner⟩, ?_⟩))
        exact (fst_maxEntry ini fin).mpr ⟨hini, hfin'⟩
      · rcases h with hmem | hknown
        · exact Or.inl ((List.mem_cons.mp hmem).resolve_left hname)
        · exact Or.inr (knownAt_setVariable.mpr (Or.inr ⟨fun h => hname h.1, hknown⟩))

end Circom.TypeAnalysis
