import Circom.Lib.Outcomes
import Circom.Parser.IncludeLogic
import Mathlib.Logic.Relation
import Mathlib.Tactic.Common

/-!
# The files that the parser reads

A path that `take_next` returns is the path of the main file or the canonical path of a file that another one
includes. The loop ends, and what it has taken is closed under includes. A file is read under two names when the
path of the main file is not its canonical one and some file includes the main file.
-/

namespace Circom.Parser.IncludeLogic

open Circom.Lib (FileSystem PathBuf)
open Relation (ReflTransGen TransGen)

variable {e : Entry} {s' : FileStack} {trace : List Entry} {gs libs : List PathBuf} {f g p x : PathBuf}
variable {name : String}

/-! ## The stack -/

namespace FileStack

variable {fs : FileSystem}

/-- What is found is a file, under its canonical path. -/
theorem mem_files_of_findInclude (h : findInclude fs name libs = some g) : g ∈ fs.files := by
  induction libs with
  | nil => cases h
  | cons lib libs ih =>
    unfold findInclude at h
    split at h
    · exact ih h
    · rename_i path hpath
      by_cases hfile : fs.isFile path = true
      · rw [if_pos hfile] at h
        cases h
        exact (FileSystem.isFile_canonical hpath).mp hfile
      · rw [if_neg hfile] at h
        exact ih h

/-- What `add_include` does to the stack. -/
theorem addInclude_spec {s : FileStack} (h : s.addInclude fs name libs = .ok (s', g)) :
    findInclude fs name (s.currentLocation :: libs) = some g ∧ s'.currentLocation = s.currentLocation ∧
      s'.blackPaths = s.blackPaths ∧ ∀ q, q ∈ s.blackPaths ∨ q ∈ s'.stack ↔ q ∈ s.blackPaths ∨ q ∈ s.stack ∨ q = g := by
  unfold addInclude at h
  cases hfind : findInclude fs name (s.currentLocation :: libs) with
  | none => rw [hfind] at h; cases h
  | some path =>
    rw [hfind] at h
    cases h
    by_cases hblack : g ∈ s.blackPaths
    · rw [if_pos hblack]
      refine ⟨rfl, rfl, rfl, fun q => ⟨fun hq => hq.imp_right Or.inl, ?_⟩⟩
      rintro (hq | hq | rfl)
      · exact Or.inl hq
      · exact Or.inr hq
      · exact Or.inl hblack
    · rw [if_neg hblack]
      refine ⟨rfl, rfl, rfl, fun q => ?_⟩
      show _ ∨ q ∈ g :: s.stack ↔ _
      rw [List.mem_cons, or_comm (a := q = g)]

theorem takeNextLoop_none {location : PathBuf} {black : Finset PathBuf} {stack : List PathBuf}
    (h : takeNextLoop location black stack = none) : ∀ q ∈ stack, q ∈ black := by
  induction stack with
  | nil => intro q hq; cases hq
  | cons file stack ih =>
    unfold takeNextLoop at h
    by_cases hfile : file ∈ black
    · rw [if_pos hfile] at h
      exact List.forall_mem_cons.mpr ⟨hfile, ih h⟩
    · rw [if_neg hfile] at h
      cases h

theorem takeNextLoop_some {location : PathBuf} {black : Finset PathBuf} {stack : List PathBuf}
    (h : takeNextLoop location black stack = some (p, s')) :
    p ∉ black ∧ p ∈ stack ∧ s'.currentLocation = p.pop ∧ s'.blackPaths = insert p black ∧
      ∀ q, q ∈ s'.blackPaths ∨ q ∈ s'.stack ↔ q ∈ black ∨ q ∈ stack := by
  induction stack with
  | nil => cases h
  | cons file stack ih =>
    unfold takeNextLoop at h
    by_cases hfile : file ∈ black
    · rw [if_pos hfile] at h
      obtain ⟨hp, hmem, hloc, hblack, hall⟩ := ih h
      refine ⟨hp, List.mem_cons_of_mem _ hmem, hloc, hblack, fun q => (hall q).trans ?_⟩
      rw [List.mem_cons]
      constructor
      · exact fun hq => hq.imp_right Or.inr
      · rintro (hq | rfl | hq)
        · exact Or.inl hq
        · exact Or.inl hfile
        · exact Or.inr hq
    · rw [if_neg hfile] at h
      cases h
      refine ⟨hfile, List.mem_cons_self, rfl, rfl, fun q => ?_⟩
      show q ∈ insert p black ∨ q ∈ stack ↔ q ∈ black ∨ q ∈ p :: stack
      rw [Finset.mem_insert, List.mem_cons, or_comm (a := q = p), or_assoc]

end FileStack

/-! ## Reading a file -/

theorem openFile_ok {fs : FileSystem} {path src : String} (h : openFile fs x = .ok (path, src)) :
    fs.readToString x = some src := by
  unfold openFile at h
  cases hread : fs.readToString x with
  | none => rw [hread] at h; cases h
  | some contents => rw [hread] at h; cases h; rfl

theorem findFile_ok {fs : FileSystem} {found : FoundFile} (h : findFile fs p libs = .ok found) :
    fs.readToString found.crrStrFile = some found.src ∧
      ∃ lib ∈ libs, found.crrStrFile = (PathBuf.empty.push lib).push p := by
  induction libs with
  | nil => cases h
  | cons lib libs ih =>
    unfold findFile at h
    dsimp only at h
    cases hopen : openFile fs ((PathBuf.empty.push lib).push p) with
    | ok r =>
      rw [hopen] at h
      cases h
      exact ⟨openFile_ok hopen, lib, List.mem_cons_self, rfl⟩
    | error e =>
      rw [hopen] at h
      cases hrest : findFile fs p libs with
      | error es => rw [hrest] at h; cases h
      | ok r =>
        rw [hrest] at h
        cases h
        obtain ⟨hread, lib', hlib', hx⟩ := ih hrest
        exact ⟨hread, lib', List.mem_cons_of_mem _ hlib', hx⟩

namespace Setting

variable {M D : Type} (self : Setting M D)

/-- The place at which an include is found from a directory. -/
def resolve (directory : PathBuf) (name : String) : Option PathBuf :=
  FileStack.findInclude self.fs name (directory :: self.linkLibraries)

/-- The file that the parser reads for a path that it takes. -/
def fileOf (p : PathBuf) : Option PathBuf :=
  match findFile self.fs p self.extLinkLibraries with
  | .ok found => self.fs.canonicalize found.crrStrFile
  | .error _ => none

/-- What the parser makes of a file. -/
def parsed (f : PathBuf) : Option (AST M D) := do
  let text ← self.fs.readToString f
  (self.parseFile text).toOption

def includesOf (f : PathBuf) : List String :=
  match self.parsed f with
  | some ast => ast.includes
  | none => []

/-- The file `f` includes the file `g`. -/
def Includes (f g : PathBuf) : Prop := ∃ name ∈ self.includesOf f, self.resolve f.pop name = some g

/-- The path `p` is opened as `x`, and the text of the file is parsed. -/
def Opens (p x : PathBuf) (ast : AST M D) : Prop :=
  ∃ found, findFile self.fs p self.extLinkLibraries = .ok found ∧ found.crrStrFile = x ∧
    self.parseFile found.src = .ok ast

variable {self}

theorem mem_files_of_resolve {directory : PathBuf} (h : self.resolve directory name = some g) :
    g ∈ self.fs.files := FileStack.mem_files_of_findInclude h

/-- An opened path names the file, and its text is that of the file. -/
theorem Opens.file {ast : AST M D} (h : self.Opens p x ast) :
    ∃ f ∈ self.fs.files, self.fileOf p = some f ∧ self.fs.canonicalize x = some f ∧ self.parsed f = some ast := by
  obtain ⟨found, hfound, rfl, hast⟩ := h
  have hread := (findFile_ok hfound).1
  obtain ⟨f, hf, hmem⟩ := FileSystem.exists_file_of_read hread
  refine ⟨f, hmem, ?_, hf, ?_⟩
  · unfold fileOf
    rw [hfound]
    exact hf
  · unfold parsed
    rw [FileSystem.readToString_canonical hf, hread]
    show (self.parseFile found.src).toOption = some ast
    rw [hast]
    rfl

/-- A canonical path is opened as it is. -/
theorem Opens.eq_of_mem {ast : AST M D} (h : self.Opens p x ast) (hp : p ∈ self.fs.files) : x = p := by
  obtain ⟨found, hfound, rfl, _⟩ := h
  obtain ⟨lib, _, hx⟩ := (findFile_ok hfound).2
  rw [hx, PathBuf.push_absolute (FileSystem.absolute_of_mem hp)]

/-- A canonical path is the path of its own file. -/
theorem fileOf_of_mem (hp : p ∈ self.fs.files) (h : self.fileOf p = some f) : f = p := by
  unfold fileOf at h
  cases hfound : findFile self.fs p self.extLinkLibraries with
  | error es => rw [hfound] at h; cases h
  | ok found =>
    rw [hfound] at h
    obtain ⟨lib, _, hx⟩ := (findFile_ok hfound).2
    rw [PathBuf.push_absolute (FileSystem.absolute_of_mem hp)] at hx
    dsimp only at h
    rw [hx, FileSystem.canonicalize_of_mem hp] at h
    exact (Option.some.inj h).symm

theorem includesOf_eq {ast : AST M D} (h : self.parsed f = some ast) : self.includesOf f = ast.includes := by
  unfold includesOf
  rw [h]

/-! ## One round of the loop -/

/-- What the loop over the includes does to the stack and to the graph. -/
theorem addIncludes_spec {s : FileStack} {graph graph' : IncludesGraph} {names : List String} {paths : List PathBuf}
    (h : self.addIncludes s graph names = .ok (paths, s', graph')) :
    paths.map some = names.map (self.resolve s.currentLocation) ∧ s'.blackPaths = s.blackPaths ∧
      ∀ q, q ∈ s.blackPaths ∨ q ∈ s'.stack ↔ q ∈ s.blackPaths ∨ q ∈ s.stack ∨ q ∈ paths := by
  induction names generalizing s graph paths with
  | nil =>
    cases h
    simp
  | cons name names ih =>
    unfold addIncludes at h
    obtain ⟨⟨s₁, g⟩, hadd, h⟩ := Lib.bind_eq_ok h
    obtain ⟨graph₁, hedge, h⟩ := Lib.bind_eq_ok h
    obtain ⟨⟨gs, s₂, graph₂⟩, hrest, h⟩ := Lib.bind_eq_ok h
    cases h
    obtain ⟨hfind, hloc, hblack, hall⟩ := FileStack.addInclude_spec hadd
    obtain ⟨hpaths, hblack', hall'⟩ := ih hrest
    rw [hloc] at hpaths
    rw [hblack] at hblack' hall'
    refine ⟨?_, hblack', fun q => (hall' q).trans ?_⟩
    · rw [List.map_cons, List.map_cons, hpaths]
      exact congrArg (· :: _) hfind.symm
    · have := hall q
      rw [List.mem_cons]
      tauto

theorem mapError_eq_ok {α ε ε' : Type} {f : ε → ε'} {x : Except ε α} {a : α} (h : x.mapError f = .ok a) :
    x = .ok a := by
  cases x with
  | error e => cases h
  | ok b => cases h; rfl

/-- A round of the loop opens a file and adds its includes. -/
theorem parseNext_spec {st st' : LoopState M D} (h : self.parseNext p st = .ok (st', gs)) :
    ∃ x ast, self.Opens p x ast ∧
      self.addIncludes st.fileStack (st.includesGraph.addNode x ast.customGates ast.customGatesDeclared) ast.includes =
        .ok (gs, st'.fileStack, st'.includesGraph) := by
  unfold parseNext at h
  obtain ⟨found, hfound, h⟩ := Lib.bind_eq_ok h
  obtain ⟨ast, hast, h⟩ := Lib.bind_eq_ok h
  dsimp only at h
  obtain ⟨⟨paths, s, graph⟩, hadd, h⟩ := Lib.bind_eq_ok h
  dsimp only at h
  obtain ⟨ws, -, h⟩ := Lib.bind_eq_ok h
  refine ⟨found.crrStrFile, ast, ⟨found, mapError_eq_ok hfound, rfl, mapError_eq_ok hast⟩, ?_⟩
  split_ifs at h with hgates
  · obtain ⟨-, -, h⟩ := Lib.bind_eq_ok h
    cases h
    exact mapError_eq_ok hadd
  · cases h
    exact mapError_eq_ok hadd

/-! ## Runs of the loop -/

/-- The rounds have brought the loop to its end with the property `P`. A run that stops with a report has taken one
more path. -/
def Ends (P : List Entry → LoopState M D → Prop) (taken : List Entry) :
    Except (FileLibrary × ReportCollection) (LoopState M D) → Prop
  | .ok st => P taken st ∧ st.fileStack.takeNext = none
  | .error _ => ∃ taken' p st fileStack, taken = taken' ++ [(p, [])] ∧ P taken' st ∧
      st.fileStack.takeNext = some (p, fileStack)

/-- What every round keeps holds at the end. -/
theorem parseLoop_induction {P : List Entry → LoopState M D → Prop}
    (hstep : ∀ ⦃trace st p fileStack st' gs⦄, P trace st → st.fileStack.takeNext = some (p, fileStack) → self.parseNext p { st with fileStack := fileStack } = .ok (st', gs) → P (trace ++ [(p, gs)]) st')
    {n : ℕ} {taken : List Entry} {st : LoopState M D} {result} (h : P trace st)
    (hrun : self.parseLoop n st = some (taken, result)) : Ends P (trace ++ taken) result := by
  induction n generalizing trace taken st with
  | zero => cases hrun
  | succ n ih =>
    unfold parseLoop at hrun
    cases hnext : st.fileStack.takeNext with
    | none =>
      rw [hnext] at hrun
      cases hrun
      rw [List.append_nil]
      exact ⟨h, hnext⟩
    | some r =>
      obtain ⟨p, fileStack⟩ := r
      rw [hnext] at hrun
      dsimp only at hrun
      cases hparse : self.parseNext p { st with fileStack := fileStack } with
      | error e =>
        rw [hparse] at hrun
        cases hrun
        exact ⟨trace, p, st, fileStack, rfl, h, hnext⟩
      | ok r =>
        obtain ⟨st₁, gs⟩ := r
        rw [hparse] at hrun
        obtain ⟨⟨rest, result'⟩, hrest, heq⟩ := Option.map_eq_some_iff.mp hrun
        cases heq
        have hend := ih (hstep h hnext hparse) hrest
        rw [List.append_assoc] at hend
        exact hend

/-- The state after some rounds: the paths that were taken are different, each was opened and its includes were
looked up from its directory, and all of these paths have been taken or wait in the stack. -/
structure Running (setting : Setting M D) (file : PathBuf) (trace : List Entry) (st : LoopState M D) : Prop where
  black : ∀ p, p ∈ st.fileStack.blackPaths ↔ p ∈ trace.map Prod.fst
  nodup : (trace.map Prod.fst).Nodup
  entries : ∀ e ∈ trace, ∃ x ast, setting.Opens e.1 x ast ∧
    e.2.map some = ast.includes.map (setting.resolve e.1.pop)
  closed : ∀ q, q ∈ st.fileStack.blackPaths ∨ q ∈ st.fileStack.stack ↔ q = file ∨ ∃ e ∈ trace, q ∈ e.2

theorem running_start (file : PathBuf) : self.Running file [] (start file) where
  black p := by
    show p ∈ (∅ : Finset PathBuf) ↔ p ∈ []
    simp
  nodup := List.nodup_nil
  entries e he := by cases he
  closed q := by
    show q ∈ (∅ : Finset PathBuf) ∨ q ∈ [file] ↔ q = file ∨ ∃ e ∈ ([] : List Entry), q ∈ e.2
    simp

theorem Running.step {file : PathBuf} {st st' : LoopState M D} {fileStack : FileStack} (h : self.Running file trace st)
    (hnext : st.fileStack.takeNext = some (p, fileStack))
    (hparse : self.parseNext p { st with fileStack := fileStack } = .ok (st', gs)) :
    self.Running file (trace ++ [(p, gs)]) st' := by
  obtain ⟨hp, hstack, hloc, hblack, hall⟩ := FileStack.takeNextLoop_some hnext
  obtain ⟨x, ast, hopens, hadd⟩ := parseNext_spec hparse
  obtain ⟨hgs, hblack', hall'⟩ := addIncludes_spec hadd
  dsimp only at hgs hblack' hall'
  rw [hloc] at hgs
  have hnew : p ∉ trace.map Prod.fst := fun hmem => hp ((h.black p).mpr hmem)
  refine ⟨fun q => ?_, ?_, fun e he => ?_, fun q => ?_⟩
  · rw [hblack', hblack, Finset.mem_insert, h.black q, List.map_append, List.mem_append, or_comm]
    exact or_congr_right List.mem_singleton.symm
  · rw [List.map_append]
    exact List.nodup_append.mpr ⟨h.nodup, List.nodup_singleton p, fun a ha b hb => by
      rintro rfl
      cases List.mem_singleton.mp hb
      exact hnew ha⟩
  · rcases List.mem_append.mp he with he | he
    · exact h.entries e he
    · cases List.mem_singleton.mp he
      exact ⟨x, ast, hopens, hgs⟩
  · rw [hblack']
    calc q ∈ fileStack.blackPaths ∨ q ∈ st'.fileStack.stack
        ↔ (q ∈ fileStack.blackPaths ∨ q ∈ fileStack.stack) ∨ q ∈ gs := by rw [hall' q, or_assoc]
      _ ↔ (q = file ∨ ∃ e ∈ trace, q ∈ e.2) ∨ q ∈ gs := or_congr_left ((hall q).trans (h.closed q))
      _ ↔ q = file ∨ ∃ e ∈ trace ++ [(p, gs)], q ∈ e.2 := by simp only [List.mem_append, List.mem_singleton,
          or_and_right, exists_or, exists_eq_left, or_assoc]

/-! ## The loop ends -/

variable (self) in
/-- The paths that the loop can take. -/
def candidates (file : PathBuf) : Finset PathBuf := insert file self.fs.files.keys.toFinset

theorem mem_candidates {file q : PathBuf} : q ∈ self.candidates file ↔ q = file ∨ q ∈ self.fs.files := by
  unfold candidates
  rw [Finset.mem_insert, List.mem_toFinset, AList.mem_keys]

theorem card_candidates_le (file : PathBuf) : (self.candidates file).card ≤ self.fs.files.len + 1 := by
  refine (Finset.card_insert_le _ _).trans (Nat.succ_le_succ ((List.toFinset_card_le _).trans ?_))
  unfold AList.keys AList.len List.keys
  rw [List.length_map]

/-- What an entry includes is a file. -/
theorem Running.mem_files {file : PathBuf} {st : LoopState M D} (h : self.Running file trace st) (he : e ∈ trace)
    (hg : g ∈ e.2) : g ∈ self.fs.files := by
  obtain ⟨x, ast, -, hgs⟩ := h.entries e he
  have hsome : some g ∈ e.2.map some := List.mem_map_of_mem hg
  rw [hgs] at hsome
  obtain ⟨name, -, hname⟩ := List.mem_map.mp hsome
  exact mem_files_of_resolve hname

theorem Running.mem_candidates {file q : PathBuf} {st : LoopState M D} (h : self.Running file trace st)
    (hq : q ∈ st.fileStack.blackPaths ∨ q ∈ st.fileStack.stack) : q ∈ self.candidates file := by
  refine Setting.mem_candidates.mpr (((h.closed q).mp hq).imp_right ?_)
  rintro ⟨e, he, hqe⟩
  exact h.mem_files he hqe

/-- The number of paths that were not taken yet goes down in each round. -/
theorem parseLoop_returns {file : PathBuf} (k : ℕ) {st : LoopState M D} (h : self.Running file trace st)
    (hk : (self.candidates file \ st.fileStack.blackPaths).card ≤ k) :
    ∃ r, ∀ n, k < n → self.parseLoop n st = some r := by
  induction k generalizing trace st with
  | zero =>
    cases hnext : st.fileStack.takeNext with
    | none =>
      refine ⟨([], .ok st), fun n hn => ?_⟩
      obtain ⟨n, rfl⟩ := Nat.exists_eq_succ_of_ne_zero (Nat.ne_zero_of_lt hn)
      unfold parseLoop
      rw [hnext]
    | some r =>
      obtain ⟨hp, hstack, -⟩ := FileStack.takeNextLoop_some hnext
      have hmem : r.1 ∈ self.candidates file \ st.fileStack.blackPaths :=
        Finset.mem_sdiff.mpr ⟨h.mem_candidates (Or.inr hstack), hp⟩
      rw [Finset.card_eq_zero.mp (Nat.le_zero.mp hk)] at hmem
      cases hmem
  | succ k ih =>
    cases hnext : st.fileStack.takeNext with
    | none =>
      refine ⟨([], .ok st), fun n hn => ?_⟩
      obtain ⟨n, rfl⟩ := Nat.exists_eq_succ_of_ne_zero (Nat.ne_zero_of_lt hn)
      unfold parseLoop
      rw [hnext]
    | some r =>
      obtain ⟨p, fileStack⟩ := r
      obtain ⟨hp, hstack, -, hblack, -⟩ := FileStack.takeNextLoop_some hnext
      cases hparse : self.parseNext p { st with fileStack := fileStack } with
      | error e =>
        refine ⟨([(p, [])], .error e), fun n hn => ?_⟩
        obtain ⟨n, rfl⟩ := Nat.exists_eq_succ_of_ne_zero (Nat.ne_zero_of_lt hn)
        unfold parseLoop
        rw [hnext]
        dsimp only
        rw [hparse]
      | ok r =>
        obtain ⟨st', gs⟩ := r
        obtain ⟨x, ast, -, hadd⟩ := parseNext_spec hparse
        have hblack' : st'.fileStack.blackPaths = insert p st.fileStack.blackPaths :=
          (addIncludes_spec hadd).2.1.trans hblack
        have hlt : (self.candidates file \ st'.fileStack.blackPaths).card <
            (self.candidates file \ st.fileStack.blackPaths).card := by
          rw [hblack']
          refine Finset.card_lt_card ⟨Finset.sdiff_subset_sdiff (Finset.Subset.refl _) (Finset.subset_insert _ _),
            fun hsub => ?_⟩
          have hmem := hsub (Finset.mem_sdiff.mpr ⟨h.mem_candidates (Or.inr hstack), hp⟩)
          exact (Finset.mem_sdiff.mp hmem).2 (Finset.mem_insert_self _ _)
        obtain ⟨r, hr⟩ := ih (h.step hnext hparse) (by omega)
        refine ⟨((p, gs) :: r.1, r.2), fun n hn => ?_⟩
        obtain ⟨n, rfl⟩ := Nat.exists_eq_succ_of_ne_zero (Nat.ne_zero_of_lt hn)
        unfold parseLoop
        rw [hnext]
        dsimp only
        rw [hparse]
        show (self.parseLoop n st').map _ = _
        rw [hr n (by omega)]
        rfl

/-! ## Every file once -/

variable (self) in
/-- The includes of the main file are found from the directory of its path as from that of the file. -/
def FindsIncludes (file : PathBuf) : Prop :=
  ∀ main, self.fileOf file = some main →
    ∀ name ∈ self.includesOf main, self.resolve file.pop name = self.resolve main.pop name

variable (self) in
/-- The path of the main file is the canonical one unless the file does not include itself, directly or through other
files. -/
def NamesItsFile (file : PathBuf) : Prop :=
  self.FindsIncludes file ∧
    ∀ main, self.fileOf file = some main → file = main ∨ ¬TransGen self.Includes main main

/-- Only the main file and what it includes is taken, and no file twice. -/
structure ReadsIncluded (setting : Setting M D) (file : PathBuf) (taken : List Entry) : Prop where
  /-- No file is read twice. -/
  once : (taken.filterMap fun e => setting.fileOf e.1).Nodup
  /-- What is read is the main file or included, directly or through other files. -/
  reachable : ∀ e ∈ taken, ∀ f, setting.fileOf e.1 = some f →
    ∃ main, setting.fileOf file = some main ∧ ReflTransGen setting.Includes main f

/-- All that the main file includes is taken, and every include is looked up from the directory of the file that
contains it. -/
structure ReadsAll (setting : Setting M D) (file : PathBuf) (taken : List Entry) : Prop
    extends ReadsIncluded setting file taken where
  /-- Every file that is included is read. -/
  all : ∀ main f, setting.fileOf file = some main → ReflTransGen setting.Includes main f →
    f ∈ taken.filterMap fun e => setting.fileOf e.1
  /-- An include is looked up next to the file that contains it. -/
  relative : ∀ e ∈ taken, ∀ f, setting.fileOf e.1 = some f →
    e.2.map some = (setting.includesOf f).map (setting.resolve f.pop)

variable (self) in
/-- The path is that of a file that the main file includes, directly or through other files. -/
def Included (file g : PathBuf) : Prop :=
  g ∈ self.fs.files ∧ ∃ main, self.fileOf file = some main ∧ TransGen self.Includes main g

/-- The state after some rounds, when only included files were taken. -/
def RunningIncluded (setting : Setting M D) (file : PathBuf) (trace : List Entry) (st : LoopState M D) : Prop :=
  setting.Running file trace st ∧ ∀ e ∈ trace, ∀ g ∈ e.2, setting.Included file g

theorem Running.included_step {file : PathBuf} {st st' : LoopState M D} {fileStack : FileStack}
    (h : self.Running file trace st) (hfinds : self.FindsIncludes file)
    (hincluded : ∀ e ∈ trace, ∀ g ∈ e.2, self.Included file g) (hnext : st.fileStack.takeNext = some (p, fileStack))
    (hparse : self.parseNext p { st with fileStack := fileStack } = .ok (st', gs)) :
    ∀ e ∈ trace ++ [(p, gs)], ∀ g ∈ e.2, self.Included file g := by
  have hstep := h.step hnext hparse
  intro e he g hg
  rcases List.mem_append.mp he with he | he
  · exact hincluded e he g hg
  have hfile := hstep.mem_files (List.mem_append_right _ he) hg
  obtain ⟨x, ast, hopens, hgs⟩ := hstep.entries e (List.mem_append_right _ he)
  cases List.mem_singleton.mp he
  obtain ⟨f, -, hfileOf, -, hparsed⟩ := hopens.file
  have hsome : some g ∈ gs.map some := List.mem_map_of_mem hg
  rw [hgs] at hsome
  obtain ⟨name, hname, hresolve⟩ := List.mem_map.mp hsome
  have hname' : name ∈ self.includesOf f := by
    rw [includesOf_eq hparsed]
    exact hname
  have hstack := (FileStack.takeNextLoop_some hnext).2.1
  rcases (h.closed p).mp (Or.inr hstack) with rfl | ⟨e', he', hp⟩
  · refine ⟨hfile, f, hfileOf, TransGen.single ⟨name, hname', ?_⟩⟩
    rw [← hfinds f hfileOf name hname']
    exact hresolve
  · obtain ⟨hmem, main, hmain, htrans⟩ := hincluded e' he' p hp
    obtain rfl := fileOf_of_mem hmem hfileOf
    exact ⟨hfile, main, hmain, htrans.tail ⟨name, hname', hresolve⟩⟩

/-- The file of the main path, or one that it includes. -/
theorem reachable_of_included {file : PathBuf} (h : p = file ∨ self.Included file p)
    (hf : self.fileOf p = some f) : ∃ main, self.fileOf file = some main ∧ ReflTransGen self.Includes main f := by
  rcases h with rfl | ⟨hmem, main, hmain, htrans⟩
  · exact ⟨f, hf, ReflTransGen.refl⟩
  · obtain rfl := fileOf_of_mem hmem hf
    exact ⟨main, hmain, htrans.to_reflTransGen⟩

theorem readsIncluded {file : PathBuf} {taken : List Entry} (hnames : self.NamesItsFile file)
    (hnodup : (taken.map Prod.fst).Nodup) (hpaths : ∀ e ∈ taken, e.1 = file ∨ self.Included file e.1) :
    self.ReadsIncluded file taken := by
  refine ⟨?_, fun e he f hf => ?_⟩
  · refine List.pairwise_filterMap.mpr ((List.pairwise_map.mp hnodup).imp_of_mem ?_)
    rintro a b ha hb hne f hf _ hf' rfl
    rcases hpaths a ha with hfile | ⟨hmem, main, hmain, htrans⟩
    · rcases hpaths b hb with hfile' | ⟨hmem', main, hmain, htrans⟩
      · exact hne (hfile.trans hfile'.symm)
      · -- The file of the main path is taken under its canonical path as well.
        obtain rfl := fileOf_of_mem hmem' hf'
        rw [hfile] at hf
        cases hf.symm.trans hmain
        exact (hnames.2 _ hmain).elim (fun heq => hne (hfile.trans heq)) fun hno => hno htrans
    · obtain rfl := fileOf_of_mem hmem hf
      rcases hpaths b hb with hfile' | ⟨hmem', -⟩
      · rw [hfile'] at hf'
        cases hf'.symm.trans hmain
        exact (hnames.2 _ hmain).elim (fun heq => hne (hfile'.trans heq).symm) fun hno => hno htrans
      · exact hne (fileOf_of_mem hmem' hf')
  · exact reachable_of_included (hpaths e he) hf

/-- At the end of the loop every path that was included has been taken. -/
theorem Running.taken {file : PathBuf} {st : LoopState M D} (h : self.Running file trace st)
    (hend : st.fileStack.takeNext = none) (hg : g = file ∨ ∃ e ∈ trace, g ∈ e.2) : ∃ e ∈ trace, e.1 = g := by
  have hblack : g ∈ st.fileStack.blackPaths :=
    ((h.closed g).mpr hg).elim id (FileStack.takeNextLoop_none hend g)
  obtain ⟨e, he, rfl⟩ := List.mem_map.mp ((h.black g).mp hblack)
  exact ⟨e, he, rfl⟩

theorem mem_files_of_trans (h : TransGen self.Includes f g) : g ∈ self.fs.files := by
  cases h with
  | single hfg => exact mem_files_of_resolve hfg.choose_spec.2
  | tail _ hfg => exact mem_files_of_resolve hfg.choose_spec.2

/-- A path that was taken has a file. -/
theorem Running.exists_file {file : PathBuf} {st : LoopState M D} (h : self.Running file trace st) (he : e ∈ trace) :
    ∃ f, self.fileOf e.1 = some f ∧ (e.1 ∈ self.fs.files → f = e.1) ∧
      e.2.map some = (self.includesOf f).map (self.resolve e.1.pop) := by
  obtain ⟨x, ast, hopens, hgs⟩ := h.entries e he
  obtain ⟨f, -, hf, -, hparsed⟩ := hopens.file
  rw [← includesOf_eq hparsed] at hgs
  exact ⟨f, hf, fun hmem => fileOf_of_mem hmem hf, hgs⟩

/-- The includes are looked up from the directories of the files. -/
theorem Running.relative {file : PathBuf} {st : LoopState M D} (h : self.Running file trace st)
    (hfinds : self.FindsIncludes file) :
    ∀ e ∈ trace, ∀ f, self.fileOf e.1 = some f →
      e.2.map some = (self.includesOf f).map (self.resolve f.pop) := by
  intro e he f hf
  obtain ⟨f', hf', hcanonical, hgs⟩ := h.exists_file he
  cases hf.symm.trans hf'
  rw [hgs]
  rcases (h.closed e.1).mp (Or.inl ((h.black e.1).mpr (List.mem_map_of_mem he))) with hfile | ⟨e', he', hmem⟩
  · rw [hfile] at hf ⊢
    exact List.map_congr_left (hfinds f hf)
  · rw [hcanonical (h.mem_files he' hmem)]

/-- One file is not taken under two paths. -/
theorem ReadsIncluded.unique {file : PathBuf} {taken : List Entry} (h : self.ReadsIncluded file taken) {e' : Entry}
    (he : e ∈ taken) (he' : e' ∈ taken) (hf : self.fileOf e.1 = some f) (hf' : self.fileOf e'.1 = some f) : e = e' := by
  by_contra hne
  have hpairs := List.pairwise_filterMap.mp h.once
  have hsymm : Std.Symm fun a a' : Entry =>
      ∀ b, self.fileOf a.1 = some b → ∀ b', self.fileOf a'.1 = some b' → b ≠ b' :=
    ⟨fun a a' h b hb b' hb' => (h b' hb' b hb).symm⟩
  exact hpairs.forall he he' hne f hf f hf' rfl

/-- What a file includes is taken under its canonical path when the includes are looked up from the directories of
the files. -/
theorem Running.taken_of_trans {file main : PathBuf} {st : LoopState M D} (h : self.Running file trace st)
    (hend : st.fileStack.takeNext = none)
    (hrelative : ∀ e ∈ trace, ∀ f, self.fileOf e.1 = some f → e.2.map some = (self.includesOf f).map (self.resolve f.pop))
    (hmain : self.fileOf file = some main) (hg : TransGen self.Includes main g) : ∃ e ∈ trace, e.1 = g := by
  have hstep : ∀ e ∈ trace, ∀ f g, self.fileOf e.1 = some f → self.Includes f g → ∃ e ∈ trace, e.1 = g := by
    rintro e he f g hf ⟨name, hname, hresolve⟩
    have hmem : some g ∈ e.2.map some := by
      rw [hrelative e he f hf]
      exact List.mem_map.mpr ⟨name, hname, hresolve⟩
    obtain ⟨g', hg, heq⟩ := List.mem_map.mp hmem
    cases heq
    exact h.taken hend (Or.inr ⟨e, he, hg⟩)
  induction hg with
  | single hfg =>
    obtain ⟨e, he, rfl⟩ := h.taken hend (Or.inl rfl)
    exact hstep e he main _ hmain hfg
  | @tail f g hf hfg ih =>
    obtain ⟨e, he, heq⟩ := ih
    obtain ⟨f', hfileOf, hcanonical, -⟩ := h.exists_file he
    rw [hcanonical (heq ▸ mem_files_of_trans hf), heq] at hfileOf
    exact hstep e he f g (heq ▸ hfileOf) hfg

theorem RunningIncluded.included {file : PathBuf} {st : LoopState M D} (h : self.RunningIncluded file trace st)
    (hp : p ∈ st.fileStack.blackPaths ∨ p ∈ st.fileStack.stack) : p = file ∨ self.Included file p := by
  refine ((h.1.closed p).mp hp).imp_right ?_
  rintro ⟨e, he, hpe⟩
  exact h.2 e he p hpe

theorem RunningIncluded.included_of_mem {file : PathBuf} {st : LoopState M D} (h : self.RunningIncluded file trace st)
    (he : e ∈ trace) : e.1 = file ∨ self.Included file e.1 :=
  h.included (Or.inl ((h.1.black e.1).mpr (List.mem_map_of_mem he)))

theorem ends_runningIncluded {file : PathBuf} {n : ℕ} {taken : List Entry} {result}
    (hfinds : self.FindsIncludes file) (hrun : self.parseLoop n (start file) = some (taken, result)) :
    Ends (self.RunningIncluded file) taken result := by
  refine parseLoop_induction (P := self.RunningIncluded file) ?_
    ⟨self.running_start file, fun e he => by cases he⟩ hrun
  intro trace st p fileStack st' gs h hnext hparse
  exact ⟨h.1.step hnext hparse, h.1.included_step hfinds h.2 hnext hparse⟩

/-- What the loop has taken at its end. -/
theorem readsIncluded_of_ends {file : PathBuf} {taken : List Entry} {result} (hnames : self.NamesItsFile file)
    (hends : Ends (self.RunningIncluded file) taken result) : self.ReadsIncluded file taken := by
  cases result with
  | ok st =>
    obtain ⟨hrun, -⟩ := hends
    exact readsIncluded hnames hrun.1.nodup fun e he => hrun.included_of_mem he
  | error e =>
    obtain ⟨trace, p, st, fileStack, rfl, hrun, hnext⟩ := hends
    obtain ⟨hp, hstack, -⟩ := FileStack.takeNextLoop_some hnext
    refine readsIncluded hnames ?_ fun e he => ?_
    · rw [List.map_append]
      refine List.nodup_append.mpr ⟨hrun.1.nodup, List.nodup_singleton p, fun a ha b hb => ?_⟩
      rintro rfl
      cases List.mem_singleton.mp hb
      exact hp ((hrun.1.black p).mpr ha)
    · rcases List.mem_append.mp he with he | he
      · exact hrun.included_of_mem he
      · cases List.mem_singleton.mp he
        exact hrun.included (Or.inr hstack)

variable (self) in
/-- The loop ends for every file system. If it is not stopped by a report, it reads the main file and all that it
includes exactly once, and looks every include up from the directory of the file with it, if and only if the main
path names its file. -/
theorem parseLoop_readsAll_iff (file : PathBuf) :
    ∃ taken result, (∀ n, self.fs.files.len + 1 < n → self.parseLoop n (start file) = some (taken, result)) ∧
      (self.NamesItsFile file → self.ReadsIncluded file taken) ∧
        ∀ st, result = .ok st → (self.ReadsAll file taken ↔ self.NamesItsFile file) := by
  have hstart := self.running_start file
  obtain ⟨⟨taken, result⟩, hreturns⟩ := parseLoop_returns (self.fs.files.len + 1) hstart
    ((Finset.card_le_card Finset.sdiff_subset).trans (card_candidates_le file))
  have hincluded : self.NamesItsFile file → self.ReadsIncluded file taken := fun hnames =>
    readsIncluded_of_ends hnames (ends_runningIncluded hnames.1 (hreturns _ (Nat.lt_succ_self _)))
  refine ⟨taken, result, hreturns, hincluded, ?_⟩
  rintro st rfl
  obtain ⟨hrun, hend⟩ := parseLoop_induction (P := self.Running file)
    (fun trace st p fileStack st' gs h hnext hparse => h.step hnext hparse) hstart (hreturns _ (Nat.lt_succ_self _))
  rw [List.nil_append] at hrun
  refine ⟨fun hall => ?_, fun hnames => ?_⟩
  · obtain ⟨e, he, rfl⟩ := hrun.taken hend (Or.inl rfl)
    refine ⟨fun main hmain => ?_, fun main hmain => ?_⟩
    · obtain ⟨f, hf, -, hgs⟩ := hrun.exists_file he
      cases hf.symm.trans hmain
      exact List.map_inj_left.mp (hgs.symm.trans (hall.relative e he main hmain))
    · by_contra hno
      obtain ⟨hne, hcycle⟩ := not_or.mp hno
      -- The main file is taken under its canonical path, too.
      obtain ⟨e', he', rfl⟩ := hrun.taken_of_trans hend hall.relative hmain (not_not.mp hcycle)
      obtain ⟨f, hf, hcanonical, -⟩ := hrun.exists_file he'
      rw [hcanonical (mem_files_of_trans (not_not.mp hcycle))] at hf
      exact hne (congrArg Prod.fst (hall.toReadsIncluded.unique he he' hmain hf))
  · have hrelative := hrun.relative hnames.1
    refine ⟨hincluded hnames, fun main f hmain hreach => ?_, hrelative⟩
    rcases Relation.reflTransGen_iff_eq_or_transGen.mp hreach with rfl | htrans
    · obtain ⟨e, he, rfl⟩ := hrun.taken hend (Or.inl rfl)
      exact List.mem_filterMap.mpr ⟨e, he, hmain⟩
    · obtain ⟨e, he, rfl⟩ := hrun.taken_of_trans hend hrelative hmain htrans
      obtain ⟨f, hf, hcanonical, -⟩ := hrun.exists_file he
      rw [hcanonical (mem_files_of_trans htrans)] at hf
      exact List.mem_filterMap.mpr ⟨e, he, hf⟩

/-! ## A main file that is included -/

/-- The root directory as the working directory, with files and without links. -/
def rootDirectory (l : List (String × String)) : FileSystem :=
  let files : Lib.HashMap PathBuf (Option String) :=
    AList.ofPairs (l.map fun e => (⟨true, [.normal e.1]⟩, some e.2))
  have habsolute : ∀ p ∈ files, p.absolute = true := fun p hp => by
    obtain ⟨_, he, rfl⟩ := List.mem_map.mp (AList.mem_ofPairs.mp hp)
    obtain ⟨e, -, rfl⟩ := List.mem_map.mp he
    rfl
  { canonicalize := fun p =>
      if PathBuf.push ⟨true, []⟩ p ∈ files then some (PathBuf.push ⟨true, []⟩ p) else none
    files := files
    canonicalize_idem := fun p q hq => by
      split_ifs at hq with hmem
      cases hq
      rw [PathBuf.push_absolute (habsolute _ hmem), if_pos hmem]
    canonicalize_absolute := fun p q hq => by
      split_ifs at hq with hmem
      cases hq
      exact habsolute _ hmem
    canonicalize_files := fun p hp => by rw [PathBuf.push_absolute (habsolute p hp), if_pos hp] }

/-- Two files that include each other. -/
def cyclicIncludes : Setting Unit Unit where
  fs := rootDirectory [("a.circom", "a"), ("b.circom", "b")]
  parseFile text := .ok { includes := if text = "a" then ["b.circom"] else ["a.circom"], definitions := () }
  linkLibraries := []
  version := (2, 2, 3)

/-- With a relative main path the main file of the cycle is read twice, and the loop ends without a report. -/
theorem not_parseLoop_readsAll :
    ∃ taken, ((cyclicIncludes.parseLoop 4 (start (.ofString "a.circom"))).map fun r => (r.1, r.2.isOk)) =
        some (taken, true) ∧
      taken.map Prod.fst = [.ofString "a.circom", .ofString "/b.circom", .ofString "/a.circom"] ∧
      ¬cyclicIncludes.ReadsAll (.ofString "a.circom") taken := by
  refine ⟨[(.ofString "a.circom", [.ofString "/b.circom"]), (.ofString "/b.circom", [.ofString "/a.circom"]),
    (.ofString "/a.circom", [.ofString "/b.circom"])], by decide +kernel, rfl, fun h => ?_⟩
  have honce := h.once
  revert honce
  decide +kernel

end Setting

end Circom.Parser.IncludeLogic
