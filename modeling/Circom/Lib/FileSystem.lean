import Circom.Lib.HashMap

/-!
# Paths and files

Paths as the lists of their components, and a file system that is given by the files it has and by the canonical
paths: the canonical path of an existing file or directory is absolute and has no links, and two paths name the
same file when they have the same canonical path.
-/

namespace Circom.Lib

inductive Component where
  | curDir
  | parentDir
  | normal (name : String)
  deriving DecidableEq, Repr

/-- A path, compared by its components. The component `.` only stands at the start of a relative path. -/
structure PathBuf where
  absolute : Bool
  components : List Component
  deriving DecidableEq, Repr

namespace PathBuf

/-- The empty path. -/
def empty : PathBuf := ⟨false, []⟩

def ofText (text : List Char) : Component :=
  if text = ['.'] then .curDir else if text = ['.', '.'] then .parentDir else .normal (String.ofList text)

def ofString (s : String) : PathBuf :=
  let absolute := s.toList.head? = some '/'
  match ((s.toList.splitOn '/').filter (· ≠ [])).map ofText with
  | [] => ⟨absolute, []⟩
  | first :: rest =>
    let rest := rest.filter (· ≠ .curDir)
    ⟨absolute, if absolute && first = .curDir then rest else first :: rest⟩

/-- An absolute path replaces the path that it is pushed to. -/
def push (self path : PathBuf) : PathBuf :=
  if path.absolute then path
  else if self = empty then path
  else ⟨self.absolute, self.components ++ path.components.filter (· ≠ .curDir)⟩

/-- Leaves the last component out. -/
def pop (self : PathBuf) : PathBuf := { self with components := self.components.dropLast }

def displayComponent : Component → String
  | .curDir => "."
  | .parentDir => ".."
  | .normal name => name

def display (self : PathBuf) : String :=
  (if self.absolute then "/" else "") ++ "/".intercalate (self.components.map displayComponent)

@[simp] theorem push_absolute {self path : PathBuf} (h : path.absolute = true) : self.push path = path := by
  unfold push
  rw [if_pos h]

@[simp] theorem empty_push (path : PathBuf) : empty.push path = path := by
  unfold push
  by_cases h : path.absolute = true
  · rw [if_pos h]
  · rw [if_neg h, if_pos rfl]

end PathBuf

structure FileSystem where
  /-- The canonical path of an existing file or directory. -/
  canonicalize : PathBuf → Option PathBuf
  /-- The files under their canonical paths with what reading them gives; some cannot be read. -/
  files : HashMap PathBuf (Option String)
  canonicalize_idem : ∀ p q, canonicalize p = some q → canonicalize q = some q
  canonicalize_absolute : ∀ p q, canonicalize p = some q → q.absolute = true
  canonicalize_files : ∀ p ∈ files, canonicalize p = some p

namespace FileSystem

variable (fs : FileSystem)

def isFile (path : PathBuf) : Bool :=
  match fs.canonicalize path with
  | some q => q ∈ fs.files
  | none => false

def readToString (path : PathBuf) : Option String :=
  match fs.canonicalize path with
  | some q => (fs.files.lookup q).join
  | none => none

variable {fs}

theorem isFile_canonical {p q : PathBuf} (h : fs.canonicalize p = some q) : fs.isFile q = true ↔ q ∈ fs.files := by
  unfold isFile
  rw [fs.canonicalize_idem p q h]
  simp

theorem canonicalize_of_mem {p : PathBuf} (h : p ∈ fs.files) : fs.canonicalize p = some p :=
  fs.canonicalize_files p h

theorem absolute_of_mem {p : PathBuf} (h : p ∈ fs.files) : p.absolute = true :=
  fs.canonicalize_absolute p p (canonicalize_of_mem h)

/-- What is read only depends on the file that the path names. -/
theorem readToString_canonical {p q : PathBuf} (h : fs.canonicalize p = some q) :
    fs.readToString q = fs.readToString p := by
  unfold readToString
  rw [h, fs.canonicalize_idem p q h]

/-- What can be read is a file. -/
theorem exists_file_of_read {p : PathBuf} {text : String} (h : fs.readToString p = some text) :
    ∃ q, fs.canonicalize p = some q ∧ q ∈ fs.files := by
  unfold readToString at h
  cases hq : fs.canonicalize p with
  | none => rw [hq] at h; cases h
  | some q =>
    rw [hq] at h
    dsimp only at h
    refine ⟨q, rfl, ?_⟩
    by_contra hno
    rw [AList.lookup_eq_none.mpr hno] at h
    cases h

end FileSystem

end Circom.Lib
