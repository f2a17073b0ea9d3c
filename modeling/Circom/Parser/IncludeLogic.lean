import Circom.Lib.FileSystem

/-!
# Included files

`FileStack` and `IncludesGraph` of `include_logic`, and the loop of `run_parser` that reads the main file and the
files that it includes. What the parser makes of a text is a parameter; of its results only the parts appear that
the loop looks at.
-/

namespace Circom.Parser.IncludeLogic

open Circom.Lib (HashMap FileSystem PathBuf)

/-! ## Reports -/

inductive MessageCategory where
  | error
  | warning
  deriving DecidableEq, Repr

inductive ReportCode where
  | fileOs
  | includeNotFound
  | illegalExpression
  | compilerVersionError
  | noCompilerVersionWarning
  | customGatesVersionError
  | customGatesPragmaError
  deriving DecidableEq, Repr

structure Report where
  category : MessageCategory
  message : String
  code : ReportCode
  notes : List String := []
  deriving DecidableEq, Repr

abbrev ReportCollection := List Report

/-- `produce_report_with_message` for `FileOs`. -/
def fileOs (msg : String) : Report := ⟨.error, "Could not open file " ++ msg, .fileOs, []⟩

/-- `produce_report_with_message` for `IncludeNotFound`. -/
def includeNotFound (msg : String) : Report where
  category := .error
  message := " The file " ++ msg ++ " to be included has not been found"
  code := .includeNotFound
  notes := ["Consider using compilation option -l to indicate include paths"]

/-- `format!("{:?}", path)` of a path without characters to escape. -/
def debug (path : PathBuf) : String := "\"" ++ path.display ++ "\""

/-! ## The stack of files -/

structure FileStack where
  currentLocation : PathBuf
  blackPaths : Finset PathBuf
  /-- The top first. -/
  stack : List PathBuf

namespace FileStack

def new (src : PathBuf) : FileStack := ⟨src.pop, ∅, [src]⟩

/-- The loop over the places: the first one that has the file. -/
def findInclude (fs : FileSystem) (name : String) : List PathBuf → Option PathBuf
  | [] => none
  | lib :: libs =>
    match fs.canonicalize ((PathBuf.empty.push lib).push (PathBuf.ofString name)) with
    | none => findInclude fs name libs
    | some path => if fs.isFile path then some path else findInclude fs name libs

/-- The source returns the text of the path, of which `add_edge` makes the path again. -/
def addInclude (fs : FileSystem) (fStack : FileStack) (name : String) (libraries : List PathBuf) :
    Except Report (FileStack × PathBuf) :=
  match findInclude fs name (fStack.currentLocation :: libraries) with
  | some path =>
    .ok (if path ∈ fStack.blackPaths then fStack else { fStack with stack := path :: fStack.stack }, path)
  | none => .error (includeNotFound name)

def takeNextLoop (location : PathBuf) (blackPaths : Finset PathBuf) : List PathBuf → Option (PathBuf × FileStack)
  | [] => none
  | file :: stack =>
    if file ∈ blackPaths then takeNextLoop location blackPaths stack
    else some (file, ⟨file.pop, insert file blackPaths, stack⟩)

def takeNext (fStack : FileStack) : Option (PathBuf × FileStack) :=
  takeNextLoop fStack.currentLocation fStack.blackPaths fStack.stack

end FileStack

/-! ## The graph of includes -/

structure IncludesNode where
  path : PathBuf
  customGatesPragma : Bool

structure IncludesGraph where
  nodes : List IncludesNode := []
  adjacency : HashMap PathBuf (List ℕ) := ∅
  customGatesNodes : List ℕ := []

namespace IncludesGraph

def addNode (self : IncludesGraph) (path : PathBuf) (customGatesPragma customGatesUsage : Bool) : IncludesGraph :=
  { self with
    nodes := self.nodes ++ [⟨path, customGatesPragma⟩]
    customGatesNodes :=
      if customGatesUsage then self.customGatesNodes ++ [self.nodes.length] else self.customGatesNodes }

/-- An edge from the file to the node that was added last. -/
def addEdge (fs : FileSystem) (self : IncludesGraph) (oldPath : PathBuf) : Except Report IncludesGraph :=
  match fs.canonicalize oldPath with
  | none => .error (fileOs oldPath.display)
  | some path =>
    .ok { self with
      adjacency :=
        self.adjacency.insert path ((self.adjacency.lookup path).getD [] ++ [self.nodes.length - 1]) }

/-- The edges from a path, `adjacency.get`. -/
def edges (self : IncludesGraph) (path : PathBuf) : List ℕ := (self.adjacency.lookup path).getD []

/-- The branches of a traversal that has come to a node: those to the nodes `target` over an edge that is new. -/
def traverseEdges (next : ℕ → Finset (ℕ × ℕ) → Option (List (List PathBuf))) (start : ℕ)
    (traversedEdges : Finset (ℕ × ℕ)) : List ℕ → Option (List (List PathBuf))
  | [] => some []
  | target :: rest =>
    if (start, target) ∈ traversedEdges then traverseEdges next start traversedEdges rest
    else do
      let paths ← next target (insert (start, target) traversedEdges)
      return paths ++ (← traverseEdges next start traversedEdges rest)

/-- The recursion has as much depth as there is fuel. -/
def traverse (self : IncludesGraph) : ℕ → ℕ → List PathBuf → Finset (ℕ × ℕ) → Option (List (List PathBuf))
  | 0, _, _, _ => none
  | fuel + 1, start, path, traversedEdges => do
    let node ← self.nodes[start]?
    let newPath := path ++ [node.path]
    let problematicPaths := if node.customGatesPragma then [] else [newPath]
    let further ← traverseEdges (fun target edges => self.traverse fuel target newPath edges) start traversedEdges
      (self.edges node.path)
    return problematicPaths ++ further

def getProblematicPaths (self : IncludesGraph) (fuel : ℕ) : Option (List (List PathBuf)) := do
  let paths ← self.customGatesNodes.mapM fun start => self.traverse fuel start [] ∅
  return paths.flatten

/-- The text after the last `/` of a path. -/
def lastPiece (text : String) : String := String.ofList ((text.toList.splitOn '/').getLastD [])

def displayPath (path : List PathBuf) : String := " -> ".intercalate (path.map fun file => lastPiece file.display)

end IncludesGraph

/-! ## The loop of the parser -/

abbrev Version := ℕ × ℕ × ℕ

def Version.pretty (v : Version) : String := toString v.1 ++ "." ++ toString v.2.1 ++ "." ++ toString v.2.2

/-- The result of `parse_file`, with main components of type `M` and definitions of type `D`. -/
structure AST (M D : Type) where
  compilerVersion : Option Version := none
  customGates : Bool := false
  customGatesDeclared : Bool := false
  includes : List String
  definitions : D
  mainComponent : Option M := none

abbrev FileLibrary := List (String × String)

def FileLibrary.new : FileLibrary := [("<generated>", "")]

def FileLibrary.addFile (library : FileLibrary) (path src : String) : FileLibrary × ℕ :=
  (library ++ [(path, src)], library.length)

def openFile (fs : FileSystem) (path : PathBuf) : Except Report (String × String) :=
  match fs.readToString path with
  | some contents => .ok (debug path, contents)
  | none => .error (fileOs (debug path))

structure FoundFile where
  path : String
  src : String
  crrStrFile : PathBuf

/-- The first of the libraries in which the file opens, or the reports of all of them. -/
def findFile (fs : FileSystem) (crrFile : PathBuf) : List PathBuf → Except ReportCollection FoundFile
  | [] => .error []
  | lib :: libs =>
    let crrStrFile := (PathBuf.empty.push lib).push crrFile
    match openFile fs crrStrFile with
    | .ok (path, src) => .ok ⟨path, src, crrStrFile⟩
    | .error e => (findFile fs crrFile libs).mapError (e :: ·)

/-- `version` is at most the version of the compiler, with the same first number. -/
def checkNumberVersion (filePath : String) (versionFile : Option Version) (versionCompiler : Version) :
    Except Report ReportCollection :=
  match versionFile with
  | some required =>
    if required.1 = versionCompiler.1 ∧ (required.2.1 < versionCompiler.2.1 ∨
        (required.2.1 = versionCompiler.2.1 ∧ required.2.2 ≤ versionCompiler.2.2)) then
      .ok []
    else
      .error ⟨.error, "File " ++ filePath ++ " requires pragma version " ++ Version.pretty required ++
        " that is not supported by the compiler (version " ++ Version.pretty versionCompiler ++ ")",
        .compilerVersionError, []⟩
  | none =>
    .ok [⟨.warning, "File " ++ filePath ++ " does not include pragma version. Assuming pragma version " ++
      Version.pretty versionCompiler, .noCompilerVersionWarning,
      ["At the beginning of file " ++ filePath ++ ", you should add the directive \"pragma circom <Version>\", to " ++
        "indicate which compiler version you are using."]⟩]

def customGatesVersion : Version := (2, 0, 6)

def Version.below (v w : Version) : Bool :=
  v.1 < w.1 || (v.1 = w.1 && v.2.1 < w.2.1) || (v.1 = w.1 && v.2.1 = w.2.1 && v.2.2 < w.2.2)

def checkCustomGatesVersion (filePath : String) (versionFile : Option Version) (versionCompiler : Version) :
    Except Report Unit :=
  match versionFile with
  | some required =>
    if Version.below required customGatesVersion then
      .error ⟨.error, "File " ++ filePath ++ " requires at least version \"" ++ Version.pretty customGatesVersion ++
        "\" to use custom templates (currently \"" ++ Version.pretty required ++ "\")", .customGatesVersionError, []⟩
    else .ok ()
  | none =>
    if Version.below versionCompiler customGatesVersion then
      .error ⟨.error, "File " ++ filePath ++ " does not include pragma version and the compiler version (currently " ++
        Version.pretty versionCompiler ++ ") should be at least " ++ Version.pretty customGatesVersion ++
        " to use custom templates", .customGatesVersionError, []⟩
    else .ok ()

/-- What does not change in a run of `run_parser`. -/
structure Setting (M D : Type) where
  fs : FileSystem
  /-- `parse_file`; the number of the file only goes into locations. -/
  parseFile : String → Except ReportCollection (AST M D)
  linkLibraries : List PathBuf
  version : Version

/-- The variables of the loop. -/
structure LoopState (M D : Type) where
  fileLibrary : FileLibrary
  definitions : List (ℕ × D)
  mainComponents : List (ℕ × M × Bool)
  fileStack : FileStack
  includesGraph : IncludesGraph
  warnings : ReportCollection

namespace Setting

variable {M D : Type} (self : Setting M D)

def extLinkLibraries : List PathBuf := PathBuf.empty :: self.linkLibraries

/-- The loop over the includes of a file, with the paths that `add_include` returns. -/
def addIncludes (fileStack : FileStack) (includesGraph : IncludesGraph) :
    List String → Except Report (List PathBuf × FileStack × IncludesGraph)
  | [] => .ok ([], fileStack, includesGraph)
  | name :: names => do
    let (fileStack, pathInclude) ← fileStack.addInclude self.fs name self.linkLibraries
    let includesGraph ← includesGraph.addEdge self.fs pathInclude
    let (paths, fileStack, includesGraph) ← addIncludes fileStack includesGraph names
    return (pathInclude :: paths, fileStack, includesGraph)

/-- The body of the loop for the file that `take_next` has returned, with the paths of its includes. -/
def parseNext (crrFile : PathBuf) (st : LoopState M D) :
    Except (FileLibrary × ReportCollection) (LoopState M D × List PathBuf) := do
  let found ← (findFile self.fs crrFile self.extLinkLibraries).mapError fun reports => (st.fileLibrary, reports)
  let (fileLibrary, fileId) := st.fileLibrary.addFile found.path found.src
  let program ← (self.parseFile found.src).mapError fun e => (fileLibrary, e)
  let mainComponents :=
    match program.mainComponent with
    | some main => st.mainComponents ++ [(fileId, main, program.customGates)]
    | none => st.mainComponents
  let includesGraph := st.includesGraph.addNode found.crrStrFile program.customGates program.customGatesDeclared
  let (paths, fileStack, includesGraph) ←
    (self.addIncludes st.fileStack includesGraph program.includes).mapError fun e => (fileLibrary, [e])
  let versionWarnings ← (checkNumberVersion found.path program.compilerVersion self.version).mapError
    fun e => (fileLibrary, [e])
  if program.customGates then
    (checkCustomGatesVersion found.path program.compilerVersion self.version).mapError fun e => (fileLibrary, [e])
  return ({
    fileLibrary := fileLibrary
    definitions := st.definitions ++ [(fileId, program.definitions)]
    mainComponents := mainComponents
    fileStack := fileStack
    includesGraph := includesGraph
    warnings := st.warnings ++ versionWarnings }, paths)

/-- A path that `take_next` has returned, with those that `add_include` has returned for its includes. -/
abbrev Entry := PathBuf × List PathBuf

/-- The loop of `run_parser`: what its rounds took, and how it ends. -/
def parseLoop : ℕ → LoopState M D →
    Option (List Entry × Except (FileLibrary × ReportCollection) (LoopState M D))
  | 0, _ => none
  | fuel + 1, st =>
    match st.fileStack.takeNext with
    | none => some ([], .ok st)
    | some (crrFile, fileStack) =>
      match self.parseNext crrFile { st with fileStack := fileStack } with
      | .error e => some ([(crrFile, [])], .error e)
      | .ok (st, paths) => (parseLoop fuel st).map fun r => ((crrFile, paths) :: r.1, r.2)

/-- The state before the loop. -/
def start (file : PathBuf) : LoopState M D where
  fileLibrary := FileLibrary.new
  definitions := []
  mainComponents := []
  fileStack := FileStack.new file
  includesGraph := {}
  warnings := []

end Setting

/-- The errors of `run_parser` about missing pragmas. -/
def pragmaErrors (problematicPaths : List (List PathBuf)) : ReportCollection :=
  problematicPaths.map fun path =>
    ⟨.error, "Missing custom templates pragma in file " ++ ((path.getLast?.map PathBuf.display).getD "") ++
      " because of the following chain of includes " ++ IncludesGraph.displayPath path, .customGatesPragmaError, []⟩

end Circom.Parser.IncludeLogic
