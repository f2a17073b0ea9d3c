import Mathlib.Data.List.Basic
import Mathlib.Tactic.Common

/-!
# Comments

`preprocess` of `parser_logic`: it replaces the comments of a source text by spaces before the parser sees it.
The iterator over the characters is the list of those that are left.
-/

namespace Circom.Parser

inductive ReportCode where
  | unclosedComment
  deriving DecidableEq, Repr

/-- A report with the location of its primary label. -/
structure Report where
  message : String
  code : ReportCode
  location : ℕ × ℕ
  fileId : ℕ
  label : String
  deriving DecidableEq, Repr

/-- The case of `produce_report` that `preprocess` uses. -/
def produceReport (code : ReportCode) (location : ℕ × ℕ) (fileId : ℕ) : Report :=
  match code with
  | .unclosedComment => ⟨"unterminated /* */", .unclosedComment, location, fileId, "Comment starts here"⟩

namespace Preprocess

/-- The values `0`, `1` and `2` of `state`. -/
inductive State where
  | code
  | line
  | block
  deriving DecidableEq, Repr

/-- The variables of the loop. -/
structure Scanner where
  pp : List Char := []
  state : State := .code
  loc : ℕ := 0
  blockStart : ℕ := 0
  deriving DecidableEq, Repr

namespace Scanner

def push (s : Scanner) (chars : List Char) : Scanner := { s with pp := s.pp ++ chars }

/-- The characters that have been taken from the iterator. -/
def advance (s : Scanner) (n : ℕ) : Scanner := { s with loc := s.loc + n }

end Scanner

/-- The spaces for a character of a comment. -/
def spaces (c : Char) : List Char := List.replicate c.utf8Size ' '

/-- What follows the loop. -/
def finish (fileId : ℕ) (s : Scanner) : Except (List Report) String :=
  if s.state = .block then
    .error [produceReport .unclosedComment (s.blockStart, s.blockStart) fileId]
  else .ok (String.ofList s.pp)

mutual

/-- The loop over the characters. -/
def scan (fileId : ℕ) (s : Scanner) : List Char → Except (List Report) String
  | [] => finish fileId s
  | c0 :: it =>
    match s.state, c0 with
    | .code, '/' =>
      match it with
      | '/' :: it => scan fileId { (s.advance 2).push [' ', ' '] with state := .line } it
      | '*' :: it =>
        scan fileId { (s.advance 2).push [' ', ' '] with state := .block, blockStart := s.loc + 2 } it
      | c1 :: it => scan fileId ((s.advance 2).push [c0, c1]) it
      | [] => finish fileId ((s.advance 2).push [c0])
    | .code, c => scan fileId ((s.advance 1).push [c]) it
    | .line, '\n' => scan fileId { (s.advance 1).push [c0] with state := .code } it
    | .block, '*' => scanStars fileId (s.advance 2) it
    | _, c => scan fileId ((s.advance 1).push (spaces c)) it

/-- What follows a star in a block comment. -/
def scanStars (fileId : ℕ) (s : Scanner) : List Char → Except (List Report) String
  | '*' :: it => scanStars fileId ((s.advance 1).push [' ']) it
  | '/' :: it => scan fileId { s.push [' ', ' '] with state := .code } it
  | c :: it => scan fileId (s.push (' ' :: spaces c)) it
  | [] => finish fileId s

end

end Preprocess

/-- Replaces the comments by spaces, or reports that a block comment is not closed. -/
def preprocess (expr : String) (fileId : ℕ) : Except (List Report) String :=
  Preprocess.scan fileId {} expr.toList

end Circom.Parser
