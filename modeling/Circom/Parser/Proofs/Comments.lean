import Circom.Lib.Separators
import Circom.Parser.ParserLogic

/-!
# Comments and string literals

The left-to-right rule for the comments of a source text, and for its comments and string literals together.
Every text is read in exactly one way.
-/

namespace Circom.Parser

open Circom.Lib (Before before_or_exists)

/-- The parts of a source text. -/
inductive Piece where
  | code (chars : List Char)
  | comment (chars : List Char)
  /-- A block comment that is not closed. -/
  | unclosed (chars : List Char)
  | literal (chars : List Char)
  deriving DecidableEq

def Piece.chars : Piece → List Char
  | code chars => chars
  | comment chars => chars
  | unclosed chars => chars
  | literal chars => chars

def pieceText (pieces : List Piece) : List Char := pieces.flatMap Piece.chars

@[simp] theorem pieceText_nil : pieceText [] = [] := rfl

@[simp] theorem pieceText_cons (piece : Piece) (pieces : List Piece) :
    pieceText (piece :: pieces) = piece.chars ++ pieceText pieces := List.flatMap_cons

/-! ## The rule -/

/-- A comment is opened here. -/
inductive Opens : List Char → Prop
  | line (rest : List Char) : Opens ('/' :: '/' :: rest)
  | block (rest : List Char) : Opens ('/' :: '*' :: rest)

inductive LineEnd : List Char → Prop
  | mk (rest : List Char) : LineEnd ('\n' :: rest)

theorem LineEnd.ne_nil {chars : List Char} (h : LineEnd chars) : chars ≠ [] := by
  cases h
  simp

inductive BlockEnd : List Char → Prop
  | mk (rest : List Char) : BlockEnd ('*' :: '/' :: rest)

/-- The text between the quotes of a string literal. -/
def LiteralBody (body : List Char) : Prop := '"' ∉ body ∧ '\n' ∉ body

/-- The token `STRING` starts here: the line has another double quote. -/
inductive Quotes : List Char → Prop
  | mk {body : List Char} (rest : List Char) (h : LiteralBody body) : Quotes ('"' :: (body ++ '"' :: rest))

/-- Something other than code starts here. -/
def Starts (strings : Bool) (chars : List Char) : Prop := Opens chars ∨ strings = true ∧ Quotes chars

/-- The part is closed in front of the rest of the text. A line comment ends before the newline. -/
inductive Closed (strings : Bool) : Piece → List Char → Prop
  | line {body rest : List Char} (hrest : rest = [] ∨ LineEnd rest) (hbody : Before LineEnd body rest) :
      Closed strings (.comment ('/' :: '/' :: body)) rest
  | block {body rest : List Char} (hbody : Before BlockEnd body ('*' :: '/' :: rest)) :
      Closed strings (.comment ('/' :: '*' :: (body ++ ['*', '/']))) rest
  | unclosed {body : List Char} (hbody : Before BlockEnd body []) :
      Closed strings (.unclosed ('/' :: '*' :: body)) []
  | literal {body rest : List Char} (hstrings : strings = true) (hbody : LiteralBody body) :
      Closed strings (.literal ('"' :: (body ++ ['"']))) rest

/-- The parts of a text from left to right. String literals are parts of their own if `strings` is true,
otherwise they are code. -/
inductive Reading (strings : Bool) : List Char → List Piece → Prop
  | code {code : List Char} (hcode : Before (Starts strings) code []) : Reading strings code [.code code]
  | cons {code rest : List Char} {piece : Piece} {pieces : List Piece}
      (hcode : Before (Starts strings) code (piece.chars ++ rest)) (hpiece : Closed strings piece rest)
      (hrest : Reading strings rest pieces) :
      Reading strings (code ++ (piece.chars ++ rest)) (.code code :: piece :: pieces)

variable {strings : Bool} {chars rest rest' : List Char} {piece piece' : Piece}
  {pieces pieces' : List Piece}

/-- The parts are the whole text. -/
theorem Reading.text_eq (h : Reading strings chars pieces) : pieceText pieces = chars := by
  induction h with
  | code hcode => simp [Piece.chars]
  | cons hcode hpiece hrest ih => simp [ih, Piece.chars]

/-! ## Every text has one reading -/

theorem Closed.starts (h : Closed strings piece rest) : Starts strings (piece.chars ++ rest) := by
  cases h with
  | line hrest hbody => exact Or.inl (.line _)
  | block hbody => exact Or.inl (.block _)
  | unclosed hbody => exact Or.inl (.block _)
  | literal hstrings hbody =>
    refine Or.inr ⟨hstrings, ?_⟩
    simp only [Piece.chars, List.cons_append, List.append_assoc, List.nil_append]
    exact .mk _ hbody

theorem Starts.exists_closed (h : Starts strings chars) :
    ∃ piece rest, chars = piece.chars ++ rest ∧ piece.chars ≠ [] ∧ Closed strings piece rest := by
  rcases h with hopens | ⟨hstrings, hquotes⟩
  · cases hopens with
    | line rest =>
      rcases before_or_exists LineEnd rest with h | ⟨body, rest, rfl, hrest, hbody⟩
      · exact ⟨.comment ('/' :: '/' :: rest), [], by simp [Piece.chars], by simp [Piece.chars],
          .line (Or.inl rfl) h⟩
      · exact ⟨.comment ('/' :: '/' :: body), rest, rfl, by simp [Piece.chars],
          .line (Or.inr hrest) hbody⟩
    | block rest =>
      rcases before_or_exists BlockEnd rest with h | ⟨body, rest, rfl, ⟨rest⟩, hbody⟩
      · exact ⟨.unclosed ('/' :: '*' :: rest), [], by simp [Piece.chars], by simp [Piece.chars],
          .unclosed h⟩
      · exact ⟨.comment ('/' :: '*' :: (body ++ ['*', '/'])), rest, by simp [Piece.chars],
          by simp [Piece.chars], .block hbody⟩
  · cases hquotes with
    | mk rest hbody =>
      exact ⟨.literal ('"' :: (_ ++ ['"'])), rest, by simp [Piece.chars], by simp [Piece.chars],
        .literal hstrings hbody⟩

theorem Reading.exists (strings : Bool) (chars : List Char) : ∃ pieces, Reading strings chars pieces := by
  induction hn : chars.length using Nat.strongRecOn generalizing chars with
  | ind n ih =>
    subst hn
    rcases before_or_exists (Starts strings) chars with h | ⟨code, after, rfl, hstarts, hcode⟩
    · exact ⟨_, .code h⟩
    · obtain ⟨piece, rest, rfl, hne, hpiece⟩ := hstarts.exists_closed
      have hlen := List.length_pos_of_ne_nil hne
      obtain ⟨pieces, hrest⟩ := ih rest.length (by simp only [List.length_append]; omega) rest rfl
      exact ⟨_, .cons hcode hpiece hrest⟩

/-- The quote that closes a literal is the first one in its body. -/
theorem LiteralBody.unique {body body' : List Char} (h : LiteralBody body) (h' : LiteralBody body')
    (heq : body ++ '"' :: rest = body' ++ '"' :: rest') : body = body' ∧ rest = rest' := by
  induction body generalizing body' with
  | nil =>
    cases body' with
    | nil => exact ⟨rfl, (List.cons.inj heq).2⟩
    | cons c body' =>
      obtain ⟨rfl, -⟩ := List.cons.inj heq
      exact absurd (List.mem_cons_self ..) h'.1
  | cons c body ih =>
    cases body' with
    | nil =>
      obtain ⟨rfl, -⟩ := List.cons.inj heq
      exact absurd (List.mem_cons_self ..) h.1
    | cons d body' =>
      obtain ⟨rfl, htail⟩ := List.cons.inj heq
      have hbody : LiteralBody body :=
        ⟨fun hm => h.1 (List.mem_cons_of_mem _ hm), fun hm => h.2 (List.mem_cons_of_mem _ hm)⟩
      have hbody' : LiteralBody body' :=
        ⟨fun hm => h'.1 (List.mem_cons_of_mem _ hm), fun hm => h'.2 (List.mem_cons_of_mem _ hm)⟩
      obtain ⟨rfl, rfl⟩ := ih hbody hbody' htail
      exact ⟨rfl, rfl⟩

theorem lineComment_unique {body body' : List Char} (hrest : rest = [] ∨ LineEnd rest)
    (hrest' : rest' = [] ∨ LineEnd rest') (h : Before LineEnd body rest)
    (h' : Before LineEnd body' rest') (heq : body ++ rest = body' ++ rest') :
    body = body' ∧ rest = rest' := by
  rcases hrest with rfl | hrest
  · rcases hrest' with rfl | hrest'
    · simpa using heq
    · rw [List.append_nil] at heq
      subst heq
      exact absurd h (Before.not_before_nil hrest' hrest'.ne_nil)
  · rcases hrest' with rfl | hrest'
    · rw [List.append_nil] at heq
      subst heq
      exact absurd h' (Before.not_before_nil hrest hrest.ne_nil)
    · exact Before.unique heq h hrest h' hrest'

theorem Closed.unique (h : Closed strings piece rest) (h' : Closed strings piece' rest')
    (heq : piece.chars ++ rest = piece'.chars ++ rest') : piece = piece' ∧ rest = rest' := by
  cases h with
  | line hrest hbody =>
    cases h' with
    | line hrest' hbody' =>
      simp only [Piece.chars, List.cons_append, List.cons.injEq, true_and] at heq
      obtain ⟨rfl, rfl⟩ := lineComment_unique hrest hrest' hbody hbody' heq
      exact ⟨rfl, rfl⟩
    | block hbody' => simp [Piece.chars] at heq
    | unclosed hbody' => simp [Piece.chars] at heq
    | literal hstrings' hbody' => simp [Piece.chars] at heq
  | block hbody =>
    cases h' with
    | line hrest' hbody' => simp [Piece.chars] at heq
    | block hbody' =>
      simp only [Piece.chars, List.cons_append, List.append_assoc, List.cons.injEq, true_and,
        List.nil_append] at heq
      obtain ⟨rfl, htail⟩ := Before.unique heq hbody (.mk _) hbody' (.mk _)
      simp only [List.cons.injEq, true_and] at htail
      exact ⟨rfl, htail⟩
    | unclosed hbody' =>
      simp only [Piece.chars, List.cons_append, List.append_assoc, List.cons.injEq, true_and,
        List.nil_append, List.append_nil] at heq
      rw [← heq] at hbody'
      exact absurd hbody' (Before.not_before_nil (BlockEnd.mk _) (by simp))
    | literal hstrings' hbody' => simp [Piece.chars] at heq
  | unclosed hbody =>
    cases h' with
    | line hrest' hbody' => simp [Piece.chars] at heq
    | block hbody' =>
      simp only [Piece.chars, List.cons_append, List.append_assoc, List.cons.injEq, true_and,
        List.nil_append, List.append_nil] at heq
      rw [heq] at hbody
      exact absurd hbody (Before.not_before_nil (BlockEnd.mk _) (by simp))
    | unclosed hbody' =>
      simp only [Piece.chars, List.append_nil] at heq
      exact ⟨by rw [heq], rfl⟩
    | literal hstrings' hbody' => simp [Piece.chars] at heq
  | literal hstrings hbody =>
    cases h' with
    | line hrest' hbody' => simp [Piece.chars] at heq
    | block hbody' => simp [Piece.chars] at heq
    | unclosed hbody' => simp [Piece.chars] at heq
    | literal hstrings' hbody' =>
      simp only [Piece.chars, List.cons_append, List.append_assoc, List.cons.injEq, true_and,
        List.nil_append] at heq
      obtain ⟨rfl, rfl⟩ := hbody.unique hbody' heq
      exact ⟨rfl, rfl⟩

theorem Closed.append_ne_nil (h : Closed strings piece rest) : piece.chars ++ rest ≠ [] := by
  cases h <;> simp [Piece.chars]

theorem Reading.unique (h : Reading strings chars pieces) (h' : Reading strings chars pieces') :
    pieces = pieces' := by
  induction h generalizing pieces' with
  | code hcode =>
    cases h' with
    | code hcode' => rfl
    | cons hcode' hpiece' hrest' =>
      exact absurd hcode (Before.not_before_nil hpiece'.starts hpiece'.append_ne_nil)
  | @cons code rest piece pieces hcode hpiece hrest ih =>
    generalize hchars : code ++ (piece.chars ++ rest) = chars at h'
    cases h' with
    | code hcode' =>
      rw [← hchars] at hcode'
      exact absurd hcode' (Before.not_before_nil hpiece.starts hpiece.append_ne_nil)
    | cons hcode' hpiece' hrest' =>
      obtain ⟨rfl, heq⟩ := Before.unique hchars hcode hpiece.starts hcode' hpiece'.starts
      obtain ⟨rfl, rfl⟩ := hpiece.unique hpiece' heq
      rw [ih hrest']

end Circom.Parser
