import Circom.Parser.Proofs.Comments

/-!
# Comment removal keeps positions

`preprocess` blanks exactly the comments of the left-to-right rule, byte by byte, and fails exactly when a
block comment is not closed.
-/

namespace Circom.Parser

open Circom.Lib (Before before_cons before_append)

variable {c : Char} {pieces : List Piece}

/-! ## The loop of `preprocess` -/

namespace Preprocess

variable {fileId : ℕ} {pp chars rest body : List Char} {loc blockStart : ℕ}

theorem scan_slash_slash :
    scan fileId ⟨pp, .code, loc, blockStart⟩ ('/' :: '/' :: rest) =
      scan fileId ⟨pp ++ [' ', ' '], .line, loc + 2, blockStart⟩ rest := rfl

theorem scan_slash_star :
    scan fileId ⟨pp, .code, loc, blockStart⟩ ('/' :: '*' :: rest) =
      scan fileId ⟨pp ++ [' ', ' '], .block, loc + 2, loc + 2⟩ rest := rfl

theorem scan_newline :
    scan fileId ⟨pp, .line, loc, blockStart⟩ ('\n' :: rest) =
      scan fileId ⟨pp ++ ['\n'], .code, loc + 1, blockStart⟩ rest := rfl

theorem scan_star :
    scan fileId ⟨pp, .block, loc, blockStart⟩ ('*' :: rest) =
      scanStars fileId ⟨pp, .block, loc + 2, blockStart⟩ rest := rfl

theorem scan_blockEnd :
    scan fileId ⟨pp, .block, loc, blockStart⟩ ('*' :: '/' :: rest) =
      scan fileId ⟨pp ++ [' ', ' '], .code, loc + 2, blockStart⟩ rest := rfl

/-- A character without a meaning in the state of the scanner. -/
theorem scan_cons_of_ne :
    (c ≠ '/' → scan fileId ⟨pp, .code, loc, blockStart⟩ (c :: rest) =
      scan fileId ⟨pp ++ [c], .code, loc + 1, blockStart⟩ rest) ∧
    (c ≠ '\n' → scan fileId ⟨pp, .line, loc, blockStart⟩ (c :: rest) =
      scan fileId ⟨pp ++ spaces c, .line, loc + 1, blockStart⟩ rest) ∧
    (c ≠ '*' → scan fileId ⟨pp, .block, loc, blockStart⟩ (c :: rest) =
      scan fileId ⟨pp ++ spaces c, .block, loc + 1, blockStart⟩ rest) := by
  refine ⟨fun hc => ?_, fun hc => ?_, fun hc => ?_⟩
  all_goals simp [scan, Scanner.advance, Scanner.push, hc]

theorem scan_code_cons (h : ¬ Opens (c :: rest)) :
    scan fileId ⟨pp, .code, loc, blockStart⟩ (c :: rest) =
      scan fileId ⟨pp ++ [c], .code, loc + 1, blockStart⟩ rest := by
  by_cases hc : c = '/'
  · subst hc
    cases rest with
    | nil => rfl
    | cons d rest =>
      have hslash : d ≠ '/' := by
        rintro rfl
        exact h (.line rest)
      have hstar : d ≠ '*' := by
        rintro rfl
        exact h (.block rest)
      rw [scan_cons_of_ne.1 hslash, List.append_assoc, List.singleton_append]
      simp [scan, Scanner.advance, Scanner.push, hslash, hstar]
  · exact scan_cons_of_ne.1 hc

/-- Code is copied. -/
theorem scan_code (h : Before Opens chars rest) :
    scan fileId ⟨pp, .code, loc, blockStart⟩ (chars ++ rest) =
      scan fileId ⟨pp ++ chars, .code, loc + chars.length, blockStart⟩ rest := by
  induction chars generalizing pp loc with
  | nil => simp
  | cons c chars ih =>
    rw [List.cons_append, scan_code_cons h.1, ih h.2]
    simp [Nat.add_comm, Nat.add_left_comm]

theorem scan_line (h : Before LineEnd body rest) :
    scan fileId ⟨pp, .line, loc, blockStart⟩ (body ++ rest) =
      scan fileId ⟨pp ++ body.flatMap spaces, .line, loc + body.length, blockStart⟩ rest := by
  induction body generalizing pp loc with
  | nil => simp
  | cons c body ih =>
    have hc : c ≠ '\n' := by
      rintro rfl
      exact h.1 (.mk _)
    rw [List.cons_append, scan_cons_of_ne.2.1 hc, ih h.2]
    simp [Nat.add_comm, Nat.add_left_comm]

/-- At the end of a line comment the scanner is back in the code. -/
theorem scan_lineEnd (h : rest = [] ∨ LineEnd rest) :
    scan fileId ⟨pp, .line, loc, blockStart⟩ rest = scan fileId ⟨pp, .code, loc, blockStart⟩ rest := by
  rcases h with rfl | h
  · rfl
  · cases h
    rw [scan_newline, scan_cons_of_ne.1 (by decide)]

/-- A star that does not close the comment is blanked as any other character of it. -/
theorem scanStars_eq (h : ∀ rest', rest ≠ '/' :: rest') :
    scanStars fileId ⟨pp, .block, loc + 1, blockStart⟩ rest =
      scan fileId ⟨pp ++ [' '], .block, loc, blockStart⟩ rest := by
  cases rest with
  | nil => rfl
  | cons c rest =>
    have hslash : c ≠ '/' := fun hc => h rest (by rw [hc])
    by_cases hstar : c = '*'
    · subst hstar
      rfl
    · rw [scan_cons_of_ne.2.2 hstar]
      simp [scanStars, Scanner.push, hslash, hstar]

theorem spaces_star : spaces '*' = [' '] := by decide

theorem scan_block_cons (h : ¬ BlockEnd (c :: rest)) :
    scan fileId ⟨pp, .block, loc, blockStart⟩ (c :: rest) =
      scan fileId ⟨pp ++ spaces c, .block, loc + 1, blockStart⟩ rest := by
  by_cases hc : c = '*'
  · subst hc
    have hrest : ∀ rest', rest ≠ '/' :: rest' := by
      rintro rest' rfl
      exact h (.mk rest')
    rw [spaces_star, ← scanStars_eq hrest, scan_star]
  · exact scan_cons_of_ne.2.2 hc

theorem scan_block (h : Before BlockEnd body rest) :
    scan fileId ⟨pp, .block, loc, blockStart⟩ (body ++ rest) =
      scan fileId ⟨pp ++ body.flatMap spaces, .block, loc + body.length, blockStart⟩ rest := by
  induction body generalizing pp loc with
  | nil => simp
  | cons c body ih =>
    rw [List.cons_append, scan_block_cons h.1, ih h.2]
    simp [Nat.add_comm, Nat.add_left_comm]

end Preprocess

/-! ## The parts of the text -/

/-- What `preprocess` writes for a part. -/
def Piece.kept : Piece → List Char
  | code chars => chars
  | comment chars => chars.flatMap Preprocess.spaces
  | unclosed chars => chars.flatMap Preprocess.spaces
  | literal chars => chars

def keptText (pieces : List Piece) : List Char := pieces.flatMap Piece.kept

@[simp] theorem keptText_nil : keptText [] = [] := rfl

@[simp] theorem keptText_cons (piece : Piece) (pieces : List Piece) :
    keptText (piece :: pieces) = piece.kept ++ keptText pieces := List.flatMap_cons

def Piece.isUnclosed : Piece → Bool
  | unclosed _ => true
  | _ => false

/-- No comment is opened inside a string literal. -/
def Piece.Plain : Piece → Prop
  | literal chars => Before Opens chars []
  | _ => True

section Scan

variable {strings : Bool} {fileId : ℕ} {pp chars rest : List Char} {loc blockStart : ℕ} {piece : Piece}
  {pieces : List Piece}

open Preprocess

theorem spaces_slash : spaces '/' = [' '] := by decide

/-- Whether a comment is opened is seen from two characters. -/
theorem before_opens_append {second : List Char} (h : Before Opens chars second) (hne : second ≠ []) :
    Before Opens chars (second ++ rest) := by
  induction chars with
  | nil => exact trivial
  | cons c chars ih =>
    obtain ⟨hc, hchars⟩ := h
    refine ⟨fun hopens => hc ?_, ih hchars⟩
    obtain ⟨d, more, hmore⟩ := List.exists_cons_of_ne_nil
      (show chars ++ second ≠ [] from fun hnil => hne (List.append_eq_nil_iff.mp hnil).2)
    rw [← List.append_assoc, hmore] at hopens
    rw [hmore]
    cases hopens with
    | line => exact .line _
    | block => exact .block _

/-- A quote ends the literal, so that no comment is opened across its end either. -/
theorem Piece.Plain.before {body : List Char} (h : Before Opens ('"' :: (body ++ ['"'])) []) :
    Before Opens ('"' :: (body ++ ['"'])) rest := by
  rw [← List.cons_append, before_append] at h ⊢
  refine ⟨before_opens_append h.1 (by simp), ?_, trivial⟩
  rintro ⟨⟩

/-- A part that is closed is copied or blanked, and the scanner is in the code behind it. -/
theorem scan_piece (h : Closed strings piece rest) (hplain : piece.Plain)
    (hclosed : piece.isUnclosed = false) (fileId : ℕ) (pp : List Char) (loc blockStart : ℕ) :
    ∃ loc' blockStart', scan fileId ⟨pp, .code, loc, blockStart⟩ (piece.chars ++ rest) =
      scan fileId ⟨pp ++ piece.kept, .code, loc', blockStart'⟩ rest := by
  cases h with
  | @line body rest hrest hbody =>
    refine ⟨loc + 2 + body.length, blockStart, ?_⟩
    simp only [Piece.chars, List.cons_append]
    rw [scan_slash_slash, scan_line hbody, scan_lineEnd hrest]
    simp [Piece.kept, spaces_slash]
  | @block body rest hbody =>
    refine ⟨loc + 2 + body.length + 2, loc + 2, ?_⟩
    simp only [Piece.chars, List.cons_append, List.append_assoc, List.nil_append]
    rw [scan_slash_star, scan_block hbody, scan_blockEnd]
    simp [Piece.kept, spaces_slash, spaces_star]
  | unclosed hbody => cases hclosed
  | literal hstrings hbody => exact ⟨_, _, scan_code (Piece.Plain.before hplain)⟩

theorem scan_unclosed {body : List Char} (h : Before BlockEnd body []) :
    scan fileId ⟨pp, .code, loc, blockStart⟩ ('/' :: '*' :: body) =
      .error [produceReport .unclosedComment (loc + 2, loc + 2) fileId] := by
  rw [← List.append_nil body, scan_slash_star, scan_block h]
  rfl

/-- The scanner follows a reading of the text whose string literals open no comment. -/
theorem scan_reading (h : Reading strings chars pieces) (hplain : ∀ piece ∈ pieces, piece.Plain)
    (fileId : ℕ) (pp : List Char) (loc blockStart : ℕ) :
    (pieces.any Piece.isUnclosed = true ∧
      ∃ reports, scan fileId ⟨pp, .code, loc, blockStart⟩ chars = .error reports) ∨
    (pieces.any Piece.isUnclosed = false ∧
      scan fileId ⟨pp, .code, loc, blockStart⟩ chars = .ok (String.ofList (pp ++ keptText pieces))) := by
  induction h generalizing pp loc blockStart with
  | @code code hcode =>
    refine Or.inr ⟨rfl, ?_⟩
    have hscan : scan fileId ⟨pp, .code, loc, blockStart⟩ (code ++ []) =
        scan fileId ⟨pp ++ code, .code, loc + code.length, blockStart⟩ [] :=
      scan_code (hcode.mono fun _ hopens => Or.inl hopens)
    rw [List.append_nil] at hscan
    rw [hscan, keptText_cons, keptText_nil, List.append_nil]
    rfl
  | @cons code rest piece pieces hcode hpiece hrest ih =>
    rw [scan_code (hcode.mono fun _ hopens => Or.inl hopens)]
    obtain ⟨-, hplainPiece, hplainRest⟩ : _ ∧ piece.Plain ∧ ∀ piece ∈ pieces, piece.Plain := by
      simpa using hplain
    have hany : (Piece.code code :: piece :: pieces).any Piece.isUnclosed =
        (piece.isUnclosed || pieces.any Piece.isUnclosed) := rfl
    rw [hany]
    cases hclosed : piece.isUnclosed with
    | true =>
      refine Or.inl ⟨Bool.true_or _, ?_⟩
      cases hpiece with
      | unclosed hbody =>
        simp only [Piece.chars, List.append_nil]
        exact ⟨_, scan_unclosed hbody⟩
      | _ => cases hclosed
    | false =>
      obtain ⟨loc', blockStart', hscan⟩ :=
        scan_piece hpiece hplainPiece hclosed fileId (pp ++ code) (loc + code.length) blockStart
      rw [hscan, Bool.false_or]
      rcases ih hplainRest (pp ++ code ++ piece.kept) loc' blockStart' with
        ⟨hrest, hreports⟩ | ⟨hrest, hok⟩
      · exact Or.inl ⟨hrest, hreports⟩
      · refine Or.inr ⟨hrest, ?_⟩
        rw [hok]
        simp [Piece.kept]

end Scan

/-! ## Bytes -/

/-- The bytes of a source text. -/
def textBytes (s : String) : List UInt8 := s.toByteArray.data.toList

def encode (chars : List Char) : List UInt8 := chars.flatMap String.utf8EncodeChar

@[simp] theorem encode_nil : encode [] = [] := rfl

@[simp] theorem encode_append (chars chars' : List Char) :
    encode (chars ++ chars') = encode chars ++ encode chars' := List.flatMap_append

theorem textBytes_ofList (chars : List Char) : textBytes (String.ofList chars) = encode chars := by
  rw [textBytes, String.toByteArray_ofList, List.utf8Encode, List.toList_data_toByteArray]
  rfl

theorem textBytes_eq (s : String) : textBytes s = encode s.toList := by
  rw [← textBytes_ofList, String.ofList_toList]

theorem encode_spaces (c : Char) : encode (Preprocess.spaces c) = List.replicate c.utf8Size 0x20 := by
  have hspace : String.utf8EncodeChar ' ' = [0x20] := by decide
  rw [encode, Preprocess.spaces]
  induction c.utf8Size with
  | zero => rfl
  | succ n ih => rw [List.replicate_succ, List.flatMap_cons, hspace, ih, List.replicate_succ]; rfl

/-- Every byte of a blanked character is a space. -/
theorem encode_blanked (chars : List Char) :
    encode (chars.flatMap Preprocess.spaces) = List.replicate (encode chars).length 0x20 := by
  induction chars with
  | nil => rfl
  | cons c chars ih =>
    have hlen : (encode (c :: chars)).length = c.utf8Size + (encode chars).length := by
      simp [encode]
    rw [List.flatMap_cons, encode_append, encode_spaces, ih, hlen, List.replicate_add]

theorem length_encode_kept (piece : Piece) : (encode piece.kept).length = (encode piece.chars).length := by
  cases piece with
  | code chars => rfl
  | literal chars => rfl
  | comment chars => simp [Piece.kept, Piece.chars, encode_blanked]
  | unclosed chars => simp [Piece.kept, Piece.chars, encode_blanked]

theorem length_encode_keptText (pieces : List Piece) :
    (encode (keptText pieces)).length = (encode (pieceText pieces)).length := by
  induction pieces with
  | nil => rfl
  | cons piece pieces ih => simp [length_encode_kept, ih]

/-- The number of bytes in front of a part. -/
def offsetOf (before : List Piece) : ℕ := (encode (pieceText before)).length

theorem pieceText_append (pieces pieces' : List Piece) :
    pieceText (pieces ++ pieces') = pieceText pieces ++ pieceText pieces' := List.flatMap_append

theorem keptText_append (pieces pieces' : List Piece) :
    keptText (pieces ++ pieces') = keptText pieces ++ keptText pieces' := List.flatMap_append

section Offsets

variable {before after : List Piece} {piece : Piece} {offset : ℕ}

theorem getElem_append_append {α : Type} {l l' m : List α} (h : l.length ≤ offset)
    (h' : offset < l.length + m.length) : (l ++ (m ++ l'))[offset]? = m[offset - l.length]? := by
  rw [List.getElem?_append_right h, List.getElem?_append_left (by omega)]

theorem getElem_pieceText (h : offsetOf before ≤ offset)
    (h' : offset < offsetOf before + (encode piece.chars).length) :
    (encode (pieceText (before ++ piece :: after)))[offset]? =
      (encode piece.chars)[offset - offsetOf before]? := by
  rw [pieceText_append, pieceText_cons, encode_append, encode_append]
  exact getElem_append_append h h'

theorem getElem_keptText (h : offsetOf before ≤ offset)
    (h' : offset < offsetOf before + (encode piece.chars).length) :
    (encode (keptText (before ++ piece :: after)))[offset]? =
      (encode piece.kept)[offset - offsetOf before]? := by
  rw [offsetOf, ← length_encode_keptText] at h h' ⊢
  rw [← length_encode_kept] at h'
  rw [keptText_append, keptText_cons, encode_append, encode_append]
  exact getElem_append_append h h'

/-- Every offset in the text lies in one of its parts. -/
theorem exists_piece (h : offset < offsetOf pieces) :
    ∃ before piece after, pieces = before ++ piece :: after ∧ offsetOf before ≤ offset ∧
      offset < offsetOf before + (encode piece.chars).length := by
  induction pieces generalizing offset with
  | nil => simp [offsetOf] at h
  | cons piece pieces ih =>
    by_cases hlt : offset < (encode piece.chars).length
    · exact ⟨[], piece, pieces, rfl, by simp [offsetOf], by simpa [offsetOf] using hlt⟩
    · have hrest : offset - (encode piece.chars).length < offsetOf pieces := by
        simp only [offsetOf, pieceText_cons, encode_append, List.length_append] at h ⊢
        omega
      obtain ⟨before, piece', after, rfl, hle, hlt'⟩ := ih hrest
      have hoffset : offsetOf (piece :: before) = (encode piece.chars).length + offsetOf before := by
        simp [offsetOf]
      exact ⟨piece :: before, piece', after, rfl, by omega, by omega⟩

end Offsets

/-! ## Comments of a source text -/

/-- A block comment that is opened outside any other comment is not closed. -/
def Unclosed (expr : String) : Prop :=
  ∃ pieces, Reading false expr.toList pieces ∧ pieces.any Piece.isUnclosed = true

/-- The byte at the offset is part of a comment. -/
def InComment (expr : String) (offset : ℕ) : Prop :=
  ∃ before chars after, Reading false expr.toList (before ++ .comment chars :: after) ∧
    offsetOf before ≤ offset ∧ offset < offsetOf before + (encode chars).length

/-- The text without its comments. -/
structure Blanks (expr pp : String) : Prop where
  length : pp.utf8ByteSize = expr.utf8ByteSize
  outside (offset : ℕ) (h : ¬ InComment expr offset) : (textBytes pp)[offset]? = (textBytes expr)[offset]?
  inside (offset : ℕ) (h : InComment expr offset) : (textBytes pp)[offset]? = some 0x20

theorem utf8ByteSize_eq (s : String) : s.utf8ByteSize = (textBytes s).length := by
  rw [textBytes, Array.length_toList]
  rfl

theorem Closed.not_literal {piece : Piece} {rest chars : List Char} (h : Closed false piece rest) :
    piece ≠ .literal chars := by
  rintro rfl
  cases h with
  | literal hstrings hbody => cases hstrings

theorem Reading.plain {chars : List Char} (h : Reading false chars pieces) : ∀ piece ∈ pieces, piece.Plain := by
  induction h with
  | code hcode =>
    intro piece hpiece
    rw [List.mem_singleton.mp hpiece]
    exact trivial
  | @cons code rest piece pieces hcode hpiece hrest ih =>
    have hplain : piece.Plain := by
      cases piece with
      | literal chars => exact absurd rfl hpiece.not_literal
      | _ => exact trivial
    exact List.forall_mem_cons.mpr ⟨trivial, List.forall_mem_cons.mpr ⟨hplain, ih⟩⟩

theorem Reading.blanks {expr : String} (h : Reading false expr.toList pieces)
    (hclosed : pieces.any Piece.isUnclosed = false) : Blanks expr (String.ofList (keptText pieces)) := by
  have hbytes : textBytes expr = encode (pieceText pieces) := by rw [textBytes_eq, h.text_eq]
  have hlen : (encode (keptText pieces)).length = (textBytes expr).length := by
    rw [length_encode_keptText, hbytes]
  constructor
  case length => rw [utf8ByteSize_eq, utf8ByteSize_eq, textBytes_ofList, hlen]
  case outside =>
    intro offset hout
    rw [textBytes_ofList, hbytes]
    by_cases hlt : offset < offsetOf pieces
    · obtain ⟨before, piece, after, rfl, hle, hlt'⟩ := exists_piece hlt
      rw [getElem_pieceText hle hlt', getElem_keptText hle hlt']
      cases piece with
      | code chars => rfl
      | comment chars => exact absurd ⟨before, chars, after, h, hle, hlt'⟩ hout
      | unclosed chars => simp [Piece.isUnclosed] at hclosed
      | literal chars => rfl
    · rw [List.getElem?_eq_none (Nat.le_of_not_lt hlt),
        List.getElem?_eq_none (by rw [length_encode_keptText]; exact Nat.le_of_not_lt hlt)]
  case inside =>
    rintro offset ⟨before, chars, after, h', hle, hlt⟩
    obtain rfl := h.unique h'
    have hkept : (encode (keptText (before ++ .comment chars :: after)))[offset]? =
        (encode (chars.flatMap Preprocess.spaces))[offset - offsetOf before]? := getElem_keptText hle hlt
    rw [textBytes_ofList, hkept, encode_blanked, List.getElem?_replicate, if_pos (by omega)]

/-- `preprocess` fails exactly when a block comment is not closed. Otherwise it keeps the length of the
text and the bytes outside of comments, and every byte of a comment is a space. -/
theorem preprocess_blanks (expr : String) (fileId : ℕ) :
    match preprocess expr fileId with
    | .error _ => Unclosed expr
    | .ok pp => ¬ Unclosed expr ∧ Blanks expr pp := by
  obtain ⟨pieces, h⟩ := Reading.exists false expr.toList
  have hscan : preprocess expr fileId = Preprocess.scan fileId ⟨[], .code, 0, 0⟩ expr.toList := rfl
  rcases scan_reading h h.plain fileId [] 0 0 with
    ⟨hunclosed, reports, herror⟩ | ⟨hclosed, hok⟩
  · rw [hscan, herror]
    exact ⟨pieces, h, hunclosed⟩
  · rw [hscan, hok]
    refine ⟨?_, h.blanks hclosed⟩
    rintro ⟨pieces', h', hunclosed⟩
    rw [h.unique h', hunclosed] at hclosed
    cases hclosed

end Circom.Parser
