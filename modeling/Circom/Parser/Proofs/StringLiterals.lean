import Circom.Parser.Proofs.CommentRemoval

/-!
# Comment removal and string literals

`preprocess` knows no string literals. It leaves those of an accepted text alone if and only if none of them
contains the opening of a comment.
-/

namespace Circom.Parser

open Circom.Lib (Before before_iff before_or_exists)
open Preprocess

variable {strings : Bool} {rest : List Char} {pieces : List Piece} {expr : String}

/-- A comment is opened at the offset. -/
def CommentOpens (expr : String) (offset : ℕ) : Prop :=
  ∃ before chars after, Reading false expr.toList (before ++ .comment chars :: after) ∧
    offsetOf before = offset

/-- The string literal behind the parts keeps its bytes, and no comment is opened inside it. -/
structure Intact (expr pp : String) (before : List Piece) (chars : List Char) : Prop where
  bytes (i : ℕ) (h : i < (encode chars).length) :
    (textBytes pp)[offsetOf before + i]? = (encode chars)[i]?
  notOpened (i : ℕ) (h : i < (encode chars).length) : ¬ CommentOpens expr (offsetOf before + i)

/-- Every string literal of the text is intact. -/
def LiteralsIntact (expr pp : String) : Prop :=
  ∀ before chars after, Reading true expr.toList (before ++ .literal chars :: after) →
    Intact expr pp before chars

/-- No string literal of the text contains `//` or `/*`. -/
def LiteralsPlain (expr : String) : Prop :=
  ∀ before chars after, Reading true expr.toList (before ++ .literal chars :: after) →
    ∀ first second, chars = first ++ second → ¬ Opens second

theorem not_opens_iff {chars : List Char} :
    (∀ first second, chars = first ++ second → ¬ Opens second) ↔ Before Opens chars [] := by
  rw [before_iff]
  constructor
  · intro h first second heq hne
    rw [List.append_nil]
    exact h first second heq
  · intro h first second heq hopens
    have hne : second ≠ [] := by
      rintro rfl
      cases hopens
    have hnot := h first second heq hne
    rw [List.append_nil] at hnot
    exact hnot hopens

theorem literalsPlain_iff (h : Reading true expr.toList pieces) :
    LiteralsPlain expr ↔ ∀ piece ∈ pieces, piece.Plain := by
  constructor
  · intro hplain piece hpiece
    cases piece with
    | literal chars =>
      obtain ⟨before, after, rfl⟩ := List.append_of_mem hpiece
      exact not_opens_iff.mp (hplain before chars after h)
    | _ => exact trivial
  · intro hplain before chars after h'
    obtain rfl := h.unique h'
    exact not_opens_iff.mpr (hplain (.literal chars) (by simp))

/-! ## Literals without openings -/

theorem Reading.comment_slash {text : List Char} (h : Reading strings text pieces) {chars : List Char}
    (hmem : .comment chars ∈ pieces) : ∃ rest, chars = '/' :: rest := by
  induction h with
  | code hcode => simp at hmem
  | cons hcode hpiece hrest ih =>
    rcases List.mem_cons.mp hmem with heq | hmem
    · cases heq
    · rcases List.mem_cons.mp hmem with rfl | hmem
      · cases hpiece with
        | line => exact ⟨_, rfl⟩
        | block => exact ⟨_, rfl⟩
      · exact ih hmem

theorem encode_slash (chars : List Char) : (encode ('/' :: chars))[0]? = some 0x2f := by
  have hslash : String.utf8EncodeChar '/' = [0x2f] := by decide
  rw [encode, List.flatMap_cons, hslash]
  rfl

/-- Where a comment is opened, the slash is blanked. -/
theorem CommentOpens.blanked {pp : String} {offset : ℕ} (h : CommentOpens expr offset)
    (hblanks : Blanks expr pp) : (textBytes pp)[offset]? ≠ (textBytes expr)[offset]? := by
  obtain ⟨before, chars, after, hread, rfl⟩ := h
  have hmem : .comment chars ∈ before ++ .comment chars :: after := by simp
  obtain ⟨rest, rfl⟩ := hread.comment_slash hmem
  have hlen : 0 < (encode ('/' :: rest)).length := (List.getElem?_eq_some_iff.mp (encode_slash rest)).1
  have hsource : (encode (pieceText (before ++ .comment ('/' :: rest) :: after)))[offsetOf before]? =
      (encode ('/' :: rest))[offsetOf before - offsetOf before]? :=
    getElem_pieceText (Nat.le_refl _) (Nat.lt_add_of_pos_right hlen)
  rw [hblanks.inside _ ⟨before, _, after, hread, (Nat.le_refl _), Nat.lt_add_of_pos_right hlen⟩, textBytes_eq,
    ← hread.text_eq, hsource, Nat.sub_self, encode_slash]
  decide

theorem literalsIntact_of_plain {pp : String} {fileId : ℕ} (h : preprocess expr fileId = .ok pp)
    (hplain : LiteralsPlain expr) : LiteralsIntact expr pp := by
  intro before chars after hread
  have hpieces := (literalsPlain_iff hread).mp hplain
  have hscan : preprocess expr fileId = scan fileId ⟨[], .code, 0, 0⟩ expr.toList := rfl
  have hpp : pp = String.ofList (keptText (before ++ .literal chars :: after)) := by
    rcases scan_reading hread hpieces fileId [] 0 0 with ⟨-, reports, herror⟩ | ⟨-, hok⟩
    · rw [hscan, herror] at h
      cases h
    · rw [hscan, hok] at h
      exact (Except.ok.inj h).symm
  have hkept : ∀ i < (encode chars).length,
      (textBytes pp)[offsetOf before + i]? = (encode chars)[i]? := by
    intro i hi
    have hget : (encode (keptText (before ++ .literal chars :: after)))[offsetOf before + i]? =
        (encode chars)[offsetOf before + i - offsetOf before]? :=
      getElem_keptText (Nat.le_add_right _ _) (Nat.add_lt_add_left hi _)
    rw [hpp, textBytes_ofList, hget, Nat.add_sub_cancel_left]
  refine ⟨hkept, fun i hi hopens => ?_⟩
  have hblanks : Blanks expr pp := by
    have hmatch := preprocess_blanks expr fileId
    rw [h] at hmatch
    exact hmatch.2
  have hsource : (encode (pieceText (before ++ .literal chars :: after)))[offsetOf before + i]? =
      (encode chars)[offsetOf before + i - offsetOf before]? :=
    getElem_pieceText (Nat.le_add_right _ _) (Nat.add_lt_add_left hi _)
  refine hopens.blanked hblanks ?_
  rw [hkept i hi, textBytes_eq, ← hread.text_eq, hsource, Nat.add_sub_cancel_left]

/-! ## Literals with openings -/

section Openings

variable {fileId : ℕ} {pp chars : List Char} {loc blockStart : ℕ} {out : String}

theorem Closed.of_opens {piece : Piece} (h : Closed strings piece rest) (hopens : Opens (piece.chars ++ rest))
    (hclosed : piece.isUnclosed = false) : ∃ more, piece.kept = ' ' :: more := by
  cases h with
  | line hrest hbody => exact ⟨_, by rw [Piece.kept, List.flatMap_cons, spaces_slash]; rfl⟩
  | block hbody => exact ⟨_, by rw [Piece.kept, List.flatMap_cons, spaces_slash]; rfl⟩
  | unclosed hbody => cases hclosed
  | literal hstrings hbody => cases hopens

/-- The first character of an opening is blanked. -/
theorem scan_opens (hopens : Opens chars) (h : scan fileId ⟨pp, .code, loc, blockStart⟩ chars = .ok out) :
    ∃ more, out.toList = pp ++ ' ' :: more := by
  obtain ⟨pieces, hread⟩ := Reading.exists false chars
  rcases scan_reading hread hread.plain fileId pp loc blockStart with ⟨-, reports, herror⟩ | ⟨hclosed, hok⟩
  · rw [h] at herror
    cases herror
  · rw [h] at hok
    obtain rfl := Except.ok.inj hok
    rw [String.toList_ofList]
    cases hread with
    | code hcode =>
      have hne : chars ≠ [] := by
        rintro rfl
        cases hopens
      have hnot : ¬ Before (Starts false) ([] ++ chars) [] :=
        Before.not_before_nil (Or.inl hopens) hne
      exact absurd hcode hnot
    | @cons code rest piece pieces hcode hpiece hrest =>
      cases code with
      | nil =>
        have hpieceClosed : piece.isUnclosed = false := by
          simp only [List.any_cons, Bool.or_eq_false_iff] at hclosed
          exact hclosed.2.1
        obtain ⟨more, hkept⟩ := hpiece.of_opens hopens hpieceClosed
        refine ⟨more ++ keptText pieces, ?_⟩
        rw [keptText_cons, keptText_cons, hkept]
        rfl
      | cons c code => exact absurd (Or.inl hopens) hcode.1

theorem encode_space (chars : List Char) : (encode (' ' :: chars))[0]? = some 0x20 := by
  have hspace : String.utf8EncodeChar ' ' = [0x20] := by decide
  rw [encode, List.flatMap_cons, hspace]
  rfl

/-- A literal in which a comment is opened does not keep its bytes. -/
theorem scan_literal (hopens : ¬ Before Opens chars [])
    (h : scan fileId ⟨pp, .code, loc, blockStart⟩ (chars ++ rest) = .ok out) :
    ∃ i < (encode chars).length, (textBytes out)[(encode pp).length + i]? ≠ (encode chars)[i]? := by
  rcases before_or_exists Opens chars with hnone | ⟨first, second, rfl, hsecond, hfirst⟩
  · exact absurd hnone hopens
  · obtain ⟨slash, hslash⟩ : ∃ more, second = '/' :: more := by
      cases hsecond with
      | line more => exact ⟨_, rfl⟩
      | block more => exact ⟨_, rfl⟩
    have hopensRest : Opens (second ++ rest) := by
      cases hsecond with
      | line more => exact .line _
      | block more => exact .block _
    have hfirstRest : Before Opens first (second ++ rest) :=
      before_opens_append hfirst (by rw [hslash]; simp)
    rw [List.append_assoc, scan_code hfirstRest] at h
    obtain ⟨more, hout⟩ := scan_opens hopensRest h
    have hlen : 0 < (encode second).length := by
      rw [hslash]
      exact (List.getElem?_eq_some_iff.mp (encode_slash slash)).1
    refine ⟨(encode first).length, by rw [encode_append, List.length_append]; omega, ?_⟩
    have hwritten : (textBytes out)[(encode pp).length + (encode first).length]? = some 0x20 := by
      rw [textBytes_eq, hout, encode_append, encode_append, ← List.length_append,
        List.getElem?_append_right (Nat.le_refl _), Nat.sub_self, encode_space]
    have hread : (encode (first ++ second))[(encode first).length]? = some 0x2f := by
      rw [encode_append, List.getElem?_append_right (Nat.le_refl _), Nat.sub_self, hslash, encode_slash]
    rw [hwritten, hread]
    decide

/-- If the literals of a text keep their bytes, no comment is opened in them. -/
theorem plain_of_kept (hread : Reading strings chars pieces)
    (h : scan fileId ⟨pp, .code, loc, blockStart⟩ chars = .ok out)
    (hkept : ∀ before chars' after, pieces = before ++ .literal chars' :: after →
      ∀ i < (encode chars').length,
        (textBytes out)[(encode pp).length + (offsetOf before + i)]? = (encode chars')[i]?) :
    ∀ piece ∈ pieces, piece.Plain := by
  induction hread generalizing pp loc blockStart with
  | code hcode =>
    intro piece hpiece
    rw [List.mem_singleton.mp hpiece]
    exact trivial
  | @cons code rest piece pieces hcode hpiece hrest ih =>
    rw [scan_code (hcode.mono fun _ hopens => Or.inl hopens)] at h
    have hplain : piece.Plain := by
      cases piece with
      | literal chars' =>
        by_contra hnot
        obtain ⟨i, hi, hne⟩ := scan_literal hnot h
        refine hne ?_
        rw [← hkept [.code code] chars' pieces rfl i hi, encode_append, List.length_append,
          Nat.add_assoc]
        simp [offsetOf, Piece.chars]
      | _ => exact trivial
    have hclosed : piece.isUnclosed = false := by
      cases hpiece with
      | unclosed hbody =>
        simp only [Piece.chars, List.append_nil] at h
        rw [scan_unclosed hbody] at h
        cases h
      | _ => rfl
    obtain ⟨loc', blockStart', hscan⟩ :=
      scan_piece hpiece hplain hclosed fileId (pp ++ code) (loc + code.length) blockStart
    rw [hscan] at h
    refine List.forall_mem_cons.mpr ⟨trivial, List.forall_mem_cons.mpr ⟨hplain, ih h ?_⟩⟩
    rintro before chars' after rfl i hi
    rw [← hkept (.code code :: piece :: before) chars' after rfl i hi]
    congr 1
    simp [offsetOf, Piece.chars, length_encode_kept]
    omega

end Openings

/-! ## String literals of a text -/

/-- In an accepted text every string literal is intact if and only if none of them contains the opening of
a comment. -/
theorem literalsIntact_iff {expr pp : String} {fileId : ℕ} (h : preprocess expr fileId = .ok pp) :
    LiteralsIntact expr pp ↔ LiteralsPlain expr := by
  refine ⟨fun hintact => ?_, literalsIntact_of_plain h⟩
  obtain ⟨pieces, hread⟩ := Reading.exists true expr.toList
  refine (literalsPlain_iff hread).mpr (plain_of_kept hread h ?_)
  rintro before chars after rfl i hi
  rw [encode_nil, List.length_nil, Nat.zero_add]
  exact (hintact before chars after hread).bytes i hi

theorem literalsIntact_iff_plain :
    LiteralsIntact "log(\"a\"); // b" "log(\"a\");     " ↔ LiteralsPlain "log(\"a\"); // b" :=
  literalsIntact_iff (show preprocess "log(\"a\"); // b" 0 = .ok "log(\"a\");     " by decide +kernel)

theorem Starts.head {c : Char} (h : Starts strings (c :: rest)) : c = '/' ∨ c = '"' := by
  rcases h with hopens | ⟨-, hquotes⟩
  · cases hopens <;> exact Or.inl rfl
  · cases hquotes
    exact Or.inr rfl

theorem before_starts {code : List Char} (h : ∀ c ∈ code, c ≠ '/' ∧ c ≠ '"')
    (rest : List Char) : Before (Starts strings) code rest := by
  induction code with
  | nil => exact trivial
  | cons c code ih =>
    obtain ⟨⟨hslash, hquote⟩, hcode⟩ := List.forall_mem_cons.mp h
    refine ⟨fun hstarts => ?_, ih hcode⟩
    rcases hstarts.head with rfl | rfl
    · exact hslash rfl
    · exact hquote rfl

/-- A path with two slashes loses its end. -/
theorem not_literalsIntact :
    ¬ ∀ expr pp fileId, preprocess expr fileId = .ok pp → LiteralsIntact expr pp := by
  intro h
  have hscan : preprocess "include \"a//b.circom\";" 0 = .ok "include \"a            " := by
    decide +kernel
  have hcode : ∀ c ∈ "include ".toList, c ≠ '/' ∧ c ≠ '"' := by simp
  have hend : ∀ c ∈ ";".toList, c ≠ '/' ∧ c ≠ '"' := by simp
  have hbody : LiteralBody "a//b.circom".toList := ⟨by decide, by decide⟩
  have hread : Reading true "include \"a//b.circom\";".toList
      ([.code "include ".toList] ++ .literal "\"a//b.circom\"".toList :: [.code ";".toList]) :=
    Reading.cons (before_starts hcode _) (.literal rfl hbody) (.code (before_starts hend _))
  have hbytes := (h _ _ _ hscan _ _ _ hread).bytes 2 (by decide)
  exact absurd hbytes (by decide +kernel)

end Circom.Parser
