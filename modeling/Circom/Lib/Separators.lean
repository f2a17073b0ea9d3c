import Mathlib.Data.List.Basic
import Mathlib.Data.Int.Notation
import Mathlib.Data.Nat.Notation
import Mathlib.Tactic.Common

/-!
# Words behind separators

A text that is made of pieces, each behind a separator that occurs in none of them, has only one such
decomposition. The decimal representation of a number ends where something else than a digit follows.
-/

namespace Circom.Lib

variable {α : Type*} {sep : α}
variable {c : Char} {texts : List (Option (List Char))} {m n position : ℕ}

/-- Where the elements of a kind end is determined. -/
theorem append_inj_of_kind {p : α → Prop} {a b x y : List α} (ha : ∀ c ∈ a, p c) (hb : ∀ c ∈ b, p c)
    (hx : ∀ c ∈ x.head?, ¬ p c) (hy : ∀ c ∈ y.head?, ¬ p c) (h : a ++ x = b ++ y) : a = b ∧ x = y := by
  induction a generalizing b with
  | nil =>
    cases b with
    | nil => exact ⟨rfl, h⟩
    | cons c b =>
      rw [List.nil_append] at h
      exact absurd (hb c List.mem_cons_self) (hx c (by rw [h]; rfl))
  | cons c a ih =>
    cases b with
    | nil =>
      rw [List.nil_append] at h
      exact absurd (ha c List.mem_cons_self) (hy c (by rw [← h]; rfl))
    | cons d b =>
      obtain ⟨rfl, hrest⟩ := List.cons.inj h
      obtain ⟨rfl, rfl⟩ := ih (fun c hc => ha c (List.mem_cons_of_mem _ hc))
        (fun c hc => hb c (List.mem_cons_of_mem _ hc)) hrest
      exact ⟨rfl, rfl⟩

/-! ## Pieces -/

variable (sep) in
/-- Every piece stands behind a separator. -/
def joined : List (List α) → List α
  | [] => []
  | piece :: pieces => sep :: (piece ++ joined pieces)

theorem joined_append (pieces pieces' : List (List α)) :
    joined sep (pieces ++ pieces') = joined sep pieces ++ joined sep pieces' := by
  induction pieces with
  | nil => rfl
  | cons piece pieces ih => simp [joined, ih]

theorem joined_head (pieces : List (List α)) : ∀ c ∈ (joined sep pieces).head?, ¬ c ≠ sep := by
  intro c hc hne
  cases pieces with
  | nil => cases hc
  | cons piece pieces =>
    cases hc
    exact hne rfl

theorem ne_of_notMem {piece : List α} (h : sep ∉ piece) : ∀ c ∈ piece, c ≠ sep := by
  rintro c hc rfl
  exact h hc

theorem joined_injective {pieces pieces' : List (List α)} (h : ∀ piece ∈ pieces, sep ∉ piece)
    (h' : ∀ piece ∈ pieces', sep ∉ piece) (heq : joined sep pieces = joined sep pieces') :
    pieces = pieces' := by
  induction pieces generalizing pieces' with
  | nil =>
    cases pieces' with
    | nil => rfl
    | cons piece pieces' => cases heq
  | cons piece pieces ih =>
    cases pieces' with
    | nil => cases heq
    | cons piece' pieces' =>
      obtain ⟨-, heq⟩ := List.cons.inj heq
      obtain ⟨rfl, hrest⟩ := append_inj_of_kind (ne_of_notMem (h piece List.mem_cons_self))
        (ne_of_notMem (h' piece' List.mem_cons_self)) (joined_head pieces) (joined_head pieces') heq
      rw [ih (fun p hp => h p (List.mem_cons_of_mem _ hp))
        (fun p hp => h' p (List.mem_cons_of_mem _ hp)) hrest]

/-- A text of pieces at the end of another begins with one of its pieces. -/
theorem exists_of_joined_eq_append {pieces pieces' : List (List α)} (h : ∀ piece ∈ pieces, sep ∉ piece)
    (h' : ∀ piece ∈ pieces', sep ∉ piece) (hne : pieces' ≠ []) {before : List α}
    (heq : joined sep pieces = before ++ joined sep pieces') :
    ∃ first, pieces = first ++ pieces' ∧ before = joined sep first := by
  induction pieces generalizing before with
  | nil =>
    cases pieces' with
    | nil => exact absurd rfl hne
    | cons piece' pieces' => cases before <;> cases heq
  | cons piece pieces ih =>
    cases before with
    | nil => exact ⟨[], joined_injective h h' heq, rfl⟩
    | cons c before =>
      obtain ⟨rfl, htail⟩ := List.cons.inj heq
      rcases List.append_eq_append_iff.mp htail with ⟨rest, rfl, hrest⟩ | ⟨rest, rfl, hrest⟩
      · obtain ⟨first, rfl, rfl⟩ := ih (fun p hp => h p (List.mem_cons_of_mem _ hp)) hrest
        exact ⟨piece :: first, rfl, rfl⟩
      · cases rest with
        | nil => exact ⟨[before], by simpa using joined_injective (fun p hp =>
            h p (List.mem_cons_of_mem _ hp)) h' (by simpa using hrest.symm), by simp [joined]⟩
        | cons d rest =>
          exfalso
          cases pieces' with
          | nil => exact hne rfl
          | cons piece' pieces' =>
            obtain ⟨rfl, -⟩ := List.cons.inj hrest
            exact h _ List.mem_cons_self (List.mem_append_right _ List.mem_cons_self)

/-! ## Decimals -/

/-- The decimal representation of a number. -/
def decimal (n : ℕ) : List Char := (toString n).toList

theorem decimal_eq (n : ℕ) : decimal n = Nat.toDigits 10 n := by
  rw [decimal, Nat.toString_eq_repr, Nat.toList_repr]

theorem isDigit_of_mem_decimal (h : c ∈ decimal n) : c.isDigit = true := by
  rw [decimal_eq] at h
  exact Nat.isDigit_of_mem_toDigits (by decide) (by decide) h

theorem decimal_injective (h : decimal m = decimal n) : m = n := by
  rw [decimal_eq, decimal_eq] at h
  have hparsed := congrArg (fun digits => Nat.ofDigitChars 10 digits 0) h
  simpa using hparsed

theorem decimal_ne_nil (n : ℕ) : decimal n ≠ [] := by
  rw [decimal_eq]
  exact Nat.toDigits_ne_nil

theorem decimal_append_inj {x y : List Char} (hx : ∀ c ∈ x.head?, ¬ c.isDigit = true)
    (hy : ∀ c ∈ y.head?, ¬ c.isDigit = true) (h : decimal m ++ x = decimal n ++ y) : m = n ∧ x = y := by
  obtain ⟨hdecimal, hrest⟩ := append_inj_of_kind (fun _ => isDigit_of_mem_decimal)
    (fun _ => isDigit_of_mem_decimal) hx hy h
  exact ⟨decimal_injective hdecimal, hrest⟩

theorem notMem_decimal (h : c.isDigit = false) (n : ℕ) : c ∉ decimal n := by
  intro hc
  rw [isDigit_of_mem_decimal hc] at h
  cases h

/-- The text of a list of numbers has only one reading. -/
theorem joined_decimal_injective (hc : c.isDigit = false) {l l' : List ℕ}
    (h : joined c (l.map decimal) = joined c (l'.map decimal)) : l = l' := by
  have hall : ∀ l : List ℕ, ∀ piece ∈ l.map decimal, c ∉ piece := by
    intro l piece hpiece
    obtain ⟨n, -, rfl⟩ := List.mem_map.mp hpiece
    exact notMem_decimal hc n
  exact List.map_injective_iff.mpr (fun _ _ => decimal_injective) (joined_injective (hall l) (hall l') h)

/-- The decimal representation of a number that may be negative. -/
def integer (z : ℤ) : List Char := (toString z).toList

theorem integer_ofNat (n : ℕ) : integer (Int.ofNat n) = decimal n := rfl

theorem integer_negSucc (n : ℕ) : integer (Int.negSucc n) = '-' :: decimal (n + 1) := by
  show ("-" ++ toString (n + 1)).toList = _
  rw [String.toList_append]
  rfl

/-- The characters of numbers. -/
def IsNumeral (c : Char) : Prop := c = '-' ∨ c.isDigit = true

instance (c : Char) : Decidable (IsNumeral c) := inferInstanceAs (Decidable (_ ∨ _))

theorem isNumeral_of_mem_integer {z : ℤ} (h : c ∈ integer z) : IsNumeral c := by
  cases z with
  | ofNat n => exact Or.inr (isDigit_of_mem_decimal h)
  | negSucc n =>
    rw [integer_negSucc] at h
    exact (List.mem_cons.mp h).imp_right isDigit_of_mem_decimal

theorem integer_ne_nil (z : ℤ) : integer z ≠ [] := by
  cases z with
  | ofNat n => exact decimal_ne_nil n
  | negSucc n =>
    rw [integer_negSucc]
    exact List.cons_ne_nil _ _

theorem integer_injective {y z : ℤ} (h : integer y = integer z) : y = z := by
  have hminus (n : ℕ) : '-' ∉ decimal n := notMem_decimal (by decide) n
  cases y with
  | ofNat m =>
    cases z with
    | ofNat n => rw [decimal_injective h]
    | negSucc n =>
      rw [integer_negSucc, integer_ofNat] at h
      exact absurd (h ▸ List.mem_cons_self) (hminus m)
  | negSucc m =>
    cases z with
    | ofNat n =>
      rw [integer_negSucc, integer_ofNat] at h
      exact absurd (h ▸ List.mem_cons_self) (hminus n)
    | negSucc n =>
      rw [integer_negSucc, integer_negSucc] at h
      rw [Nat.succ.inj (decimal_injective (List.cons.inj h).2)]

/-! ## Positions -/

/-- The texts that are there, each behind its position. -/
def positioned (position : ℕ) : List (Option (List Char)) → List (List Char)
  | [] => []
  | none :: texts => positioned (position + 1) texts
  | some text :: texts => (decimal position ++ '_' :: text) :: positioned (position + 1) texts

theorem exists_of_mem_positioned {piece : List Char} (h : piece ∈ positioned position texts) :
    ∃ n text, position ≤ n ∧ some text ∈ texts ∧ piece = decimal n ++ '_' :: text := by
  induction texts generalizing position with
  | nil => cases h
  | cons o texts ih =>
    cases o with
    | none =>
      obtain ⟨n, text, hn, htext, rfl⟩ := ih h
      exact ⟨n, text, Nat.le_of_succ_le hn, List.mem_cons_of_mem _ htext, rfl⟩
    | some text =>
      rcases List.mem_cons.mp h with rfl | h
      · exact ⟨position, text, Nat.le_refl _, List.mem_cons_self, rfl⟩
      · obtain ⟨n, text, hn, htext, rfl⟩ := ih h
        exact ⟨n, text, Nat.le_of_succ_le hn, List.mem_cons_of_mem _ htext, rfl⟩

theorem positioned_piece_inj {text text' : List Char}
    (h : decimal m ++ '_' :: text = decimal n ++ '_' :: text') : m = n ∧ text = text' := by
  have hhead : ∀ rest : List Char, ∀ c ∈ ('_' :: rest).head?, ¬ c.isDigit = true := by
    intro rest c hc
    cases hc
    decide
  obtain ⟨hmn, htext⟩ := decimal_append_inj (hhead text) (hhead text') h
  exact ⟨hmn, (List.cons.inj htext).2⟩

/-- Each position occurs once, so that the texts can be told apart. -/
theorem positioned_injective {texts' : List (Option (List Char))} (hlength : texts.length = texts'.length)
    (h : positioned position texts = positioned position texts') : texts = texts' := by
  induction texts generalizing position texts' with
  | nil => exact (List.length_eq_zero_iff.mp hlength.symm).symm
  | cons o texts ih =>
    cases texts' with
    | nil => cases hlength
    | cons o' texts' =>
      have hlength' := Nat.succ.inj hlength
      cases o with
      | none =>
        cases o' with
        | none => rw [ih hlength' h]
        | some text' =>
          have hmem : decimal position ++ '_' :: text' ∈ positioned (position + 1) texts := by
            rw [show positioned (position + 1) texts = positioned position (some text' :: texts') from h]
            exact List.mem_cons_self
          obtain ⟨n, text, hn, -, heq⟩ := exists_of_mem_positioned hmem
          have := (positioned_piece_inj heq).1
          omega
      | some text =>
        cases o' with
        | none =>
          have hmem : decimal position ++ '_' :: text ∈ positioned (position + 1) texts' := by
            rw [← show positioned position (some text :: texts) = positioned (position + 1) texts' from h]
            exact List.mem_cons_self
          obtain ⟨n, text', hn, -, heq⟩ := exists_of_mem_positioned hmem
          have := (positioned_piece_inj heq).1
          omega
        | some text' =>
          obtain ⟨hpiece, hrest⟩ := List.cons.inj h
          rw [(positioned_piece_inj hpiece).2, ih hlength' hrest]

/-- The piece begins with a digit. -/
def BeginsWithDigit (piece : List Char) : Prop := ∃ c ∈ piece.head?, c.isDigit = true

theorem beginsWithDigit_of_mem_positioned
    {piece : List Char} (h : piece ∈ positioned position texts) : BeginsWithDigit piece := by
  obtain ⟨n, text, -, -, rfl⟩ := exists_of_mem_positioned h
  cases hn : decimal n with
  | nil => exact absurd hn (decimal_ne_nil n)
  | cons c rest => exact ⟨c, rfl, isDigit_of_mem_decimal (hn ▸ List.mem_cons_self)⟩

/-!
## The first place in a list

Reading a list from the left up to the first place at which the rest of it has a property.
-/

variable {α : Type} {P : List α → Prop}

/-- `P` holds of the rest of the list at no place before `after`. -/
def Before (P : List α → Prop) : List α → List α → Prop
  | [], _ => True
  | a :: before, after => ¬ P (a :: (before ++ after)) ∧ Before P before after

@[simp] theorem before_nil (after : List α) : Before P [] after := trivial

@[simp] theorem before_cons {a : α} {before after : List α} :
    Before P (a :: before) after ↔ ¬ P (a :: (before ++ after)) ∧ Before P before after := Iff.rfl

theorem before_append {before middle after : List α} :
    Before P (before ++ middle) after ↔ Before P before (middle ++ after) ∧ Before P middle after := by
  induction before with
  | nil => simp
  | cons a before ih => simp only [List.cons_append, before_cons, List.append_assoc, ih, and_assoc]

/-- The rest of the list lacks the property at every place of the first part. -/
theorem before_iff {before after : List α} :
    Before P before after ↔ ∀ first second, before = first ++ second → second ≠ [] →
      ¬ P (second ++ after) := by
  constructor
  · rintro h first second rfl hne
    obtain ⟨a, second, rfl⟩ := List.exists_cons_of_ne_nil hne
    exact (before_append.mp h).2.1
  · intro h
    induction before with
    | nil => exact trivial
    | cons a before ih =>
      refine ⟨h [] (a :: before) rfl (by simp), ih fun first second heq hne => ?_⟩
      exact h (a :: first) second (by rw [heq]; rfl) hne

theorem Before.mono {Q : List α → Prop} {before after : List α} (h : Before P before after)
    (hmono : ∀ l, Q l → P l) : Before Q before after := by
  induction before with
  | nil => exact trivial
  | cons a before ih => exact ⟨fun hq => h.1 (hmono _ hq), ih h.2⟩

/-- Either the property holds nowhere or there is a first place at which it holds. -/
theorem before_or_exists (P : List α → Prop) (l : List α) :
    Before P l [] ∨ ∃ before after, l = before ++ after ∧ P after ∧ Before P before after := by
  induction l with
  | nil => exact Or.inl trivial
  | cons a l ih =>
    by_cases ha : P (a :: l)
    · exact Or.inr ⟨[], a :: l, rfl, ha, trivial⟩
    · rcases ih with h | ⟨before, after, rfl, hafter, h⟩
      · refine Or.inl ⟨?_, h⟩
        rwa [List.append_nil]
      · exact Or.inr ⟨a :: before, after, rfl, hafter, ha, h⟩

/-- There is only one first place. -/
theorem Before.unique {before before' after after' : List α} (heq : before ++ after = before' ++ after')
    (h : Before P before after) (hafter : P after) (h' : Before P before' after') (hafter' : P after') :
    before = before' ∧ after = after' := by
  induction before generalizing before' with
  | nil =>
    cases before' with
    | nil => exact ⟨rfl, heq⟩
    | cons a before' =>
      rw [List.nil_append] at heq
      rw [heq] at hafter
      exact absurd hafter h'.1
  | cons a before ih =>
    cases before' with
    | nil =>
      rw [List.nil_append] at heq
      rw [← heq] at hafter'
      exact absurd hafter' h.1
    | cons b before' =>
      obtain ⟨rfl, htail⟩ := List.cons.inj heq
      obtain ⟨rfl, rfl⟩ := ih htail h.2 h'.2
      exact ⟨rfl, rfl⟩

/-- A place at which the property holds is not before the first one. -/
theorem Before.not_before_nil {before after : List α} (hafter : P after) (hne : after ≠ []) :
    ¬ Before P (before ++ after) [] := by
  intro h
  obtain ⟨a, after, rfl⟩ := List.exists_cons_of_ne_nil hne
  have ha := (before_append.mp h).2.1
  rw [List.append_nil] at ha
  exact ha hafter

end Circom.Lib
