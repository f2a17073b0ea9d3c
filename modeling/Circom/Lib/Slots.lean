import Mathlib.Data.List.Range
import Mathlib.Data.Nat.Notation

/-!
# Slots for the operands of expressions

An expression is evaluated operand after operand. The values that have been computed are kept in slots, which are
numbered with a counter: an operand starts behind the slots that hold the operands before it. Then no slot is
written as long as its value is needed, except by checks that keep slots of their own.
-/

namespace Circom.Lib.Slots

inductive Term where
  /-- The value is computed from the operands, and it is written to the slot. -/
  | value (slot : ℕ) (operands : List Term)
  /-- Nothing is computed: who needs the value reads the operands. -/
  | through (operands : List Term)
  /-- The operands are read after the checks have been evaluated. -/
  | checked (operands checks : List Term)

namespace Term

mutual

/-- The slots that have to be read for the value. -/
def held : Term → List ℕ
  | value slot _ => [slot]
  | through operands => heldAll operands
  | checked operands _ => heldAll operands

def heldAll : List Term → List ℕ
  | [] => []
  | term :: terms => held term ++ heldAll terms

end

mutual

/-- The slots that are written when the term is evaluated. -/
def assigned : Term → List ℕ
  | value slot operands => slot :: assignedAll operands
  | through operands => assignedAll operands
  | checked operands checks => assignedAll operands ++ assignedAll checks

def assignedAll : List Term → List ℕ
  | [] => []
  | term :: terms => assigned term ++ assignedAll terms

end

mutual

/-- No slot is written while its value is needed, neither that of a term by its operands nor that of an operand by
a later one or by a check. -/
def Safe : Term → Prop
  | value slot operands => slot ∉ assignedAll operands ∧ SafeAll operands
  | through operands => SafeAll operands
  | checked operands checks => SafeAll operands ∧ EachSafe checks ∧ ∀ slot ∈ heldAll operands, slot ∉ assignedAll checks

def SafeAll : List Term → Prop
  | [] => True
  | term :: terms => Safe term ∧ (∀ slot ∈ held term, slot ∉ assignedAll terms) ∧ SafeAll terms

/-- Of these terms the values are not kept. -/
def EachSafe : List Term → Prop
  | [] => True
  | term :: terms => Safe term ∧ EachSafe terms

end

mutual

/-- The term with its slots numbered from `n` on. Checks are left as they are. -/
def number (n : ℕ) : Term → Term
  | value _ operands => value n (numberAll (n + 1) operands)
  | through operands => through (numberAll n operands)
  | checked operands checks => checked (numberAll n operands) checks

def numberAll (n : ℕ) : List Term → List Term
  | [] => []
  | term :: terms => number n term :: numberAll (n + (held term).length) terms

end

mutual

/-- How many slots are in use at the nodes of the term, when `n` are in use before. -/
def inUse (n : ℕ) : Term → List ℕ
  | value _ operands => (n + 1) :: inUseAll (n + 1) operands
  | through operands => n :: inUseAll n operands
  | checked operands _ => n :: inUseAll n operands

def inUseAll (n : ℕ) : List Term → List ℕ
  | [] => []
  | term :: terms => inUse n term ++ inUseAll (n + (held term).length) terms

end

/-- Checks that are evaluated while the slots are needed too. -/
def keeping (slots : List ℕ) (checks : List (List ℕ × Term)) : List (List ℕ × Term) :=
  checks.map fun check => (slots ++ check.1, check.2)

mutual

/-- The checks of a term whose slots are numbered from `n` on, with the slots that are needed when they are evaluated:
those of the operands before and of the values that are being computed. -/
def checks (n : ℕ) : Term → List (List ℕ × Term)
  | value _ operands => keeping [n] (checksAll (n + 1) operands)
  | through operands => checksAll n operands
  | checked operands checks =>
    checksAll n operands ++ keeping (List.range' n (heldAll operands).length) (checks.map ([], ·))

def checksAll (n : ℕ) : List Term → List (List ℕ × Term)
  | [] => []
  | term :: terms => checks n term ++
    keeping (List.range' n (held term).length) (checksAll (n + (held term).length) terms)

end

/-- The check writes no slot that is needed. -/
structure Fits (check : List ℕ × Term) : Prop where
  safe : check.2.Safe
  disjoint : ∀ slot ∈ check.1, slot ∉ check.2.assigned

/-! ## Lists of terms -/

theorem heldAll_append (ts us : List Term) : heldAll (ts ++ us) = heldAll ts ++ heldAll us := by
  induction ts with
  | nil => rfl
  | cons t ts ih =>
    show held t ++ heldAll (ts ++ us) = held t ++ heldAll ts ++ heldAll us
    rw [ih, List.append_assoc]

theorem length_heldAll_cons (t : Term) (ts : List Term) :
    (heldAll (t :: ts)).length = (held t).length + (heldAll ts).length :=
  List.length_append

theorem numberAll_append (n : ℕ) (ts us : List Term) :
    numberAll n (ts ++ us) = numberAll n ts ++ numberAll (n + (heldAll ts).length) us := by
  induction ts generalizing n with
  | nil => rfl
  | cons t ts ih =>
    show number n t :: numberAll _ (ts ++ us) = number n t :: (numberAll _ ts ++ numberAll _ us)
    rw [ih, length_heldAll_cons, Nat.add_assoc]

theorem inUseAll_append (n : ℕ) (ts us : List Term) :
    inUseAll n (ts ++ us) = inUseAll n ts ++ inUseAll (n + (heldAll ts).length) us := by
  induction ts generalizing n with
  | nil => rfl
  | cons t ts ih =>
    show inUse n t ++ inUseAll _ (ts ++ us) = inUse n t ++ inUseAll _ ts ++ inUseAll _ us
    rw [ih, length_heldAll_cons, Nat.add_assoc, List.append_assoc]

/-! ## Checks -/

/-- A check writes the slot. -/
def Written (checks : List (List ℕ × Term)) (s : ℕ) : Prop := ∃ check ∈ checks, s ∈ assigned check.2

theorem mem_assignedAll {ts : List Term} {s : ℕ} : s ∈ assignedAll ts ↔ ∃ t ∈ ts, s ∈ assigned t := by
  induction ts with
  | nil => simp [assignedAll]
  | cons t ts ih => rw [assignedAll, List.mem_append, ih, List.exists_mem_cons_iff]

theorem eachSafe_iff {ts : List Term} : EachSafe ts ↔ ∀ t ∈ ts, Safe t := by
  induction ts with
  | nil => exact ⟨fun _ => nofun, fun _ => trivial⟩
  | cons t ts ih => rw [EachSafe, ih, List.forall_mem_cons]

section

variable {slots : List ℕ} {checks checks' : List (List ℕ × Term)} {s : ℕ}

theorem written_keeping : Written (keeping slots checks) s ↔ Written checks s := by
  simp only [Written, keeping, List.mem_map, exists_exists_and_eq_and]

theorem written_append : Written (checks ++ checks') s ↔ Written checks s ∨ Written checks' s := by
  simp only [Written, List.mem_append, or_and_right, exists_or]

theorem written_loose {ts : List Term} : Written (ts.map (([], ·) : Term → List ℕ × Term)) s ↔ s ∈ assignedAll ts := by
  simp only [Written, List.mem_map, exists_exists_and_eq_and, mem_assignedAll]

theorem fits_keeping :
    (∀ check ∈ keeping slots checks, Fits check) ↔
      (∀ slot ∈ slots, ¬ Written checks slot) ∧ ∀ check ∈ checks, Fits check := by
  refine ⟨fun h => ⟨fun slot hslot ⟨check, hcheck, hs⟩ => ?_, fun check hcheck => ?_⟩, fun h check hcheck => ?_⟩
  · exact (h _ (List.mem_map_of_mem hcheck)).disjoint slot (List.mem_append_left _ hslot) hs
  · have hfits := h _ (List.mem_map_of_mem hcheck)
    exact ⟨hfits.safe, fun slot hslot => hfits.disjoint slot (List.mem_append_right _ hslot)⟩
  · obtain ⟨c, hc, rfl⟩ := List.mem_map.mp hcheck
    refine ⟨(h.2 c hc).safe, fun slot hslot hs => ?_⟩
    rcases List.mem_append.mp hslot with hslot | hslot
    · exact h.1 slot hslot ⟨c, hc, hs⟩
    · exact (h.2 c hc).disjoint slot hslot hs

end

/-- Of these checks nothing is needed. -/
theorem fits_loose {ts : List Term} : (∀ check ∈ ts.map (([], ·) : Term → List ℕ × Term), Fits check) ↔ EachSafe ts := by
  rw [eachSafe_iff, List.forall_mem_map]
  exact ⟨fun h t ht => (h t ht).safe, fun h t ht => ⟨h t ht, nofun⟩⟩

/-! ## Numbered terms -/

mutual

/-- A numbered term is held in the next slots. -/
theorem held_number (n : ℕ) : ∀ t : Term, held (number n t) = List.range' n (held t).length
  | value _ _ => rfl
  | through operands => heldAll_numberAll n operands
  | checked operands _ => heldAll_numberAll n operands

theorem heldAll_numberAll (n : ℕ) : ∀ ts : List Term,
    heldAll (numberAll n ts) = List.range' n (heldAll ts).length
  | [] => rfl
  | t :: ts => by
    show held (number n t) ++ heldAll (numberAll _ ts) = _
    rw [held_number n t, heldAll_numberAll _ ts, length_heldAll_cons, List.range'_append_1]

end

mutual

/-- A slot that is written is one of the next slots and in use, or a check writes it. -/
theorem mem_assigned_number {n s : ℕ} : ∀ {t : Term}, s ∈ assigned (number n t) →
    (n ≤ s ∧ ∃ r ∈ inUse n t, s < r) ∨ Written (checks n t) s
  | value _ operands, h => by
    rcases List.mem_cons.mp h with rfl | h
    · exact Or.inl ⟨Nat.le_refl _, _, List.mem_cons_self, Nat.lt_succ_self _⟩
    · rcases mem_assignedAll_numberAll h with ⟨hle, r, hr, hlt⟩ | hs
      · exact Or.inl ⟨by omega, r, List.mem_cons_of_mem _ hr, hlt⟩
      · exact Or.inr (written_keeping.mpr hs)
  | through operands, h => by
    rcases mem_assignedAll_numberAll h with ⟨hle, r, hr, hlt⟩ | hs
    · exact Or.inl ⟨hle, r, List.mem_cons_of_mem _ hr, hlt⟩
    · exact Or.inr hs
  | checked operands cs, h => by
    rw [checks, written_append, written_keeping, written_loose]
    rcases List.mem_append.mp h with h | h
    · rcases mem_assignedAll_numberAll h with ⟨hle, r, hr, hlt⟩ | hs
      · exact Or.inl ⟨hle, r, List.mem_cons_of_mem _ hr, hlt⟩
      · exact Or.inr (Or.inl hs)
    · exact Or.inr (Or.inr h)

theorem mem_assignedAll_numberAll {n s : ℕ} : ∀ {ts : List Term}, s ∈ assignedAll (numberAll n ts) →
    (n ≤ s ∧ ∃ r ∈ inUseAll n ts, s < r) ∨ Written (checksAll n ts) s
  | [], h => nomatch h
  | t :: ts, h => by
    rw [checksAll, written_append, written_keeping]
    rcases List.mem_append.mp h with h | h
    · rcases mem_assigned_number h with ⟨hle, r, hr, hlt⟩ | hs
      · exact Or.inl ⟨hle, r, List.mem_append_left _ hr, hlt⟩
      · exact Or.inr (Or.inl hs)
    · rcases mem_assignedAll_numberAll h with ⟨hle, r, hr, hlt⟩ | hs
      · exact Or.inl ⟨by omega, r, List.mem_append_right _ hr, hlt⟩
      · exact Or.inr (Or.inr hs)

end

mutual

/-- What a check writes is written. -/
theorem assigned_of_checks {n s : ℕ} : ∀ {t : Term}, Written (checks n t) s → s ∈ assigned (number n t)
  | value _ operands, h => List.mem_cons_of_mem _ (assignedAll_of_checksAll (written_keeping.mp h))
  | through operands, h => assignedAll_of_checksAll h
  | checked operands cs, h => by
    rw [checks, written_append, written_keeping, written_loose] at h
    exact List.mem_append.mpr (h.imp_left assignedAll_of_checksAll)

theorem assignedAll_of_checksAll {n s : ℕ} : ∀ {ts : List Term}, Written (checksAll n ts) s →
    s ∈ assignedAll (numberAll n ts)
  | [], h => by
    obtain ⟨_, hcheck, -⟩ := h
    cases hcheck
  | t :: ts, h => by
    rw [checksAll, written_append, written_keeping] at h
    exact List.mem_append.mpr (h.imp assigned_of_checks assignedAll_of_checksAll)

end

/-- A slot before the numbered ones is only written by checks. -/
theorem notMem_assignedAll_iff {n s : ℕ} (h : s < n) {ts : List Term} :
    s ∉ assignedAll (numberAll n ts) ↔ ¬ Written (checksAll n ts) s := by
  refine ⟨mt assignedAll_of_checksAll, fun hs hmem => ?_⟩
  rcases mem_assignedAll_numberAll hmem with ⟨hle, -⟩ | hwritten
  · omega
  · exact hs hwritten

mutual

/-- Numbered slots are safe but for the checks. -/
theorem safe_number_iff (n : ℕ) : ∀ t : Term, Safe (number n t) ↔ ∀ check ∈ checks n t, Fits check
  | value _ operands => by
    rw [number, Safe, notMem_assignedAll_iff (Nat.lt_succ_self n), safeAll_numberAll_iff (n + 1) operands, checks,
      fits_keeping, List.forall_mem_singleton]
  | through operands => safeAll_numberAll_iff n operands
  | checked operands cs => by
    rw [number, Safe, safeAll_numberAll_iff n operands, heldAll_numberAll, checks, List.forall_mem_append, fits_keeping,
      fits_loose]
    simp only [written_loose]
    exact and_congr_right' and_comm

theorem safeAll_numberAll_iff (n : ℕ) : ∀ ts : List Term,
    SafeAll (numberAll n ts) ↔ ∀ check ∈ checksAll n ts, Fits check
  | [] => ⟨fun _ => nofun, fun _ => trivial⟩
  | t :: ts => by
    have hheld : (∀ slot ∈ List.range' n (held t).length, slot ∉ assignedAll (numberAll (n + (held t).length) ts)) ↔
        ∀ slot ∈ List.range' n (held t).length, ¬ Written (checksAll (n + (held t).length) ts) slot := by
      refine forall₂_congr fun slot hslot => notMem_assignedAll_iff ?_
      rw [List.mem_range'_1] at hslot
      exact hslot.2
    rw [numberAll, SafeAll, safe_number_iff n t, held_number, hheld, safeAll_numberAll_iff _ ts, checksAll,
      List.forall_mem_append, fits_keeping]

end

mutual

/-- The slots that hold a term are in use. -/
theorem exists_inUse_ge (n : ℕ) : ∀ t : Term, ∃ r ∈ inUse n t, n + (held t).length ≤ r
  | value _ _ => ⟨n + 1, List.mem_cons_self, Nat.le_refl _⟩
  | through operands | checked operands _ => by
    rcases exists_inUseAll_ge n operands with h | ⟨r, hr, hle⟩
    · exact ⟨n, List.mem_cons_self, Nat.le_of_eq (by rw [held, h]; rfl)⟩
    · exact ⟨r, List.mem_cons_of_mem _ hr, hle⟩

theorem exists_inUseAll_ge (n : ℕ) : ∀ ts : List Term,
    heldAll ts = [] ∨ ∃ r ∈ inUseAll n ts, n + (heldAll ts).length ≤ r
  | [] => Or.inl rfl
  | t :: ts => by
    rw [length_heldAll_cons]
    rcases exists_inUseAll_ge (n + (held t).length) ts with h | ⟨r, hr, hle⟩
    · obtain ⟨r, hr, hle⟩ := exists_inUse_ge n t
      exact Or.inr ⟨r, List.mem_append_left _ hr, by rw [h]; exact hle⟩
    · exact Or.inr ⟨r, List.mem_append_right _ hr, by omega⟩

end

mutual

/-- What holds a term has been written. -/
theorem assigned_of_held {s : ℕ} : ∀ {t : Term}, s ∈ held t → s ∈ assigned t
  | value _ _, h => List.mem_singleton.mp h ▸ List.mem_cons_self
  | through _, h => assignedAll_of_heldAll h
  | checked _ _, h => List.mem_append_left _ (assignedAll_of_heldAll h)

theorem assignedAll_of_heldAll {s : ℕ} : ∀ {ts : List Term}, s ∈ heldAll ts → s ∈ assignedAll ts
  | [], h => nomatch h
  | t :: ts, h => by
    rcases List.mem_append.mp h with h | h
    · exact List.mem_append_left _ (assigned_of_held h)
    · exact List.mem_append_right _ (assignedAll_of_heldAll h)

end

theorem held_eq_nil_of_assigned {t : Term} (h : assigned t = []) : held t = [] :=
  List.eq_nil_iff_forall_not_mem.mpr fun _ hs => List.not_mem_nil (h ▸ assigned_of_held hs)

mutual

/-- A term that writes slots writes the next one, or a check writes slots. -/
theorem first_mem_assigned {n s : ℕ} : ∀ {t : Term}, s ∈ assigned t →
    n ∈ assigned (number n t) ∨ ∃ s', Written (checks n t) s'
  | value _ _, _ => Or.inl List.mem_cons_self
  | through operands, h => first_mem_assignedAll h
  | checked operands cs, h => by
    simp only [checks, written_append, written_keeping, written_loose, exists_or]
    rcases List.mem_append.mp h with h | h
    · exact (first_mem_assignedAll h).imp (List.mem_append_left _) Or.inl
    · exact Or.inr (Or.inr ⟨s, h⟩)

theorem first_mem_assignedAll {n s : ℕ} : ∀ {ts : List Term}, s ∈ assignedAll ts →
    n ∈ assignedAll (numberAll n ts) ∨ ∃ s', Written (checksAll n ts) s'
  | [], h => nomatch h
  | t :: ts, h => by
    simp only [numberAll, assignedAll, checksAll, List.mem_append, written_append, written_keeping, exists_or]
    by_cases ht : assigned t = []
    · have hfirst : n + (held t).length = n := by
        rw [held_eq_nil_of_assigned ht]
        rfl
      rw [assignedAll, ht] at h
      rw [hfirst]
      exact (first_mem_assignedAll h).imp Or.inr Or.inr
    · obtain ⟨s', hs'⟩ := List.exists_mem_of_ne_nil _ ht
      exact (first_mem_assigned hs').imp Or.inl Or.inl

end

mutual

/-- The number of slots does not matter for whether there are any. -/
theorem assigned_number_eq_nil (n : ℕ) : ∀ {t : Term}, assigned t = [] → assigned (number n t) = []
  | value _ _, h => nomatch h
  | through _, h => assignedAll_numberAll_eq_nil n h
  | checked operands cs, h => by
    obtain ⟨hoperands, hcs⟩ := List.append_eq_nil_iff.mp h
    rw [number, assigned, assignedAll_numberAll_eq_nil n hoperands, hcs]
    rfl

theorem assignedAll_numberAll_eq_nil (n : ℕ) : ∀ {ts : List Term}, assignedAll ts = [] →
    assignedAll (numberAll n ts) = []
  | [], _ => rfl
  | t :: ts, h => by
    obtain ⟨ht, hts⟩ := List.append_eq_nil_iff.mp h
    rw [numberAll, assignedAll, assigned_number_eq_nil n ht, assignedAll_numberAll_eq_nil _ hts]
    rfl

end

end Term

end Circom.Lib.Slots
