import Circom.Algebra.CompressedStorage
import Circom.Algebra.Proofs.Constraint
import Circom.Lib.PartialFold

/-!
# The storage of constraints is a vector

Runs of operations of the compressed storage beside the same operations on a vector of constraints. A
constraint that is read back has the entries of the one that was stored, but its hash tables were built
anew, so equality is equality of three finite maps.
-/

/-!
## The compressed storage keeps its constraints

The table of coefficients only grows, so what a constraint decodes to never changes; the operations act
on the decoded constraints as on a vector.
-/

namespace Circom.Algebra

open Circom.Lib (HashMap HashOrder toSignedBytesLe getElem?_of_forall₂ forall₂_set)

variable {tracker tracker' : FieldTracker}
variable {cExpr : CompressedExpr} {entries : List (ℕ × ℤ)}

/-! ## Expressions -/

/-- The compressed expression stands for the entries. -/
def Codes (tracker : FieldTracker) (cExpr : CompressedExpr) (entries : List (ℕ × ℤ)) : Prop :=
  List.Forall₂ (fun code entry => code.2 = entry.1 ∧
    tracker.getConstant code.1 = some (toSignedBytesLe entry.2)) cExpr entries

theorem Codes.mono (h : Codes tracker cExpr entries) (hg : tracker.Grows tracker') : Codes tracker' cExpr entries :=
  h.imp fun _ _ hcode => ⟨hcode.1, hg _ _ hcode.2⟩

/-- One round interns one coefficient; the entries coded before keep theirs. -/
theorem codeEntry_spec (htracker : tracker.WellFormed) (h : Codes tracker cExpr entries) (entry : ℕ × ℤ) :
    (codeEntry (cExpr, tracker) entry).2.WellFormed ∧
      tracker.Grows (codeEntry (cExpr, tracker) entry).2 ∧
      Codes (codeEntry (cExpr, tracker) entry).2 (codeEntry (cExpr, tracker) entry).1
        (entries ++ [entry]) := by
  have hgrows := tracker.grows_insert (toSignedBytesLe entry.2)
  refine ⟨htracker.insert _, hgrows, List.rel_append (h.mono hgrows) ?_⟩
  exact .cons ⟨rfl, htracker.getConstant_insert _⟩ .nil

theorem foldl_codeEntry_spec (l : List (ℕ × ℤ)) :
    ∀ (tracker : FieldTracker) (cExpr : CompressedExpr) (entries : List (ℕ × ℤ)),
      tracker.WellFormed → Codes tracker cExpr entries →
      (l.foldl codeEntry (cExpr, tracker)).2.WellFormed ∧
        tracker.Grows (l.foldl codeEntry (cExpr, tracker)).2 ∧
        Codes (l.foldl codeEntry (cExpr, tracker)).2 (l.foldl codeEntry (cExpr, tracker)).1
          (entries ++ l) := by
  induction l with
  | nil => exact fun tracker cExpr entries htracker h => ⟨htracker, .refl _, by simpa using h⟩
  | cons entry l ih =>
    intro tracker cExpr entries htracker h
    obtain ⟨hwf, hgrows, hcodes⟩ := codeEntry_spec htracker h entry
    obtain ⟨hwf', hgrows', hcodes'⟩ := ih _ _ _ hwf hcodes
    rw [List.append_assoc] at hcodes'
    exact ⟨hwf', hgrows.trans hgrows', hcodes'⟩

theorem decodeExpr_of_codes
    (h : Codes tracker cExpr entries) : decodeExpr cExpr tracker = some (AList.ofPairs entries) := by
  suffices hfold : ∀ m : HashMap ℕ ℤ, cExpr.foldlM (decodeEntry tracker) m =
      some (entries.foldl (fun m e => m.insert e.1 e.2) m) from hfold ∅
  induction h with
  | nil => exact fun m => rfl
  | cons hcode _ ih =>
    intro m
    rw [List.foldlM_cons, List.foldl_cons, ← ih]
    simp [decodeEntry, hcode.1, hcode.2]

/-- What an expression decodes to does not depend on the constants that come later. -/
theorem decodeExpr_mono (hg : tracker.Grows tracker') {expr : HashMap ℕ ℤ}
    (h : decodeExpr cExpr tracker = some expr) : decodeExpr cExpr tracker' = some expr := by
  unfold decodeExpr at *
  generalize (∅ : HashMap ℕ ℤ) = m at *
  induction cExpr generalizing m with
  | nil => exact h
  | cons entry cExpr ih =>
    rw [List.foldlM_cons] at h ⊢
    obtain ⟨m', hm', h⟩ := Option.bind_eq_some_iff.mp h
    obtain ⟨raw, hraw, hins⟩ := Option.bind_eq_some_iff.mp hm'
    have hentry : decodeEntry tracker' m entry = some m' := by
      rw [decodeEntry, hg _ _ hraw]
      exact hins
    rw [hentry]
    exact ih m' h

/-- An expression decodes to the same finite map, whatever integers its coefficients are. -/
theorem codeExpression_spec (o : HashOrder) (htracker : tracker.WellFormed) (expr : HashMap ℕ ℤ) :
    (codeExpression o expr tracker).2.WellFormed ∧
      tracker.Grows (codeExpression o expr tracker).2 ∧
      ∃ decoded, decodeExpr (codeExpression o expr tracker).1 (codeExpression o expr tracker).2 =
        some decoded ∧ ∀ k, decoded.lookup k = expr.lookup k := by
  obtain ⟨hwf, hgrows, hcodes⟩ :=
    foldl_codeEntry_spec (o.walk expr.pairs) tracker [] [] htracker .nil
  refine ⟨hwf, hgrows, _, decodeExpr_of_codes hcodes, fun k => ?_⟩
  have hnodup : ((o.walk expr.pairs).map Prod.fst).Nodup := by
    rw [((o.walk_perm expr.pairs).map Prod.fst).nodup_iff, AList.pairs_map_fst]
    exact expr.keys_nodup
  refine Option.ext fun v => ?_
  rw [List.nil_append, AList.lookup_ofPairs hnodup, HashOrder.mem_walk, AList.mem_pairs_iff_lookup]

/-! ## Constraints -/

theorem decodeConstraint_mono (hg : tracker.Grows tracker') {compressed : CompressedConstraint}
    {constraint : Constraint ℕ} (h : decodeConstraint compressed tracker = some constraint) :
    decodeConstraint compressed tracker' = some constraint := by
  obtain ⟨a, b, c⟩ := compressed
  simp only [decodeConstraint, Option.bind_eq_bind, Option.bind_eq_some_iff] at h ⊢
  obtain ⟨a', ha, b', hb, c', hc, heq⟩ := h
  exact ⟨a', decodeExpr_mono hg ha, b', decodeExpr_mono hg hb, c', decodeExpr_mono hg hc, heq⟩

theorem codeConstraint_spec (o : HashOrder) (htracker : tracker.WellFormed)
    (constraint : Constraint ℕ) :
    (codeConstraint o constraint tracker).2.WellFormed ∧
      tracker.Grows (codeConstraint o constraint tracker).2 ∧
      ∃ decoded, decodeConstraint (codeConstraint o constraint tracker).1
        (codeConstraint o constraint tracker).2 = some decoded ∧ decoded.SameMaps constraint := by
  obtain ⟨hwfA, hgA, a, hdA, ha⟩ := codeExpression_spec (o.sub 0) htracker constraint.a
  obtain ⟨hwfB, hgB, b, hdB, hb⟩ := codeExpression_spec (o.sub 1) hwfA constraint.b
  obtain ⟨hwfC, hgC, c, hdC, hc⟩ := codeExpression_spec (o.sub 2) hwfB constraint.c
  refine ⟨hwfC, (hgA.trans hgB).trans hgC, ⟨a, b, c⟩, ?_, ha, hb, hc⟩
  simp only [decodeConstraint, codeConstraint, Option.bind_eq_bind]
  -- the later factors are interned after `a` and `b` were coded
  rw [decodeExpr_mono (hgB.trans hgC) hdA, decodeExpr_mono hgC hdB, hdC]
  rfl

/-! ## The storage -/

namespace CompressedStorage

/-- The storage decodes to the vector of constraints. -/
structure Decodes (storage : CompressedStorage) (constraints : List (Constraint ℕ)) : Prop where
  wellFormed : storage.fieldTracker.WellFormed
  decoded : List.Forall₂ (fun compressed c =>
    decodeConstraint compressed storage.fieldTracker = some c) storage.constraints constraints

theorem decodes_new : new.Decodes [] := ⟨ConstantTracker.wellFormed_new, .nil⟩

variable {storage : CompressedStorage} {constraints : List (Constraint ℕ)}

theorem Decodes.mono (h : storage.Decodes constraints) (hg : storage.fieldTracker.Grows tracker') :
    List.Forall₂ (fun compressed c => decodeConstraint compressed tracker' = some c)
      storage.constraints constraints :=
  h.decoded.imp fun _ _ hd => decodeConstraint_mono hg hd

theorem Decodes.length_eq (h : storage.Decodes constraints) :
    storage.constraints.length = constraints.length := h.decoded.length_eq

/-- The constraints stored before are not touched. -/
theorem Decodes.addConstraint (h : storage.Decodes constraints) (o : HashOrder)
    (constraint : Constraint ℕ) :
    (storage.addConstraint o constraint).2 = constraints.length ∧
      ∃ decoded : Constraint ℕ, decoded.SameMaps constraint ∧
        (storage.addConstraint o constraint).1.Decodes (constraints ++ [decoded]) := by
  obtain ⟨hwf, hgrows, decoded, hd, hsame⟩ := codeConstraint_spec o h.wellFormed constraint
  refine ⟨h.length_eq, decoded, hsame, hwf, ?_⟩
  exact List.rel_append (h.mono hgrows) (.cons hd .nil)

/-- A constraint that is read never panics. -/
theorem Decodes.readConstraint (h : storage.Decodes constraints) (id : ℕ) :
    storage.readConstraint id = some constraints[id]? := by
  unfold CompressedStorage.readConstraint
  cases hid : storage.constraints[id]? with
  | none =>
    rw [List.getElem?_eq_none_iff, h.length_eq] at hid
    rw [List.getElem?_eq_none hid]
  | some compressed =>
    obtain ⟨c, hc, hd⟩ := getElem?_of_forall₂ h.decoded hid
    simp [hc, hd]

theorem Decodes.replace (h : storage.Decodes constraints) (o : HashOrder) (id : ℕ)
    (new : Constraint ℕ) :
    ∃ decoded : Constraint ℕ, decoded.SameMaps new ∧
      (storage.replace o id new).Decodes (constraints.set id decoded) := by
  obtain ⟨hwf, hgrows, decoded, hd, hsame⟩ := codeConstraint_spec o h.wellFormed new
  refine ⟨decoded, hsame, ?_⟩
  unfold CompressedStorage.replace
  split_ifs with hid
  · exact ⟨hwf, forall₂_set (h.mono hgrows) id hd⟩
  · rw [List.set_eq_of_length_le (by rw [← h.length_eq]; omega)]
    exact h

/-- The walk of `extract_with`, from what it has collected so far. -/
theorem foldlM_extractEntry {compressed : List CompressedConstraint}
    (h : List.Forall₂ (fun compressed c => decodeConstraint compressed tracker = some c) compressed
      constraints) (filter : Constraint ℕ → Bool)
    (acc : List (Constraint ℕ) × List CompressedConstraint) :
    ∃ kept, compressed.foldlM (extractEntry tracker filter) acc =
        some (acc.1 ++ constraints.filter filter, acc.2 ++ kept) ∧
      List.Forall₂ (fun compressed c => decodeConstraint compressed tracker = some c) kept
        (constraints.filter fun c => !filter c) := by
  induction h generalizing acc with
  | nil => exact ⟨[], by simp, .nil⟩
  | @cons code c codes constraints hd _ ih =>
    rw [List.foldlM_cons]
    by_cases hf : filter c
    · obtain ⟨kept, hrun, hkept⟩ := ih (acc.1 ++ [c], acc.2)
      refine ⟨kept, by simp [extractEntry, hd, hf, hrun], ?_⟩
      rwa [List.filter_cons_of_neg (by simp [hf])]
    · obtain ⟨kept, hrun, hkept⟩ := ih (acc.1, acc.2 ++ [code])
      refine ⟨code :: kept, by simp [extractEntry, hd, hf, hrun], ?_⟩
      rw [List.filter_cons_of_pos (by simp [hf])]
      exact .cons hd hkept

/-- Both parts keep the order of the constraints. -/
theorem Decodes.extractWith (h : storage.Decodes constraints) (filter : Constraint ℕ → Bool) :
    ∃ storage', storage.extractWith filter = some (storage', constraints.filter filter) ∧
      storage'.Decodes (constraints.filter fun c => !filter c) := by
  obtain ⟨kept, hrun, hkept⟩ := foldlM_extractEntry h.decoded filter ([], [])
  exact ⟨⟨storage.fieldTracker, kept⟩, by simp [CompressedStorage.extractWith, hrun],
    h.wellFormed, hkept⟩

end CompressedStorage

/-! ## The storage of constraints is a vector -/

/-! ## Operations and answers -/

/-- A filter of constraints that sees three finite maps, but not the order of their entries. -/
structure ConstraintFilter where
  holds : Constraint ℕ → Bool
  sameMaps : ∀ c d : Constraint ℕ, c.SameMaps d → holds c = holds d

theorem len_eq_of_lookup {m m' : HashMap ℕ ℤ} (h : ∀ k, m.lookup k = m'.lookup k) : m.len = m'.len :=
  (AList.entries_perm_of_lookup h).length_eq

/-- The filter with which the simplification drops the empty constraints. -/
def ConstraintFilter.isEmpty : ConstraintFilter where
  holds := Constraint.isEmpty
  sameMaps := fun c d ⟨ha, hb, hc⟩ => by
    rw [Constraint.isEmpty, Constraint.isEmpty, len_eq_of_lookup ha, len_eq_of_lookup hb,
      len_eq_of_lookup hc]

inductive StorageOperation where
  | addConstraint (constraint : Constraint ℕ)
  | replace (id : ℕ) (new : Constraint ℕ)
  | readConstraint (id : ℕ)
  | extractWith (filter : ConstraintFilter)

/-- What an operation returns. -/
inductive StorageAnswer where
  | id (id : ℕ)
  | done
  | constraint (constraint : Option (Constraint ℕ))
  | constraints (removed : List (Constraint ℕ))

/-- Equal answers, up to the order of the entries of their hash tables. -/
inductive StorageAnswer.Same : StorageAnswer → StorageAnswer → Prop
  | id (id : ℕ) : Same (.id id) (.id id)
  | done : Same .done .done
  | constraint {c d : Option (Constraint ℕ)} (h : Option.Rel Constraint.SameMaps c d) :
    Same (.constraint c) (.constraint d)
  | constraints {l l' : List (Constraint ℕ)} (h : List.Forall₂ Constraint.SameMaps l l') :
    Same (.constraints l) (.constraints l')

namespace CompressedStorage

def step (o : HashOrder) (storage : CompressedStorage) :
    StorageOperation → Option (CompressedStorage × StorageAnswer)
  | .addConstraint constraint =>
    let (storage, id) := storage.addConstraint o constraint
    some (storage, .id id)
  | .replace id new => some (storage.replace o id new, .done)
  | .readConstraint id => do
    let constraint ← storage.readConstraint id
    some (storage, .constraint constraint)
  | .extractWith filter => do
    let (storage, removed) ← storage.extractWith filter.holds
    some (storage, .constraints removed)

/-- Every operation walks over hash tables in an order of its own. -/
def run (o : HashOrder) : CompressedStorage → List StorageOperation →
    Option (CompressedStorage × List StorageAnswer)
  | storage, [] => some (storage, [])
  | storage, operation :: operations => do
    let (storage, answer) ← step (o.sub 0) storage operation
    let (storage, answers) ← run (o.sub 1) storage operations
    some (storage, answer :: answers)

end CompressedStorage

namespace ConstraintStorage

def step (storage : ConstraintStorage) : StorageOperation → ConstraintStorage × StorageAnswer
  | .addConstraint constraint =>
    let (storage, id) := storage.addConstraint constraint
    (storage, .id id)
  | .replace id new => (storage.replace id new, .done)
  | .readConstraint id => (storage, .constraint (storage.readConstraint id))
  | .extractWith filter =>
    let (storage, removed) := storage.extractWith filter.holds
    (storage, .constraints removed)

def run : ConstraintStorage → List StorageOperation → ConstraintStorage × List StorageAnswer
  | storage, [] => (storage, [])
  | storage, operation :: operations =>
    let (storage, answer) := storage.step operation
    let (storage, answers) := run storage operations
    (storage, answer :: answers)

end ConstraintStorage

/-! ## The refinement -/

namespace CompressedStorage

/-- The storage decodes to the constraints of the vector. -/
def Refines (storage : CompressedStorage) (vector : ConstraintStorage) : Prop :=
  ∃ constraints, storage.Decodes constraints ∧
    List.Forall₂ Constraint.SameMaps constraints vector.constraints

theorem refines_new : new.Refines ConstraintStorage.new := ⟨[], decodes_new, .nil⟩

theorem Refines.readConstraint {storage : CompressedStorage} {vector : ConstraintStorage}
    (h : storage.Refines vector) (id : ℕ) :
    ∃ c, storage.readConstraint id = some c ∧
      Option.Rel Constraint.SameMaps c (vector.readConstraint id) := by
  obtain ⟨constraints, hdec, hsame⟩ := h
  refine ⟨constraints[id]?, hdec.readConstraint id, ?_⟩
  rw [ConstraintStorage.readConstraint]
  cases hid : constraints[id]? with
  | none =>
    rw [List.getElem?_eq_none_iff, hsame.length_eq] at hid
    rw [List.getElem?_eq_none hid]
    exact .none
  | some c =>
    obtain ⟨d, hd, hcd⟩ := getElem?_of_forall₂ hsame hid
    rw [hd]
    exact .some hcd

/-- One operation. -/
theorem Refines.step {storage : CompressedStorage} {vector : ConstraintStorage}
    (h : storage.Refines vector) (o : HashOrder) (operation : StorageOperation) :
    ∃ storage' answer, storage.step o operation = some (storage', answer) ∧
      storage'.Refines (vector.step operation).1 ∧ answer.Same (vector.step operation).2 := by
  obtain ⟨constraints, hdec, hsame⟩ := h
  cases operation with
  | addConstraint constraint =>
    obtain ⟨hid, decoded, hd, hdec'⟩ := hdec.addConstraint o constraint
    refine ⟨_, .id vector.constraints.length, ?_, ⟨_, hdec', List.rel_append hsame (.cons hd .nil)⟩,
      .id _⟩
    rw [← hsame.length_eq, ← hid]
    rfl
  | replace id new =>
    obtain ⟨decoded, hd, hdec'⟩ := hdec.replace o id new
    exact ⟨_, _, rfl, ⟨_, hdec', Lib.forall₂_set hsame id hd⟩, .done⟩
  | readConstraint id =>
    obtain ⟨c, hc, hrel⟩ := Refines.readConstraint ⟨constraints, hdec, hsame⟩ id
    exact ⟨storage, .constraint c, by simp [CompressedStorage.step, hc], ⟨constraints, hdec, hsame⟩,
      .constraint hrel⟩
  | extractWith filter =>
    obtain ⟨storage', hrun, hdec'⟩ := hdec.extractWith filter.holds
    have hremoved : List.Forall₂ Constraint.SameMaps (constraints.filter filter.holds)
        (vector.constraints.filter filter.holds) :=
      List.rel_filter (fun c d hcd => by simp [filter.sameMaps c d hcd]) hsame
    have hkept : List.Forall₂ Constraint.SameMaps (constraints.filter fun c => !filter.holds c)
        (vector.constraints.filter fun c => !filter.holds c) :=
      List.rel_filter (fun c d hcd => by simp [filter.sameMaps c d hcd]) hsame
    exact ⟨storage', .constraints (constraints.filter filter.holds),
      by simp [CompressedStorage.step, hrun], ⟨_, hdec', hkept⟩, .constraints hremoved⟩

/-- A whole run. -/
theorem Refines.run (operations : List StorageOperation) :
    ∀ {storage : CompressedStorage} {vector : ConstraintStorage}, storage.Refines vector →
      ∀ o : HashOrder, ∃ storage' answers, storage.run o operations = some (storage', answers) ∧
        storage'.Refines (vector.run operations).1 ∧
        List.Forall₂ StorageAnswer.Same answers (vector.run operations).2 := by
  induction operations with
  | nil => exact fun h o => ⟨_, [], rfl, h, .nil⟩
  | cons operation operations ih =>
    intro storage vector h o
    obtain ⟨storage₁, answer, hstep, h₁, hanswer⟩ := h.step (o.sub 0) operation
    obtain ⟨storage₂, answers, hrun, h₂, hanswers⟩ := ih h₁ (o.sub 1)
    exact ⟨storage₂, answer :: answers, by simp [CompressedStorage.run, hstep, hrun], h₂,
      .cons hanswer hanswers⟩

/-- Every run answers as the vector does and no step of it panics. In the state it ends in, a constraint
that is added or replaced leaves what the others are read as unchanged, and any filter splits the
constraints that can be read into two parts, both in their old order. -/
theorem run_refines_vector (o : HashOrder) (operations : List StorageOperation) :
    ∃ storage answers, run o new operations = some (storage, answers) ∧
      List.Forall₂ StorageAnswer.Same answers (ConstraintStorage.new.run operations).2 ∧
      (∀ id, ∃ c, storage.readConstraint id = some c ∧ Option.Rel Constraint.SameMaps c
        ((ConstraintStorage.new.run operations).1.readConstraint id)) ∧
      (∀ (o' : HashOrder) (c : Constraint ℕ), ∀ id < storage.constraints.length,
        (storage.addConstraint o' c).1.readConstraint id = storage.readConstraint id) ∧
      (∀ (o' : HashOrder) (pos : ℕ) (c : Constraint ℕ), ∀ id, id ≠ pos →
        (storage.replace o' pos c).readConstraint id = storage.readConstraint id) ∧
      ∀ filter : Constraint ℕ → Bool, ∃ (all : List (Constraint ℕ)) (storage' : CompressedStorage),
        (∀ id, storage.readConstraint id = some all[id]?) ∧
        storage.extractWith filter = some (storage', all.filter filter) ∧
        ∀ id, storage'.readConstraint id = some (all.filter fun c => !filter c)[id]? := by
  obtain ⟨storage, answers, hrun, href, hanswers⟩ := refines_new.run operations o
  obtain ⟨constraints, hdec, -⟩ := id href
  refine ⟨storage, answers, hrun, hanswers, href.readConstraint, ?added, ?replaced, ?filtered⟩
  case added =>
    intro o' c id hid
    obtain ⟨-, decoded, -, hdec'⟩ := hdec.addConstraint o' c
    rw [hdec'.readConstraint, hdec.readConstraint,
      List.getElem?_append_left (by rwa [← hdec.length_eq])]
  case replaced =>
    intro o' pos c id hid
    obtain ⟨decoded, -, hdec'⟩ := hdec.replace o' pos c
    rw [hdec'.readConstraint, hdec.readConstraint, List.getElem?_set_ne (Ne.symm hid)]
  case filtered =>
    intro filter
    obtain ⟨storage', hext, hdec'⟩ := hdec.extractWith filter
    exact ⟨constraints, storage', hdec.readConstraint, hext, hdec'.readConstraint⟩

/-- The coefficient of the new constraint is in the table already. -/
example : (run HashOrder.listOrder new [.addConstraint ⟨∅, ∅, AList.ofPairs [(1, -1), (2, 128)]⟩,
    .addConstraint Constraint.empty, .replace 0 ⟨∅, ∅, AList.ofPairs [(1, 128)]⟩,
    .extractWith .isEmpty]).map (fun r => (r.1.getIds, r.1.noConstants)) = some ([0], 2) := by
  decide +kernel

end CompressedStorage

end Circom.Algebra
