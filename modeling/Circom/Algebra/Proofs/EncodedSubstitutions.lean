import Circom.Algebra.Proofs.Pivot
import Circom.Lib.PartialFold

/-!
# Maps of substitutions

`fast_encoded_constraint_substitution` applies a map of substitutions to a constraint. When no replaced
signal occurs in a replacement, the result has none of them, and assignments that satisfy the
substitutions do not see the difference.
-/

namespace Circom.Algebra.SimplificationUtils

open Circom.Lib (HashMap HashOrder foldlM_invariant)

variable {p : ℕ}
variable {c : C} {subs : List S} {s : S} {k : ℕ}

/-- The substitutions can be applied in any order, and once is enough. -/
structure Independent (subs : List S) : Prop where
  free : ∀ s ∈ subs, ∀ t ∈ subs, s.fromSignal ∉ t.toExpr
  from_ne : ∀ s ∈ subs, s.fromSignal ≠ 0

/-- The signals that a list of substitutions replaces. -/
def replaced (subs : List S) : Finset ℕ := (subs.map fun s => s.fromSignal).toFinset

theorem mem_replaced : k ∈ replaced subs ↔ ∃ s ∈ subs, s.fromSignal = k := by
  simp [replaced]

theorem find_fromSignal (hnodup : (subs.map fun s => s.fromSignal).Nodup)
    (hs : s ∈ subs) : (subs.find? fun t => t.fromSignal = s.fromSignal) = some s := by
  cases hfound : subs.find? (fun t => t.fromSignal = s.fromSignal) with
  | none =>
    rw [List.find?_eq_none] at hfound
    exact absurd (decide_eq_true rfl) (hfound s hs)
  | some t =>
    have heq : t.fromSignal = s.fromSignal := by simpa using List.find?_some hfound
    rw [List.inj_on_of_nodup_map hnodup (List.mem_of_find?_eq_some hfound) hs heq]

/-- The constraint `c'` is `c` after the substitutions, up to an equivalent form. -/
structure Rewrites (p : ℕ) (subs : List S) (c c' : C) : Prop where
  sat_iff : ∀ ρ : ℕ → ZMod p, ρ 0 = 1 → (∀ s ∈ subs, s.Holds ρ) → (c'.Sat ρ ↔ c.Sat ρ)
  mentions : ∀ k, c'.Mentions k → k = 0 ∨ (c.Mentions k ∧ k ∉ replaced subs) ∨
    ∃ s ∈ subs, c.Mentions s.fromSignal ∧ k ∈ s.toExpr
  coeffs : c.CoeffsInField p → c'.CoeffsInField p

/-- No replaced signal is left. -/
theorem Rewrites.notMem_replaced {c' : C} (h : Rewrites p subs c c')
    (hi : Independent subs) (hk : c'.Mentions k) : k ∉ replaced subs := by
  intro hmem
  obtain ⟨s, hs, rfl⟩ := mem_replaced.mp hmem
  rcases h.mentions _ hk with h0 | ⟨-, hnot⟩ | ⟨t, ht, -, hst⟩
  · exact hi.from_ne s hs h0
  · exact hnot hmem
  · exact hi.free s hs t ht hst

/-! ## Linear constraints stay linear -/

/-- A factor that is zero in every way. -/
def Blank (m : HashMap ℕ ℤ) : Prop := ∀ k v, m.lookup k = some v → k = 0 ∧ v = 0

theorem blank_empty : Blank ∅ := by
  intro k v h
  cases h

theorem blank_rawSubstitution {m : HashMap ℕ ℤ} (h : Blank m) (hs : s.fromSignal ≠ 0)
    (field : ℤ) : Blank (rawSubstitution m s field) := by
  have hinit : Blank (initializeHashmapForExpression m) := by
    intro k v hl
    unfold initializeHashmapForExpression at hl
    split_ifs at hl with h0
    · exact h k v hl
    · by_cases hk : k = 0
      · subst hk
        have : (0 : ℕ) = constantCoefficient := rfl
        rw [this, AList.lookup_insert, Option.some.injEq] at hl
        exact ⟨rfl, hl.symm⟩
      · rw [AList.lookup_insert_ne (show k ≠ constantCoefficient from hk)] at hl
        exact h k v hl
  simp only [rawSubstitution]
  cases hl : (initializeHashmapForExpression m).lookup s.fromSignal with
  | none => exact hinit
  | some v => exact absurd (hinit _ v hl).1 hs

theorem removeZero_of_blank {m : HashMap ℕ ℤ} (h : Blank m) :
    Algebra.removeZeroValueCoefficients m = ∅ := by
  rw [← AList.len_eq_zero, AList.len_eq_length_keys, List.length_eq_zero_iff,
    List.eq_nil_iff_forall_not_mem]
  intro k hk
  obtain ⟨v, hv⟩ := AList.mem_iff_exists_lookup.mp (AList.mem_keys.mpr hk)
  obtain ⟨hl, hne⟩ := (lookup_removeZero m k v).mp hv
  exact hne (h k v hl).2

/-- Both factors of the constraint are zero. -/
def BlankFactors (c : C) : Prop := Blank c.a ∧ Blank c.b

theorem BlankFactors.of_isLinear (h : c.isLinear) : BlankFactors c := by
  obtain ⟨ha, hb⟩ := Constraint.isLinear_iff.mp h
  rw [BlankFactors, ha, hb]
  exact ⟨blank_empty, blank_empty⟩

theorem BlankFactors.applySubstitution (h : BlankFactors c)
    (hs : s.fromSignal ≠ 0) (field : ℤ) : BlankFactors (c.applySubstitution s field) :=
  ⟨blank_rawSubstitution h.1 hs field, blank_rawSubstitution h.2 hs field⟩

theorem BlankFactors.isLinear_fix (h : BlankFactors c) (field : ℤ) : (c.fixConstraint field).isLinear := by
  simp only [Constraint.fixConstraint, Constraint.removeZeroValueCoefficients,
    removeZero_of_blank h.1]
  rfl

/-! ## From a list of substitutions to a map -/

/-- The map holds exactly the substitutions of the list. -/
def Encodes (enc : HashMap ℕ A) (subs : List S) : Prop :=
  ∀ k e, enc.lookup k = some e ↔ ∃ s ∈ subs, s.decompose = (k, e)

theorem encodes_build (hnodup : (subs.map fun s => s.fromSignal).Nodup) :
    Encodes (buildEncodedFastSubstitutions subs) subs := by
  intro k e
  rw [buildEncodedFastSubstitutions, AList.lookup_ofPairs, List.mem_map]
  rw [List.map_map]
  exact hnodup

theorem keys_build (subs : List S) :
    (buildEncodedFastSubstitutions subs).keys.toFinset = replaced subs := by
  ext k
  rw [List.mem_toFinset, ← AList.mem_keys, buildEncodedFastSubstitutions, AList.mem_ofPairs, List.map_map,
    mem_replaced]
  exact List.mem_map

theorem Encodes.mem_iff {enc : HashMap ℕ A} (h : Encodes enc subs) : k ∈ enc ↔ k ∈ replaced subs := by
  rw [AList.mem_iff_exists_lookup, mem_replaced]
  constructor
  · rintro ⟨e, he⟩
    obtain ⟨s, hs, hdec⟩ := (h k e).mp he
    exact ⟨s, hs, congrArg Prod.fst hdec⟩
  · rintro ⟨s, hs, rfl⟩
    exact ⟨_, (h _ _).mpr ⟨s, hs, rfl⟩⟩

variable [NeZero p]

/-- Reading a decomposed substitution back. -/
theorem new_decompose (hs : s.fromSignal ≠ 0) (hfree : s.fromSignal ∉ s.toExpr) :
    ∃ t, Substitution.new s.fromSignal s.decompose.2 = some t ∧ t.fromSignal = s.fromSignal ∧
      (∀ k ∈ t.toExpr, k = 0 ∨ k ∈ s.toExpr) ∧
      ∀ ρ : ℕ → ZMod p, ρ 0 = 1 → (t.Holds ρ ↔ s.Holds ρ) := by
  have hlinear : ∃ t, Substitution.new s.fromSignal
      (.linear (initializeHashmapForExpression s.toExpr)) = some t ∧ t.fromSignal = s.fromSignal ∧
      (∀ k ∈ t.toExpr, k = 0 ∨ k ∈ s.toExpr) ∧
      ∀ ρ : ℕ → ZMod p, ρ 0 = 1 → (t.Holds ρ ↔ s.Holds ρ) := by
    have hnot : s.fromSignal ∉ initializeHashmapForExpression s.toExpr := by
      intro hmem
      rcases mem_initialized.mp hmem with h | h
      · exact hs h
      · exact hfree h
    refine ⟨⟨s.fromSignal, initializeHashmapForExpression s.toExpr⟩, ?_, rfl, ?_, ?_⟩
    · simp only [Substitution.new, if_neg hnot]
    · intro k hk
      exact mem_initialized.mp hk
    · intro ρ _
      simp only [Substitution.Holds, eval_initialized]
  simp only [Substitution.decompose, ArithmeticExpression.hashmapIntoArith]
  split
  · next symbol value heq =>
    have heval : ∀ ρ : ℕ → ZMod p, s.toExpr.eval ρ = value * ρ symbol := by
      intro ρ
      simp [AList.eval_eq_sum_pairs, heq]
    have hmem : symbol ∈ s.toExpr := by
      have : symbol ∈ s.toExpr.pairs.map Prod.fst := by rw [heq]; exact List.mem_singleton.mpr rfl
      rwa [AList.pairs_map_fst] at this
    split_ifs with h0 h1
    · refine ⟨⟨s.fromSignal, (∅ : HashMap ℕ ℤ).insert 0 value⟩, rfl, rfl, ?_, ?_⟩
      · intro k hk
        rcases (AList.mem_insert _).mp hk with rfl | hk
        · exact Or.inl rfl
        · cases hk
      · intro ρ h1
        rw [Substitution.Holds, Substitution.Holds, heval, AList.eval_insert_sub]
        have h0' : symbol = 0 := h0
        simp [h0', h1, AList.lookup_empty]
    · refine ⟨⟨s.fromSignal, (∅ : HashMap ℕ ℤ).insert symbol 1⟩, rfl, rfl, ?_, ?_⟩
      · intro k hk
        rcases (AList.mem_insert _).mp hk with rfl | hk
        · exact Or.inr hmem
        · cases hk
      · intro ρ _
        rw [Substitution.Holds, Substitution.Holds, heval, AList.eval_insert_sub, h1]
        simp [AList.lookup_empty]
    · exact hlinear
  · exact hlinear

/-! ## Applying the map -/

omit [NeZero p] in
theorem Rewrites.refl (subs : List S) (hc : ∀ k, c.Mentions k → k ∉ replaced subs) : Rewrites p subs c c :=
  ⟨fun _ _ _ => Iff.rfl, fun k hk => Or.inr (Or.inl ⟨hk, hc k hk⟩), fun h => h⟩

theorem Rewrites.fix {c' : C} (h : Rewrites p subs c c') : Rewrites p subs c (c'.fixConstraint p) := by
  refine ⟨?_, ?_, ?_⟩
  · intro ρ h1 hsubs
    rw [Constraint.sat_fixConstraint c' h1]
    exact h.sat_iff ρ h1 hsubs
  · intro k hk
    rcases Constraint.mentions_fixConstraint hk with h0 | hk
    · exact Or.inl h0
    · exact h.mentions k hk
  · intro hc
    exact Constraint.coeffsInField_fixConstraint (h.coeffs hc)

/-- The constraint after the signals in `done` have been treated. -/
structure Partial (p : ℕ) (subs : List S) (done : List ℕ) (c c' : C) : Prop where
  sat_iff : ∀ ρ : ℕ → ZMod p, ρ 0 = 1 → (∀ s ∈ subs, s.Holds ρ) → (c'.Sat ρ ↔ c.Sat ρ)
  mentions : ∀ k, c'.Mentions k → k = 0 ∨ (c.Mentions k ∧ (k ∈ replaced subs → k ∉ done)) ∨
    ∃ s ∈ subs, c.Mentions s.fromSignal ∧ k ∈ s.toExpr
  coeffs : c.CoeffsInField p → c'.CoeffsInField p
  blank : c.isLinear → BlankFactors c'

theorem fastEncodedConstraintSubstitution_spec (o : HashOrder) {enc : HashMap ℕ A} (henc : Encodes enc subs)
    (hi : Independent subs) (c : C) :
    ∃ c' changed, fastEncodedConstraintSubstitution o c enc p = some (c', changed) ∧
      Rewrites p subs c c' ∧ (changed = false → c' = c) ∧ (c.isLinear → BlankFactors c') := by
  obtain ⟨signals, hsignals⟩ : ∃ l, o.walk c.takeClonedSignals.ascending = l := ⟨_, rfl⟩
  have hmem : ∀ k, k ∈ signals ↔ k ≠ 0 ∧ c.Mentions k := by
    intro k
    rw [← hsignals, HashOrder.mem_walk, Finset.mem_ascending]
    exact Constraint.mem_takeClonedSignals
  suffices hloop : ∃ acc, fastEncodedConstraintSubstitution o c enc p = some acc ∧
      ∃ done, done ++ [] = signals ∧ Partial p subs done c acc.1 ∧ (acc.2 = false → acc.1 = c) by
    obtain ⟨⟨c', changed⟩, hrun, done, hdone, hpart, hsame⟩ := hloop
    rw [List.append_nil] at hdone
    subst hdone
    refine ⟨c', changed, hrun, ⟨hpart.sat_iff, fun k hk => ?_, hpart.coeffs⟩, hsame, hpart.blank⟩
    by_cases h0 : k = 0
    · exact Or.inl h0
    rcases hpart.mentions k hk with h | ⟨hck, himp⟩ | h
    · exact Or.inl h
    · exact Or.inr (Or.inl ⟨hck, fun hr => himp hr ((hmem k).mpr ⟨h0, hck⟩)⟩)
    · exact Or.inr (Or.inr h)
  rw [fastEncodedConstraintSubstitution, hsignals]
  refine foldlM_invariant (fun l (acc : C × Bool) => ∃ done, done ++ l = signals ∧ Partial p subs done c acc.1 ∧
    (acc.2 = false → acc.1 = c)) ?_ ?_
  · rintro x l ⟨c1, changed⟩ ⟨done, hdone, hpart, hsame⟩
    have hx : c.Mentions x := by
      refine ((hmem x).mp ?_).2
      rw [← hdone]
      simp
    have hdone' : (done ++ [x]) ++ l = signals := by
      rw [List.append_assoc]
      exact hdone
    cases hl : enc.lookup x with
    | none =>
      refine ⟨(c1, changed), rfl, done ++ [x], hdone', ⟨hpart.sat_iff, ?_, hpart.coeffs,
        hpart.blank⟩, hsame⟩
      intro k hk
      refine (hpart.mentions k hk).imp_right (Or.imp_left (And.imp_right fun himp hr => ?_))
      rw [List.mem_append, List.mem_singleton]
      rintro (hd | rfl)
      · exact himp hr hd
      · rw [← henc.mem_iff, AList.mem_iff_exists_lookup, hl] at hr
        obtain ⟨e, he⟩ := hr
        cases he
    | some expr =>
      obtain ⟨s, hs, hdec⟩ := (henc x expr).mp hl
      obtain rfl : s.fromSignal = x := congrArg Prod.fst hdec
      obtain rfl : s.decompose.2 = expr := congrArg Prod.snd hdec
      obtain ⟨t, hnew, hfrom, hkeys, hholds⟩ :=
        new_decompose (p := p) (hi.from_ne s hs) (hi.free s hs s hs)
      refine ⟨(c1.applySubstitution t p, true), ?_, done ++ [s.fromSignal], hdone',
        ⟨?_, ?_, ?_, ?_⟩, fun h => by cases h⟩
      · simp only [hnew, Option.bind_eq_bind, Option.bind_some]
      · intro ρ h1 hsubs
        rw [Constraint.sat_applySubstitution c1 ((hholds ρ h1).mpr (hsubs s hs))]
        exact hpart.sat_iff ρ h1 hsubs
      · intro k hk
        rcases Constraint.mentions_applySubstitution hk with h0 | ⟨hk1, hne⟩ | ⟨hkt, -⟩
        · exact Or.inl h0
        · rw [hfrom] at hne
          refine (hpart.mentions k hk1).imp_right (Or.imp_left (And.imp_right fun himp hr => ?_))
          rw [List.mem_append, List.mem_singleton]
          rintro (hd | rfl)
          · exact himp hr hd
          · exact hne rfl
        · exact (hkeys k hkt).imp_right fun hk => Or.inr ⟨s, hs, hx, hk⟩
      · intro hc
        exact Constraint.coeffsInField_applySubstitution (hpart.coeffs hc) t
      · intro hlin
        exact (hpart.blank hlin).applySubstitution (by rw [hfrom]; exact hi.from_ne s hs) p
  · refine ⟨[], rfl, ⟨fun _ _ _ => Iff.rfl, ?_, fun h => h, BlankFactors.of_isLinear⟩, fun _ => rfl⟩
    intro k hk
    exact Or.inr (Or.inl ⟨hk, fun _ => List.not_mem_nil⟩)

end Circom.Algebra.SimplificationUtils
