import Circom.Algebra.Proofs.Elimination
import Circom.Lib.PartialFold

/-!
# Normalization and back substitution

The pivots are divided by their coefficients and then substituted into each other, in an order in which
no right-hand side has a signal that comes later. The result mentions no replaced signal any more.
-/

namespace Circom.Algebra

open Circom.Lib (HashMap HashOrder exists_mapM forall₂_of_mapM exists_of_forall₂_right
  map_eq_of_forall₂)
open ModularArithmetic (InField)

namespace ArithmeticExpression

variable {K : Type} [DecidableEq K] [Inhabited K] {p : ℕ}

/-- The coefficients of an affine expression are canonical. -/
def Canonical (p : ℕ) : ArithmeticExpression K → Prop
  | .number value => InField p value
  | .linear m => CoeffsInField p m
  | _ => True

theorem mul_number_right_canonical [NeZero p] {e : ArithmeticExpression K} (h : e.Affine) (v : ℤ) :
    (mul e (.number v) p).Canonical p := by
  cases e with
  | number => exact ModularArithmetic.mul_inField _ _
  | linear m => exact coeffsInField_multiply _ _
  | signal | quadratic | nonQuadratic => exact h.elim

/-- An affine expression without the signal gives a substitution of the signal. -/
theorem substitution_new_affine [hp : Fact p.Prime] {e : ArithmeticExpression K} (h : e.Affine)
    {k : K} (hk : ¬ e.Mentions k) :
    ∃ s, Substitution.new k e = some s ∧ s.fromSignal = k ∧
      (∀ y ∈ s.toExpr, y = constantCoefficient ∨ e.Mentions y) ∧
      (e.Canonical p → CoeffsInField p s.toExpr) ∧
      ∀ ρ : K → ZMod p, ρ constantCoefficient = 1 → s.toExpr.eval ρ = e.eval ρ := by
  cases e with
  | number value =>
    refine ⟨_, rfl, rfl, fun y hy => Or.inl ?_, fun hv y v hl => ?_, fun ρ h1 => ?_⟩
    · exact ((AList.mem_insert _).mp hy).elim id fun h => absurd h (AList.notMem_empty y)
    · by_cases hy : y = constantCoefficient
      · subst hy
        rw [AList.lookup_insert, Option.some.injEq] at hl
        exact hl ▸ hv
      · rw [AList.lookup_insert_ne hy] at hl
        cases hl
    · rw [AList.eval_insert_of_notMem ρ (AList.notMem_empty _), h1, AList.eval_empty]
      simp [eval]
  | linear m =>
    exact ⟨⟨k, m⟩, if_neg hk, rfl, fun y hy => Or.inr hy, id, fun ρ _ => rfl⟩
  | signal | quadratic | nonQuadratic => exact h.elim

end ArithmeticExpression

namespace SimplificationUtils

variable {p : ℕ} {forbidden : Finset ℕ} {known : Set ℕ} [hp : Fact p.Prime]
variable {pairs : List (ℕ × S)} {values : List ℤ} {holder : SHNotNormalized}

/-! ## Normalization -/

/-- The pivot divided by its coefficient. -/
structure NormalForm (p : ℕ) (pivot : ℤ × S) (s : S) : Prop where
  from_eq : s.fromSignal = pivot.2.fromSignal
  keys : ∀ y ∈ s.toExpr, y ∈ pivot.2.toExpr
  coeffs : CoeffsInField p s.toExpr
  holds_iff : ∀ ρ : ℕ → ZMod p, ρ 0 = 1 → (s.Holds ρ ↔ PivotHolds ρ pivot)

theorem normalize_pivot {pivot : ℤ × S} (h : PivotOk p pivot) {inv : ℤ}
    (hinv : (inv : ZMod p) = (pivot.1 : ZMod p)⁻¹) :
    ∃ s, Substitution.new pivot.2.fromSignal (ArithmeticExpression.mul
      (ArithmeticExpression.hashmapIntoArith pivot.2.toExpr) (.number inv) p) = some s ∧
      NormalForm p pivot s := by
  obtain ⟨ha, hak⟩ := ArithmeticExpression.hashmapIntoArith_affine h.constantMem
  obtain ⟨hm, hmk⟩ := ArithmeticExpression.mul_number_right_affine inv ha p
  obtain ⟨s, hs, hfrom, hkeys, hcoeffs, hev⟩ := ArithmeticExpression.substitution_new_affine (p := p) hm
    (k := pivot.2.fromSignal) fun hk => h.fromNotMem (hak _ (hmk _ hk))
  refine ⟨s, hs, hfrom, fun y hy => ?_,
    hcoeffs (ArithmeticExpression.mul_number_right_canonical ha inv), fun ρ h1 => ?_⟩
  · exact (hkeys y hy).elim (fun h0 => h0 ▸ h.constantMem) fun hy => hak y (hmk y hy)
  · have hunit := h.unit
    rw [Substitution.Holds, PivotHolds, hfrom, hev ρ h1,
      ArithmeticExpression.mul_spec _ _ hm.ne_nonQuadratic,
      ArithmeticExpression.eval_hashmapIntoArith h1, ArithmeticExpression.eval, hinv]
    constructor
    · intro h; rw [h]; field_simp
    · intro h; rw [← h]; field_simp

/-- A table of pivots with invertible coefficients. -/
def Invertible (p : ℕ) (holder : SHNotNormalized) : Prop :=
  ∀ k c s, holder.lookup k = some (c, s) → ¬ (p : ℤ) ∣ c

theorem cast_ne_zero_of_invertible (h : Invertible p holder) {k : ℕ} {c : ℤ} {s : S}
    (hl : holder.lookup k = some (c, s)) : (c : ZMod p) ≠ 0 := by
  rw [Ne, ZMod.intCast_zmod_eq_zero_iff_dvd]
  exact h k c s hl

/-- The inverses are stored at the positions of their coefficients. -/
theorem multiInv_of_invertible (h : Invertible p holder) :
    ∃ inverses,
      ModularArithmetic.multiInv (holder.ascendingPairs.map fun e => e.2.1) p = some inverses ∧
      ∀ (i k : ℕ) (c : ℤ) (s : S), holder.ascendingPairs[i]? = some (k, (c, s)) →
        ∃ inv : ℤ, inverses[i]? = some inv ∧ (inv : ZMod p) = (c : ZMod p)⁻¹ := by
  obtain ⟨inverses, hinv, hlen, hspec⟩ := ModularArithmetic.multiInv_eq_some (p := p)
    (holder.ascendingPairs.map fun e => e.2.1) (by
      simp only [List.mem_map]
      rintro v ⟨⟨k, c, s⟩, he, rfl⟩
      exact cast_ne_zero_of_invertible h (AList.mem_ascendingPairs.mp he))
  refine ⟨inverses, hinv, fun i k c s hi => ?_⟩
  obtain ⟨hlt, hget⟩ := List.getElem?_eq_some_iff.mp hi
  have hilt : i < inverses.length := by rw [hlen, List.length_map]; omega
  obtain ⟨-, hinvi⟩ := hspec i (by simpa using hlt)
  rw [List.getD_eq_getElem _ _ hilt, List.getD_eq_getElem _ _ (by simpa using hlt)] at hinvi
  simp only [List.getElem_map, hget] at hinvi
  exact ⟨inverses[i], List.getElem?_eq_getElem hilt, hinvi⟩

/-- One turn of the loop of `normalize_substitutions`. -/
def normalizeTurn (inverses : List ℤ) (field : ℤ) : (ℕ × ℤ × S) × ℕ → Option (ℕ × S)
  | ((signal, (_, sub)), i) => do
    let inv ← inverses[i]?
    let arithSub := ArithmeticExpression.hashmapIntoArith sub.toExpr
    let multByInverse := ArithmeticExpression.mul arithSub (.number inv) field
    some (signal, ← Substitution.new signal multByInverse)

theorem normalizeSubstitutions_eq {field : ℤ} {inverses : List ℤ}
    (h : ModularArithmetic.multiInv (holder.ascendingPairs.map fun e => e.2.1) field = some inverses) :
    normalizeSubstitutions holder field =
      (holder.ascendingPairs.zipIdx.mapM (normalizeTurn inverses field)).map AList.ofPairs := by
  simp only [normalizeSubstitutions, h, Option.bind_eq_bind, Option.bind_some, Option.map_eq_bind]
  rfl

/-- The loop ends when every turn gives a substitution. -/
theorem exists_normalizeSubstitutions (hinv : Invertible p holder)
    (hturn : ∀ k c s (inv : ℤ), holder.lookup k = some (c, s) → (inv : ZMod p) = (c : ZMod p)⁻¹ →
      ∃ t, Substitution.new k (ArithmeticExpression.mul
        (ArithmeticExpression.hashmapIntoArith s.toExpr) (.number inv) p) = some t) :
    ∃ tree, normalizeSubstitutions holder p = some tree := by
  obtain ⟨inverses, hm, hspec⟩ := multiInv_of_invertible hinv
  have hturns : ∀ a ∈ holder.ascendingPairs.zipIdx,
      ∃ b, normalizeTurn inverses p a = some b ∧ b.1 = a.1.1 := by
    rintro ⟨⟨k, c, s⟩, i⟩ ha
    have hi := List.mem_zipIdx_iff_getElem?.mp ha
    obtain ⟨inv, hget, hcast⟩ := hspec i k c s hi
    have hl := AList.mem_ascendingPairs.mp (List.mem_of_getElem? hi)
    obtain ⟨t, ht⟩ := hturn k c s inv hl hcast
    exact ⟨(k, t), by simp [normalizeTurn, hget, ht], rfl⟩
  obtain ⟨l, hl, -⟩ := exists_mapM hturns
  exact ⟨AList.ofPairs l, by rw [normalizeSubstitutions_eq hm, hl, Option.map_some]⟩

/-- Every entry of the result comes from the turn of its own pivot. -/
theorem normalizeSubstitutions_turns (hinv : Invertible p holder) {tree : SH}
    (h : normalizeSubstitutions holder p = some tree) :
    (∀ k, k ∈ tree ↔ k ∈ holder) ∧ ∀ k t, tree.lookup k = some t →
      ∃ c s, ∃ inv : ℤ, holder.lookup k = some (c, s) ∧ (inv : ZMod p) = (c : ZMod p)⁻¹ ∧
        Substitution.new k (ArithmeticExpression.mul
          (ArithmeticExpression.hashmapIntoArith s.toExpr) (.number inv) p) = some t := by
  obtain ⟨inverses, hm, hspec⟩ := multiInv_of_invertible hinv
  rw [normalizeSubstitutions_eq hm, Option.map_eq_some_iff] at h
  obtain ⟨l, hl, rfl⟩ := h
  have hall := forall₂_of_mapM hl
  have hkey : ∀ a b, normalizeTurn inverses p a = some b → b.1 = a.1.1 := by
    rintro ⟨⟨k, c, s⟩, i⟩ b hb
    simp only [normalizeTurn, Option.bind_eq_bind, Option.bind_eq_some_iff] at hb
    obtain ⟨_, _, _, _, hb⟩ := hb
    cases hb
    rfl
  have hfst : l.map Prod.fst = holder.ascendingKeys := by
    rw [← AList.map_fst_ascendingPairs, ← List.zipIdx_map_fst 0 holder.ascendingPairs, List.map_map]
    exact map_eq_of_forall₂ hall hkey
  refine ⟨fun k => ?_, fun k t hlk => ?_⟩
  · rw [AList.mem_ofPairs, hfst, AList.mem_ascendingKeys]
  · obtain ⟨⟨⟨k', c, s⟩, i⟩, ha, hb⟩ :=
      exists_of_forall₂_right hall (AList.mem_of_lookup_ofPairs hlk)
    have hi := List.mem_zipIdx_iff_getElem?.mp ha
    obtain ⟨inv, hget, hcast⟩ := hspec i k' c s hi
    simp only [normalizeTurn, hget, Option.bind_eq_bind, Option.bind_some,
      Option.bind_eq_some_iff] at hb
    obtain ⟨t', ht', hb⟩ := hb
    cases hb
    exact ⟨c, s, inv, AList.mem_ascendingPairs.mp (List.mem_of_getElem? hi), hcast, ht'⟩

omit hp in
theorem Eliminated.invertible {lconst : List C}
    (h : Eliminated p forbidden known holder lconst) : Invertible p holder := by
  intro k c s hl
  rw [← ZMod.intCast_zmod_eq_zero_iff_dvd]
  exact (h.pivot k (c, s) hl).2.2.unit

theorem normalizeSubstitutions_spec {lconst : List C} (h : Eliminated p forbidden known holder lconst) :
    ∃ tree, normalizeSubstitutions holder p = some tree ∧ (∀ k, k ∈ tree ↔ k ∈ holder) ∧
      ∀ k s, tree.lookup k = some s → ∃ pivot, holder.lookup k = some pivot ∧
        NormalForm p pivot s := by
  have hturn : ∀ k c s (inv : ℤ), holder.lookup k = some (c, s) →
      (inv : ZMod p) = (c : ZMod p)⁻¹ → ∃ t, Substitution.new k (ArithmeticExpression.mul
        (ArithmeticExpression.hashmapIntoArith s.toExpr) (.number inv) p) = some t ∧
        NormalForm p (c, s) t := by
    intro k c s inv hl hcast
    obtain ⟨hfrom, -, hok⟩ := h.pivot k (c, s) hl
    obtain ⟨t, ht, hnf⟩ := normalize_pivot hok hcast
    exact ⟨t, hfrom ▸ ht, hnf⟩
  obtain ⟨tree, htree⟩ := exists_normalizeSubstitutions h.invertible fun k c s inv hl hcast =>
    (hturn k c s inv hl hcast).imp fun _ ht => ht.1
  obtain ⟨hkeys, hturns⟩ := normalizeSubstitutions_turns h.invertible htree
  refine ⟨tree, htree, hkeys, fun k t hl => ?_⟩
  obtain ⟨c, s, inv, hholder, hcast, hnew⟩ := hturns k t hl
  obtain ⟨t', ht', hnf⟩ := hturn k c s inv hholder hcast
  obtain rfl : t' = t := Option.some.inj (ht'.symm.trans hnew)
  exact ⟨(c, s), hholder, hnf⟩

/-! ## Applying substitutions one after the other -/

theorem toExpr_foldl_applySubstitution (l : List S) (s : S) (field : ℤ) :
    (l.foldl (fun s t => s.applySubstitution t field) s).toExpr =
      l.foldl (fun m t => rawSubstitution m t field) s.toExpr := by
  induction l generalizing s with
  | nil => rfl
  | cons t l ih => exact ih _

theorem foldl_applySubstitution_from (l : List S) (s : S) (field : ℤ) :
    (l.foldl (fun s t => s.applySubstitution t field) s).fromSignal = s.fromSignal := by
  induction l generalizing s with
  | nil => rfl
  | cons t l ih => exact ih _

theorem coeffsInField_foldl_applySubstitution (l : List S) {s : S}
    (h : CoeffsInField p s.toExpr) :
    CoeffsInField p (l.foldl (fun s t => s.applySubstitution t p) s).toExpr := by
  induction l generalizing s with
  | nil => exact h
  | cons t l ih => exact ih (coeffsInField_rawSubstitution h t)

theorem holds_foldl_applySubstitution {l : List S} {ρ : ℕ → ZMod p} (hl : ∀ t ∈ l, t.Holds ρ)
    (s : S) : (l.foldl (fun s t => s.applySubstitution t p) s).Holds ρ ↔ s.Holds ρ := by
  induction l generalizing s with
  | nil => rfl
  | cons t l ih =>
    rw [List.foldl_cons, ih fun t' ht' => hl t' (List.mem_cons_of_mem t ht')]
    simp only [Substitution.Holds, Substitution.applySubstitution,
      eval_rawSubstitution_of_eq _ (hl t List.mem_cons_self)]

/-! ## Back substitution -/

/-- A list of substitutions in an order fit for back substitution. -/
structure Triangular (pairs : List (ℕ × S)) : Prop where
  nodup : (pairs.map Prod.fst).Nodup
  from_eq : ∀ e ∈ pairs, e.2.fromSignal = e.1
  ne_zero : ∀ e ∈ pairs, e.1 ≠ 0
  notMem_self : ∀ e ∈ pairs, e.1 ∉ e.2.toExpr
  notMem_later : pairs.Pairwise fun x y => y.1 ∉ x.2.toExpr

/-- Both versions of the source, for an order given as a list. -/
def nonoverlapping (o : HashOrder) (field : ℤ) (pairs : List (ℕ × S)) : HashMap ℕ S :=
  pairs.foldl (fun noOverlap e => addNonoverlapping (o.sub e.1) field noOverlap e.1 e.2) ∅

/-- A map of substitutions equivalent to a list of them, whose right-hand sides mention no replaced
signal. -/
structure BackSubstituted (p : ℕ) (pairs : List (ℕ × S)) (m : HashMap ℕ S) : Prop where
  mem_iff : ∀ k, k ∈ m ↔ k ∈ pairs.map Prod.fst
  from_eq : ∀ k s, m.lookup k = some s → s.fromSignal = k
  free : ∀ k s, m.lookup k = some s → ∀ y ∈ s.toExpr, y ∉ pairs.map Prod.fst
  keys : ∀ k s, m.lookup k = some s → ∀ y ∈ s.toExpr, y = 0 ∨ ∃ x ∈ pairs, y ∈ x.2.toExpr
  coeffs : (∀ x ∈ pairs, CoeffsInField p x.2.toExpr) →
    ∀ k s, m.lookup k = some s → CoeffsInField p s.toExpr
  holds_iff : ∀ ρ : ℕ → ZMod p,
    (∀ k s, m.lookup k = some s → s.Holds ρ) ↔ ∀ e ∈ pairs, e.2.Holds ρ

theorem forall_lookup_insert {V : Type} {m : HashMap ℕ V} {k : ℕ} (hk : k ∉ m) (v : V)
    {P : ℕ → V → Prop} : (∀ k' v', (m.insert k v).lookup k' = some v' → P k' v') ↔
      (∀ k' v', m.lookup k' = some v' → P k' v') ∧ P k v := by
  constructor
  · intro h
    refine ⟨fun k' v' hl => h k' v' ?_, h k v (AList.lookup_insert m)⟩
    rwa [AList.lookup_insert_ne]
    rintro rfl
    exact hk (AList.mem_iff_exists_lookup.mpr ⟨v', hl⟩)
  · rintro ⟨h1, h2⟩ k' v' hl
    by_cases hkk : k' = k
    · subst hkk
      rw [AList.lookup_insert, Option.some.injEq] at hl
      exact hl ▸ h2
    · exact h1 k' v' (by rwa [AList.lookup_insert_ne hkk] at hl)

/-- One round: the substitution of `e` is freed of the signals treated before. -/
theorem BackSubstituted.add {e : ℕ × S} (ht : Triangular (pairs ++ [e])) {m : HashMap ℕ S}
    (h : BackSubstituted p pairs m) (o : HashOrder) :
    BackSubstituted p (pairs ++ [e]) (addNonoverlapping o p m e.1 e.2) := by
  have hnd := ht.nodup
  rw [List.map_append, List.nodup_append] at hnd
  have hnot : e.1 ∉ m := fun hm => hnd.2.2 _ ((h.mem_iff _).mp hm) e.1 (by simp) rfl
  have hlater : ∀ x ∈ pairs, e.1 ∉ x.2.toExpr := fun x hx =>
    (List.pairwise_append.mp ht.notMem_later).2.2 x hx e (by simp)
  have he : e ∈ pairs ++ [e] := by simp
  have happly : ∀ t, t ∈ takeSubstitutionsToBeApplied o m e.2 ↔
      ∃ y ∈ e.2.toExpr, m.lookup y = some t := fun t => by
    simp [takeSubstitutionsToBeApplied, AList.mem_keys]
  set s' := (takeSubstitutionsToBeApplied o m e.2).foldl (fun s t => s.applySubstitution t p) e.2
    with hs'
  have hkeys : ∀ y ∈ s'.toExpr, y = 0 ∨ (y ∈ e.2.toExpr ∧ y ∉ m) ∨
      ∃ k t, m.lookup k = some t ∧ y ∈ t.toExpr := fun y hy => by
    rw [toExpr_foldl_applySubstitution] at hy
    rcases mem_foldl_rawSubstitution hy with h0 | ⟨h1, h2⟩ | ⟨t, ht, hyt⟩
    · exact Or.inl h0
    · refine Or.inr (Or.inl ⟨h1, fun hm => ?_⟩)
      obtain ⟨t, htl⟩ := AList.mem_iff_exists_lookup.mp hm
      exact h2 t ((happly t).mpr ⟨y, h1, htl⟩) (h.from_eq y t htl).symm
    · obtain ⟨k, -, hk⟩ := (happly t).mp ht
      exact Or.inr (Or.inr ⟨k, t, hk, hyt⟩)
  have hzero : ∀ x ∈ pairs, x.1 ≠ 0 := fun x hx => ht.ne_zero x (List.mem_append_left _ hx)
  change BackSubstituted p (pairs ++ [e]) (m.insert e.1 s')
  refine ⟨fun k => ?_, (forall_lookup_insert hnot s').mpr ⟨h.from_eq, ?_⟩,
    (forall_lookup_insert hnot s').mpr ⟨fun k s hl y hy => ?_, fun y hy => ?_⟩,
    (forall_lookup_insert hnot s').mpr ⟨fun k s hl y hy => ?_, fun y hy => ?_⟩,
    fun hc => (forall_lookup_insert hnot s').mpr ⟨h.coeffs fun x hx => hc x (by simp [hx]), ?_⟩,
    fun ρ => ?_⟩
  · rw [AList.mem_insert, h.mem_iff]
    simp [or_comm]
  · rw [hs', foldl_applySubstitution_from]
    exact ht.from_eq e he
  · rw [List.map_append, List.mem_append, not_or]
    refine ⟨h.free k s hl y hy, ?_⟩
    simp only [List.map_cons, List.map_nil, List.mem_singleton]
    rintro rfl
    rcases h.keys k s hl _ hy with h0 | ⟨x, hx, hyx⟩
    · exact ht.ne_zero e he h0
    · exact hlater x hx hyx
  · rw [List.map_append, List.mem_append, not_or, ← h.mem_iff]
    simp only [List.map_cons, List.map_nil, List.mem_singleton]
    rcases hkeys y hy with rfl | ⟨h1, h2⟩ | ⟨k, t, hl, hyt⟩
    · refine ⟨fun hm => ?_, fun h0 => ht.ne_zero e he h0.symm⟩
      obtain ⟨x, hx, hx0⟩ := List.mem_map.mp ((h.mem_iff 0).mp hm)
      exact hzero x hx hx0
    · refine ⟨h2, ?_⟩
      rintro rfl
      exact ht.notMem_self e he h1
    · refine ⟨fun hm => h.free k t hl y hyt ((h.mem_iff y).mp hm), ?_⟩
      rintro rfl
      rcases h.keys k t hl _ hyt with h0 | ⟨x, hx, hyx⟩
      · exact ht.ne_zero e he h0
      · exact hlater x hx hyx
  · exact (h.keys k s hl y hy).imp_right fun ⟨x, hx, hyx⟩ => ⟨x, List.mem_append_left _ hx, hyx⟩
  · rcases hkeys y hy with h0 | ⟨h1, -⟩ | ⟨k, t, hl, hyt⟩
    · exact Or.inl h0
    · exact Or.inr ⟨e, he, h1⟩
    · exact (h.keys k t hl y hyt).imp_right fun ⟨x, hx, hyx⟩ => ⟨x, List.mem_append_left _ hx, hyx⟩
  · exact coeffsInField_foldl_applySubstitution _ (hc e he)
  · rw [forall_lookup_insert hnot, h.holds_iff ρ, List.forall_mem_append, List.forall_mem_singleton]
    refine and_congr_right fun hall => ?_
    rw [hs', holds_foldl_applySubstitution]
    intro t htm
    obtain ⟨k, -, hk⟩ := (happly t).mp htm
    exact (h.holds_iff ρ).mpr hall k t hk

theorem Triangular.of_append {e : ℕ × S} (h : Triangular (pairs ++ [e])) : Triangular pairs := by
  have hsub : pairs.Sublist (pairs ++ [e]) := List.sublist_append_left _ _
  exact ⟨h.nodup.sublist (hsub.map _), fun x hx => h.from_eq x (hsub.subset hx),
    fun x hx => h.ne_zero x (hsub.subset hx), fun x hx => h.notMem_self x (hsub.subset hx),
    h.notMem_later.sublist hsub⟩

theorem backSubstituted_nonoverlapping (o : HashOrder)
    (h : Triangular pairs) : BackSubstituted p pairs (nonoverlapping o p pairs) := by
  induction pairs using List.reverseRecOn with
  | nil =>
    refine ⟨fun k => by simp [nonoverlapping], ?_, ?_, ?_, fun _ => ?_, fun ρ => ?_⟩
    all_goals simp [nonoverlapping]
  | append_singleton pairs e ih =>
    have h' := (ih h.of_append).add h (o.sub e.1)
    rw [nonoverlapping, List.foldl_append]
    exact h'

/-- Removing the signals one after the other, in an order without repetitions, finds them all. -/
theorem createNonoverlappingSubstitutions4_eq (o : HashOrder) {tree : SH}
    {signals : SignalDefinition4} (hnd : signals.orderSignals.Nodup)
    (hp : List.Forall₂ (fun k (e : ℕ × S) => e.1 = k ∧ tree.lookup k = some e.2)
      signals.orderSignals pairs) (field : ℤ) :
    createNonoverlappingSubstitutions4 o tree signals field = some (nonoverlapping o field pairs) := by
  have key : ∀ (l : List ℕ) (pairs : List (ℕ × S)) (rest : SH) (m : HashMap ℕ S), l.Nodup →
      List.Forall₂ (fun k (e : ℕ × S) => e.1 = k ∧ tree.lookup k = some e.2) l pairs →
      (∀ k ∈ l, rest.lookup k = tree.lookup k) →
      ∃ rest', l.foldlM (fun (acc : SH × HashMap ℕ S) s => do
        let substitution ← acc.1.lookup s
        some (acc.1.erase s, addNonoverlapping (o.sub s) field acc.2 s substitution)) (rest, m) =
        some (rest', pairs.foldl
          (fun noOverlap e => addNonoverlapping (o.sub e.1) field noOverlap e.1 e.2) m) := by
    intro l pairs rest m hl hp hrest
    induction hp generalizing rest m with
    | nil => exact ⟨rest, rfl⟩
    | @cons k e l pairs hke _ ih =>
      obtain ⟨hk, hl⟩ := List.nodup_cons.mp hl
      obtain ⟨rest', hrun⟩ := ih (rest.erase k) (addNonoverlapping (o.sub k) field m k e.2) hl
        fun k' hk' => by
          rw [AList.lookup_erase_ne (by rintro rfl; exact hk hk')]
          exact hrest k' (List.mem_cons_of_mem k hk')
      refine ⟨rest', ?_⟩
      rw [List.foldlM_cons, hrest k List.mem_cons_self, hke.2, List.foldl_cons, hke.1]
      exact hrun
  obtain ⟨rest', hrun⟩ := key _ _ tree ∅ hnd hp fun _ _ => rfl
  simp only [createNonoverlappingSubstitutions4, Option.bind_eq_bind] at hrun ⊢
  rw [hrun]
  rfl

end SimplificationUtils

end Circom.Algebra
