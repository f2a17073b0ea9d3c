import Circom.ConstraintList.Proofs.Extension
import Circom.ConstraintList.Proofs.Renaming
import Circom.ConstraintList.Proofs.Unfolding

/-!
# Relevant signals

The non-linear constraints are rewritten on the way out of the encoding, frame by frame. Substitutions of
signals that are not relevant are dropped before; the relevant signals are enough for the non-linear
constraints.
-/

namespace Circom.ConstraintList

open Circom.Algebra (Constraint)
open Circom.Algebra.SimplificationUtils (Encodes Independent Rewrites fastEncodedConstraintSubstitution_spec
  replaced mem_replaced)
open Circom.Lib (HashMap HashOrder foldlM_invariant foldlM_some foldlM_flatMap)

variable {p : ℕ} {forbidden : Finset ℕ}
variable {subs subs1 subs2 subs3 : List S} {enc1 enc2 enc3 : SEncoded}

/-! ## Dropping substitutions -/

theorem lookup_removeNotRelevant (substitutions : SEncoded) (relevant : Finset ℕ) (k : ℕ) :
    (removeNotRelevant substitutions relevant).lookup k =
      if k ∈ relevant then substitutions.lookup k else none := by
  have hfold : ∀ (l : List ℕ) (m : SEncoded), (l.foldl (fun substitutions signal =>
      if signal ∉ relevant then substitutions.erase signal else substitutions) m).lookup k =
      if k ∈ l ∧ k ∉ relevant then none else m.lookup k := by
    intro l
    induction l with
    | nil =>
      intro m
      rw [if_neg fun h => List.not_mem_nil h.1]
      rfl
    | cons signal l ih =>
      intro m
      rw [List.foldl_cons, ih]
      by_cases hr : signal ∈ relevant
      · have hiff : k ∈ signal :: l ∧ k ∉ relevant ↔ k ∈ l ∧ k ∉ relevant := by
          rw [List.mem_cons]
          constructor
          · rintro ⟨rfl | hk, hnot⟩
            · exact absurd hr hnot
            · exact ⟨hk, hnot⟩
          · exact And.imp_left Or.inr
        rw [if_neg (not_not.mpr hr)]
        simp only [hiff]
      · rw [if_pos hr]
        by_cases hk : k ∈ l ∧ k ∉ relevant
        · rw [if_pos hk, if_pos ⟨List.mem_cons_of_mem _ hk.1, hk.2⟩]
        · rw [if_neg hk]
          by_cases hks : k = signal
          · rw [hks, AList.lookup_erase, if_pos ⟨List.mem_cons_self, hr⟩]
          · rw [AList.lookup_erase_ne hks, if_neg]
            rintro ⟨hmem, hnot⟩
            exact hk ⟨(List.mem_cons.mp hmem).resolve_left hks, hnot⟩
  rw [removeNotRelevant, hfold]
  by_cases hr : k ∈ relevant
  · rw [if_neg fun h => h.2 hr, if_pos hr]
  · rw [if_neg hr]
    by_cases hk : k ∈ substitutions.keys
    · rw [if_pos ⟨hk, hr⟩]
    · rw [if_neg fun h => hk h.1, AList.lookup_eq_none, AList.mem_keys]
      exact hk

theorem encodes_removeNotRelevant {enc : SEncoded} (h : Encodes enc subs) (relevant : Finset ℕ) :
    Encodes (removeNotRelevant enc relevant) (subs.filter fun s => s.fromSignal ∈ relevant) := by
  intro k e
  rw [lookup_removeNotRelevant]
  constructor
  · intro hl
    split_ifs at hl with hr
    obtain ⟨s, hs, hdec⟩ := (h k e).mp hl
    have hfrom : s.fromSignal = k := congrArg Prod.fst hdec
    exact ⟨s, List.mem_filter.mpr ⟨hs, by simpa [hfrom] using hr⟩, hdec⟩
  · rintro ⟨s, hs, hdec⟩
    obtain ⟨hs, hr⟩ := List.mem_filter.mp hs
    have hfrom : s.fromSignal = k := congrArg Prod.fst hdec
    rw [if_pos (by simpa [hfrom] using hr)]
    exact (h k e).mpr ⟨s, hs, hdec⟩

theorem independent_filter (h : Independent subs) (P : S → Bool) : Independent (subs.filter P) :=
  ⟨fun s hs t ht => h.free s (List.mem_filter.mp hs).1 t (List.mem_filter.mp ht).1,
    fun s hs => h.from_ne s (List.mem_filter.mp hs).1⟩

/-! ## The relevant set -/

/-- The signal under which the relevant set has `signal`. -/
def relevantName (renames : SEncoded) (signal : ℕ) : ℕ :=
  (unwrappedSignal renames signal).getD signal

theorem mem_foldl_relevant (renames deletes : SEncoded) (l : List ℕ) (relevant : Finset ℕ) (k : ℕ) :
    k ∈ l.foldl (fun relevant signal =>
        let signal := (unwrappedSignal renames signal).getD signal
        if signal ∈ deletes then relevant else insert signal relevant) relevant ↔
      k ∈ relevant ∨ ∃ s ∈ l, relevantName renames s = k ∧ k ∉ deletes := by
  induction l generalizing relevant with
  | nil => simp
  | cons s l ih =>
    rw [List.foldl_cons, ih]
    simp only [List.mem_cons, exists_eq_or_imp]
    by_cases hs : relevantName renames s ∈ deletes
    · have hif : ((unwrappedSignal renames s).getD s ∈ deletes) = True := eq_true hs
      simp only [hif, if_true]
      refine or_congr_right (or_iff_right ?_).symm
      rintro ⟨rfl, hnot⟩
      exact hnot hs
    · have hif : ((unwrappedSignal renames s).getD s ∈ deletes) = False := eq_false hs
      simp only [hif, if_false, Finset.mem_insert]
      constructor
      · rintro ((rfl | hk) | hk)
        · exact Or.inr (Or.inl ⟨rfl, hs⟩)
        · exact Or.inl hk
        · exact Or.inr (Or.inr hk)
      · rintro (hk | ⟨rfl, -⟩ | hk)
        · exact Or.inl (Or.inr hk)
        · exact Or.inl (Or.inl rfl)
        · exact Or.inr hk

theorem buildRelevantSet_spec {encoding : DAGEncoding} {iter : EncodingIterator}
    (hiter : IsIterator encoding iter encoding.init 0) (renames deletes : SEncoded) :
    ∃ relevant, buildRelevantSet iter renames deletes = some relevant ∧
      ∀ s, s ≠ 0 → Occurs encoding.unfoldedNonLinear s → relevantName renames s ∉ deletes →
        relevantName renames s ∈ relevant := by
  let visit : Finset ℕ → ℕ → Finset ℕ := fun relevant signal =>
    let signal := (unwrappedSignal renames signal).getD signal
    if signal ∈ deletes then relevant else insert signal relevant
  have hvisit : ∀ relevant it n offset, IsIterator encoding it n offset →
      some (addRelevant renames deletes relevant it) =
        some (((encoding.instanceNonLinear (n, offset)).flatMap fun c =>
          c.takeClonedSignals.ascending).foldl visit relevant) := by
    intro relevant it n offset h
    rw [addRelevant, h.nonLinear_eq, List.foldl_flatMap]
  have hwalk := EncodingIterator.walk_eq hiter
    (fun relevant i => some (((encoding.instanceNonLinear i).flatMap fun c =>
      c.takeClonedSignals.ascending).foldl visit relevant)) hvisit ∅
  rw [foldlM_some, ← List.foldl_flatMap, ← List.flatMap_assoc] at hwalk
  refine ⟨_, hwalk, ?_⟩
  rintro s hs ⟨c, hc, hm⟩ hnot
  refine (mem_foldl_relevant renames deletes _ ∅ _).mpr (Or.inr ⟨s, ?_, rfl, hnot⟩)
  refine List.mem_flatMap.mpr ⟨c, hc, Finset.mem_ascending.mpr ?_⟩
  exact Constraint.mem_takeClonedSignals.mpr ⟨hs, hm⟩

/-! ## Names of renamed signals -/

theorem unwrappedSignal_of_renames (h : Renames subs) {enc : SEncoded}
    (henc : Encodes enc subs) (k : ℕ) : relevantName enc k = renameBy subs k := by
  rw [relevantName, unwrappedSignal]
  rcases h.cases k with ⟨hk, heq⟩ | ⟨s, hs, rfl, hren⟩
  · have hnone : enc.lookup k = none := by
      rw [AList.lookup_eq_none, henc.mem_iff]
      exact hk
    rw [hnone, heq]
    rfl
  · have hdec : s.decompose = (s.fromSignal, .signal (renameBy subs s.fromSignal)) := by
      rw [Algebra.Substitution.decompose, hren.2, Algebra.ArithmeticExpression.hashmapIntoArith]
      have hpairs : ((∅ : HashMap ℕ ℤ).insert (renameBy subs s.fromSignal) 1).pairs =
          [(renameBy subs s.fromSignal, 1)] := rfl
      have hne : renameBy subs s.fromSignal ≠ Algebra.constantCoefficient := hren.1
      rw [hpairs]
      simp only [hne, if_false, if_true]
    rw [(henc s.fromSignal _).mpr ⟨s, hs, hdec⟩]
    rfl

/-! ## Rewriting frame by frame -/

/-- A constraint on the way through three frames. -/
def RewritesFrames (p : ℕ) (subs1 subs2 subs3 : List S) (c c' : C) : Prop :=
  ∃ c1 c2, Rewrites p subs1 c c1 ∧ Rewrites p subs2 c1 c2 ∧ Rewrites p subs3 c2 c'

variable [NeZero p]

theorem substituteFrames_spec (o : HashOrder) (h1 : Encodes enc1 subs1) (h2 : Encodes enc2 subs2)
    (h3 : Encodes enc3 subs3) (hi1 : Independent subs1) (hi2 : Independent subs2) (hi3 : Independent subs3) (c : C) :
    ∃ c', substituteFrames o [enc1, enc2, enc3] p c = some c' ∧
      RewritesFrames p subs1 subs2 subs3 c c' := by
  obtain ⟨c1, b1, hrun1, hrew1, -⟩ := fastEncodedConstraintSubstitution_spec (p := p) (o.sub 0) h1 hi1 c
  obtain ⟨c2, b2, hrun2, hrew2, -⟩ := fastEncodedConstraintSubstitution_spec (p := p) (o.sub 1) h2 hi2 c1
  obtain ⟨c3, b3, hrun3, hrew3, -⟩ := fastEncodedConstraintSubstitution_spec (p := p) (o.sub 2) h3 hi3 c2
  refine ⟨c3, ?_, c1, c2, hrew1, hrew2, hrew3⟩
  simp only [substituteFrames, List.zipIdx_cons, List.zipIdx_nil, List.foldlM_cons, List.foldlM_nil,
    hrun1, hrun2, hrun3, Option.bind_eq_bind, Option.bind_some]
  rfl

theorem storeNonLinear_spec (o : HashOrder) (h1 : Encodes enc1 subs1) (h2 : Encodes enc2 subs2)
    (h3 : Encodes enc3 subs3) (hi1 : Independent subs1) (hi2 : Independent subs2) (hi3 : Independent subs3)
    (acc : Algebra.ConstraintStorage × List C) (c : C) :
    ∃ c', storeNonLinear o [enc1, enc2, enc3] p acc c =
        some (⟨acc.1.constraints ++ [c'].filter fun c => !c.isLinear⟩,
          acc.2 ++ [c'].filter fun c => c.isLinear) ∧
      RewritesFrames p subs1 subs2 subs3 c c' ∧ c'.NoZeroCoeff := by
  obtain ⟨c', hrun, c1, c2, hrew1, hrew2, hrew3⟩ := substituteFrames_spec (p := p)
    (o.sub (acc.1.constraints.length + acc.2.length)) h1 h2 h3 hi1 hi2 hi3 c
  refine ⟨c'.fixConstraint p, ?_, ⟨c1, c2, hrew1, hrew2, hrew3.fix⟩,
    Constraint.noZeroCoeff_fixConstraint c' p⟩
  simp only [storeNonLinear, hrun, Option.bind_eq_bind, Option.bind_some]
  by_cases hlin : (c'.fixConstraint p).isLinear
  · simp only [hlin, if_true, List.filter_cons, Bool.not_true, Bool.false_eq_true, if_false,
      List.filter_nil, List.append_nil]
  · simp only [hlin, Bool.false_eq_true, if_false, List.filter_cons, Bool.not_false, if_true,
      List.filter_nil, List.append_nil]
    rfl

theorem obtainAndSimplifyNonLinear_spec (o : HashOrder) {encoding : DAGEncoding} {iter : EncodingIterator}
    (hiter : IsIterator encoding iter encoding.init 0) (h1 : Encodes enc1 subs1) (h2 : Encodes enc2 subs2)
    (h3 : Encodes enc3 subs3) (hi1 : Independent subs1) (hi2 : Independent subs2) (hi3 : Independent subs3) :
    ∃ nonLinear, obtainAndSimplifyNonLinear o iter Algebra.ConstraintStorage.new
        [enc1, enc2, enc3] p =
        some (⟨nonLinear.filter fun c => !c.isLinear⟩, nonLinear.filter fun c => c.isLinear) ∧
      List.Forall₂ (fun c c' => RewritesFrames p subs1 subs2 subs3 c c' ∧ c'.NoZeroCoeff)
        encoding.unfoldedNonLinear nonLinear := by
  have hvisit : ∀ acc it n offset, IsIterator encoding it n offset →
      it.nonLinear.foldlM (storeNonLinear o [enc1, enc2, enc3] p) acc =
        (encoding.instanceNonLinear (n, offset)).foldlM (storeNonLinear o [enc1, enc2, enc3] p)
          acc := by
    intro acc it n offset h
    rw [h.nonLinear_eq]
  have hwalk := EncodingIterator.walk_eq hiter
    (fun acc i => (encoding.instanceNonLinear i).foldlM (storeNonLinear o [enc1, enc2, enc3] p) acc)
    hvisit (Algebra.ConstraintStorage.new, [])
  rw [← foldlM_flatMap] at hwalk
  have hloop := foldlM_invariant (f := storeNonLinear o [enc1, enc2, enc3] p)
    (fun (l : List C) acc => ∃ done stored, done ++ l = encoding.unfoldedNonLinear ∧
      acc = (⟨stored.filter fun c => !c.isLinear⟩, stored.filter fun c => c.isLinear) ∧
      List.Forall₂ (fun c c' => RewritesFrames p subs1 subs2 subs3 c c' ∧ c'.NoZeroCoeff)
        done stored) ?_ (l := encoding.unfoldedNonLinear)
    (s := (Algebra.ConstraintStorage.new, [])) ?_
  · obtain ⟨acc, hrun, done, stored, hdone, rfl, hall⟩ := hloop
    rw [List.append_nil] at hdone
    subst hdone
    exact ⟨stored, hwalk.trans hrun, hall⟩
  · rintro c l acc ⟨done, stored, hdone, rfl, hall⟩
    obtain ⟨c', hrun, hrew⟩ := storeNonLinear_spec (p := p) o h1 h2 h3 hi1 hi2 hi3
      (⟨stored.filter fun c => !c.isLinear⟩, stored.filter fun c => c.isLinear) c
    refine ⟨_, hrun, done ++ [c], stored ++ [c'], ?_, ?_, ?_⟩
    · rw [List.append_assoc]
      exact hdone
    · rw [List.filter_append, List.filter_append]
    · exact List.rel_append hall (.cons hrew .nil)
  · exact ⟨[], [], rfl, rfl, .nil⟩

end Circom.ConstraintList
