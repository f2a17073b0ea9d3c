import Circom.ConstraintList.Proofs.Simplification

/-!
# When the simplification keeps the relation of the circuit

The simplification never panics. It keeps what the constraints say about the forbidden signals except where
two constant equalities contradict each other and one of them is lost.
-/

namespace Circom.ConstraintList

open Circom.Algebra (Constraint applyRawCorrespondence)
open Circom.Lib (HashOrder HashMap exists_mapM)

variable {p : ℕ} {smp : Simplifier}

/-- All constraints that the simplification gets. -/
def Simplifier.constraints (smp : Simplifier) : List C :=
  smp.equalities ++ (smp.consEqualities ++ smp.linear ++ smp.dagEncoding.unfoldedNonLinear)

/-- The assignment with the value `x` for all signals. -/
def uniform (x : ZMod p) (k : ℕ) : ZMod p := if k = 0 then 1 else x

/-- Two constant equalities give different values to signals that a chain of equalities connects, and no
forbidden signal is connected with them. -/
def Simplifier.Conflict (p : ℕ) (smp : Simplifier) : Prop :=
  ∃ (i j : ℕ) (c d : C) (s t : ℕ), i < j ∧ smp.consEqualities[i]? = some c ∧ smp.consEqualities[j]? = some d ∧
    s ∈ c.takeClonedSignals ∧ t ∈ d.takeClonedSignals ∧ Connected smp.equalities s t ∧
    (∀ f ∈ smp.forbidden, ¬ Connected smp.equalities s f) ∧
    ∀ x : ZMod p, ¬ (c.Sat (uniform x) ∧ d.Sat (uniform x))

theorem keptConstraints_subset {c : C} (hc : c ∈ smp.keptConstraints) : c ∈ smp.constraints := by
  simp only [Simplifier.keptConstraints, Simplifier.constraints, List.mem_append] at hc ⊢
  refine hc.imp_right (Or.imp_left (Or.imp_left fun hc => ?_))
  obtain ⟨i, hi, -⟩ := mem_atPositions.mp hc
  exact List.mem_of_getElem? hi

variable [hp : Fact p.Prime]

/-- A constant equality looks at the value of its signal only. -/
theorem sat_iff_uniform {c : C} (hc : IsSingle p c) {s : ℕ} (hs : s ∈ c.takeClonedSignals)
    {ρ : ℕ → ZMod p} (h1 : ρ 0 = 1) : c.Sat ρ ↔ c.Sat (uniform (ρ s)) := by
  obtain ⟨t, ht⟩ := hc.single
  rw [ht, Finset.mem_singleton] at hs
  subst hs
  refine Constraint.sat_congr ?_
  intro k hk
  unfold uniform
  by_cases hk0 : k = 0
  · rw [if_pos hk0, hk0, h1]
  · rw [if_neg hk0]
    rcases mentions_of_single ht hk with h0 | rfl
    · exact absurd h0 hk0
    · rfl

/-- Only one value satisfies a constant equality. -/
theorem uniform_unique {c : C} (hc : IsSingle p c) {x y : ZMod p} (hx : c.Sat (uniform x))
    (hy : c.Sat (uniform y)) : x = y := by
  obtain ⟨s, hs⟩ := hc.single
  have hs0 : s ≠ 0 := by
    have : s ∈ c.takeClonedSignals := by rw [hs]; exact Finset.mem_singleton_self s
    exact (Constraint.mem_takeClonedSignals.mp this).1
  obtain ⟨v, k, hv, hsat⟩ := Constraint.single_spec hc.linear hc.nonzero hs
  have hval : ∀ z : ZMod p, c.Sat (uniform z) ↔ v * z + k = 0 := by
    intro z
    rw [hsat (uniform z) (if_pos rfl)]
    simp only [uniform, if_neg hs0]
  rw [hval] at hx hy
  refine mul_left_cancel₀ hv ?_
  linear_combination hx - hy

/-- Without a conflict the lost constant equalities follow from the others. -/
theorem sat_of_kept (h : smp.WellFormed p) (hconflict : ¬ smp.Conflict p) {ρ : ℕ → ZMod p}
    (h1 : ρ 0 = 1) (hkept : ∀ c ∈ smp.keptConstraints, c.Sat ρ) : ∀ c ∈ smp.constraints, c.Sat ρ := by
  have hsplit : (∀ c ∈ smp.equalities, c.Sat ρ) ∧ (∀ c ∈ smp.keptConsEqualities, c.Sat ρ) ∧
      (∀ c ∈ smp.linear, c.Sat ρ) ∧ ∀ c ∈ smp.dagEncoding.unfoldedNonLinear, c.Sat ρ := by
    simp only [Simplifier.keptConstraints, List.forall_mem_append] at hkept
    exact ⟨hkept.1, hkept.2.1.1, hkept.2.1.2, hkept.2.2⟩
  obtain ⟨hequalities, hcons, hlinear, hnonLinear⟩ := hsplit
  have hsingle : ∀ (i : ℕ) c, smp.consEqualities[i]? = some c → IsSingle p c := fun i c hc =>
    isSingle_of_isConstantEquality (h.consEqualities c (List.mem_of_getElem? hc))
  -- from the last constant equality to the first one
  have hall : ∀ n i c, smp.consEqualities.length ≤ i + n → smp.consEqualities[i]? = some c →
      c.Sat ρ := by
    intro n
    induction n with
    | zero =>
      intro i c hn hc
      rw [List.getElem?_eq_none (by omega)] at hc
      cases hc
    | succ n ih =>
      intro i c hn hc
      by_cases hsuper : smp.Superseded i
      · obtain ⟨c0, s, hc0, hs, hnone, j, d, t, hij, hd, ht, hconn⟩ := hsuper
        obtain rfl : c = c0 := Option.some.inj (hc.symm.trans hc0)
        have hdsat := ih j d (by omega) hd
        rw [sat_iff_uniform (hsingle j d hd) ht h1] at hdsat
        rw [sat_iff_uniform (hsingle i c hc) hs h1, eq_of_connected h.solvable hequalities hconn]
        -- a common value exists, and it is the value of `t`
        by_contra hnot
        refine hconflict ⟨i, j, c, d, s, t, hij, hc, hd, hs, ht, hconn, hnone, ?_⟩
        rintro x ⟨hcx, hdx⟩
        rw [uniform_unique (hsingle j d hd) hdsat hdx] at hnot
        exact hnot hcx
      · exact hcons c (mem_atPositions.mpr ⟨i, hc, hsuper⟩)
  simp only [Simplifier.constraints, List.forall_mem_append]
  refine ⟨hequalities, ⟨?_, hlinear⟩, hnonLinear⟩
  intro c hc
  obtain ⟨i, hi⟩ := List.mem_iff_getElem?.mp hc
  exact hall smp.consEqualities.length i c (by omega) hi

/-- Constraints in conflict have no solution. -/
theorem not_sat_of_conflict (h : smp.WellFormed p) (hconflict : smp.Conflict p) {ρ : ℕ → ZMod p}
    (h1 : ρ 0 = 1) : ¬ ∀ c ∈ smp.constraints, c.Sat ρ := by
  obtain ⟨i, j, c, d, s, t, -, hc, hd, hs, ht, hconn, -, hnone⟩ := hconflict
  intro hall
  simp only [Simplifier.constraints, List.forall_mem_append] at hall
  have hcm := List.mem_of_getElem? hc
  have hdm := List.mem_of_getElem? hd
  have hcsat := hall.2.1.1 c hcm
  have hdsat := hall.2.1.1 d hdm
  rw [sat_iff_uniform (isSingle_of_isConstantEquality (h.consEqualities c hcm)) hs h1] at hcsat
  rw [sat_iff_uniform (isSingle_of_isConstantEquality (h.consEqualities d hdm)) ht h1,
    ← eq_of_connected h.solvable hall.1 hconn] at hdsat
  exact hnone _ ⟨hcsat, hdsat⟩

/-- Every run ends, with a valid last state, and loses at most superseded constant equalities. -/
theorem simplification_spec (o : HashOrder) (h : smp.WellFormed p) :
    ∃ out state, simplification o smp = some out ∧ state.Valid p smp ∧ Finished smp state out ∧
      ∀ σ : ℕ → ZMod p, σ 0 = 1 → (Extends smp.forbidden σ smp.keptConstraints ↔
        Extends smp.forbidden σ out.constraintStorage.constraints) := by
  obtain ⟨state, hvalid, hrun, hext⟩ := simplification_eq o h
  have hrounds : ∃ state', (if !smp.flagS then simplifyRounds (o.sub 4) smp (smp.noRounds - 1) state
        else some state) = some state' ∧ state'.Valid p smp ∧ ∀ σ : ℕ → ZMod p, σ 0 = 1 →
      (Extends smp.forbidden σ state.constraints ↔ Extends smp.forbidden σ state'.constraints) := by
    by_cases hflag : smp.flagS
    · exact ⟨state, by rw [if_neg (by simp [hflag])], hvalid, fun _ _ => Iff.rfl⟩
    · obtain ⟨state', hrun', hrest⟩ := simplifyRounds_spec (o.sub 4) h.field_eq h.zero_forbidden
        (smp.noRounds - 1) hvalid
      exact ⟨state', by rw [if_pos (by simp [hflag])]; exact hrun', hrest⟩
  obtain ⟨state', hrun', hvalid', hext'⟩ := hrounds
  obtain ⟨out, hfinish, hfinished⟩ := finishSimplification_spec h hvalid'
  refine ⟨out, state', ?_, hvalid', hfinished, ?_⟩
  · rw [hrun]
    by_cases hflag : smp.flagS
    · simp only [hflag, Bool.not_true, Bool.false_eq_true, if_false, Option.some.injEq] at hrun' ⊢
      rw [hrun']
      exact hfinish
    · simp only [hflag, Bool.not_false, if_true] at hrun' ⊢
      rw [hrun']
      exact hfinish
  · intro σ hσ
    rw [hext σ hσ, hext' σ hσ]
    exact Extends.congr σ h.zero_forbidden hσ fun ρ h1 => (hfinished.sat_iff h.field_eq h1).symm

/-- The simplification keeps what the constraints say about the forbidden signals exactly if no two
constant equalities are in conflict, or the constraints that it looks at have no solution anyway. -/
theorem simplification_equivalent_iff (o : HashOrder) (h : smp.WellFormed p) :
    ∃ out, simplification o smp = some out ∧
      ((∀ σ : ℕ → ZMod p, σ 0 = 1 → (Extends smp.forbidden σ smp.constraints ↔
          Extends smp.forbidden σ out.constraintStorage.constraints)) ↔
        ¬ smp.Conflict p ∨ ∀ ρ : ℕ → ZMod p, ρ 0 = 1 → ¬ ∀ c ∈ smp.keptConstraints, c.Sat ρ) := by
  obtain ⟨out, state, hrun, -, -, hext⟩ := simplification_spec o h
  refine ⟨out, hrun, ?_⟩
  have hone : ∀ σ ρ : ℕ → ZMod p, σ 0 = 1 → (∀ k ∈ smp.forbidden, ρ k = σ k) → ρ 0 = 1 :=
    fun σ ρ hσ hρ => by rw [hρ 0 h.zero_forbidden, hσ]
  constructor
  · intro heq
    by_cases hconflict : smp.Conflict p
    · right
      intro ρ h1 hkept
      obtain ⟨ρ', hρ', hall⟩ := (heq ρ h1).mpr ((hext ρ h1).mp ⟨ρ, fun _ _ => rfl, hkept⟩)
      exact not_sat_of_conflict h hconflict (hone ρ ρ' h1 hρ') hall
    · exact Or.inl hconflict
  · intro hcase σ hσ
    rw [← hext σ hσ]
    constructor
    · rintro ⟨ρ, hρ, hall⟩
      exact ⟨ρ, hρ, fun c hc => hall c (keptConstraints_subset hc)⟩
    · rintro ⟨ρ, hρ, hkept⟩
      rcases hcase with hconflict | hunsat
      · exact ⟨ρ, hρ, sat_of_kept h hconflict (hone σ ρ hσ hρ) hkept⟩
      · exact absurd hkept (hunsat ρ (hone σ ρ hσ hρ))

/-! ## A circuit with one template -/

section Example

/-- `out * a = b` for the output `x1` and the private input `x2`, over the field with five elements. -/
def product (consEqualities : List C) : Simplifier :=
  { field := 5
    dagEncoding :=
      { init := 0
        noConstraints := 1
        nodes := [⟨0, "Product", [], [], [],
          [⟨AList.ofPairs [(1, 1)], AList.ofPairs [(2, 1)], AList.ofPairs [(3, 1)]⟩], false⟩]
        adjacency := [[]]
        adjacency_length := rfl
        goesTo_lt := by
          intro i edges h e he
          obtain rfl := List.mem_singleton.mp (List.mem_of_getElem? h)
          cases he
        init_lt := by decide }
    noPublicInputs := 0
    noPublicOutputs := 1
    noPrivateInputs := 1
    forbidden := {0, 1}
    consEqualities := consEqualities
    equalities := []
    linear := []
    maxSignal := 4
    noRounds := 2
    flagS := false
    flagOldHeuristics := false }

theorem product_unfolded (consEqualities : List C) :
    (product consEqualities).dagEncoding.unfoldedNonLinear =
      [⟨AList.ofPairs [(1, 1)], AList.ofPairs [(2, 1)], AList.ofPairs [(3, 1)]⟩] := by
  rw [DAGEncoding.unfoldedNonLinear, Lib.LayeredGraph.instances_eq]
  rfl

theorem product_wellFormed {consEqualities : List C}
    (h : ∀ c ∈ consEqualities, (c.isConstantEquality ∧ c.Reduced 5) ∧
      ∀ k ∈ c.takeClonedSignals, k < 4) : (product consEqualities).WellFormed 5 where
  field_eq := rfl
  zero_forbidden := by simp [product]
  equalities := by simp [product]
  consEqualities := fun c hc => (h c hc).1
  linear := by simp [product]
  nonLinear := by
    rw [product_unfolded]
    decide
  within := by
    rw [product_unfolded, within_iff]
    intro c hc k hk
    simp only [product, List.nil_append, List.append_nil, List.mem_append] at hc
    refine ⟨?_, Finset.notMem_empty k⟩
    rcases hc with hc | hc
    · exact (h c hc).2 k hk
    · change k < 4
      revert k
      revert c
      decide
  publics := by
    intro k hk hle
    have : k = 1 := by simp only [product] at hle; omega
    simp [this, product]
  inputs := by simp [product]

/-- `x2 = 1`. -/
theorem simplification_equivalent_iff_product :
    let smp := product [⟨∅, ∅, AList.ofPairs [(2, 1), (0, 4)]⟩]
    ∃ out, simplification HashOrder.listOrder smp = some out ∧
      ((∀ σ : ℕ → ZMod 5, σ 0 = 1 → (Extends smp.forbidden σ smp.constraints ↔
          Extends smp.forbidden σ out.constraintStorage.constraints)) ↔
        ¬ smp.Conflict 5 ∨ ∀ ρ : ℕ → ZMod 5, ρ 0 = 1 → ¬ ∀ c ∈ smp.keptConstraints, c.Sat ρ) := by
  have : Fact (Nat.Prime 5) := ⟨by norm_num⟩
  exact simplification_equivalent_iff HashOrder.listOrder (product_wellFormed (by decide))

/-- With `x2 = 1` and `x2 = 2` there is no solution, but no constraint is left. -/
theorem simplification_loses_equation :
    let smp := product [⟨∅, ∅, AList.ofPairs [(2, 1), (0, 4)]⟩, ⟨∅, ∅, AList.ofPairs [(2, 1), (0, 3)]⟩]
    smp.WellFormed 5 ∧ ∃ out, simplification HashOrder.listOrder smp = some out ∧
      ¬ ∀ σ : ℕ → ZMod 5, σ 0 = 1 → (Extends smp.forbidden σ smp.constraints ↔
        Extends smp.forbidden σ out.constraintStorage.constraints) := by
  intro smp
  refine ⟨product_wellFormed (by decide), ?_⟩
  have hrun : (simplification HashOrder.listOrder smp).map
      (fun out => out.constraintStorage.constraints) = some [] := by decide +kernel
  obtain ⟨out, hout, hempty⟩ := Option.map_eq_some_iff.mp hrun
  refine ⟨out, hout, fun hiff => ?_⟩
  obtain ⟨ρ, hρ, hall⟩ := (hiff (fun _ => 1) rfl).mpr ⟨fun _ => 1, fun _ _ => rfl, by simp [hempty]⟩
  have h0 : ρ 0 = 1 := hρ 0 (by decide)
  have h1 := hall ⟨∅, ∅, AList.ofPairs [(2, 1), (0, 4)]⟩ (by simp [Simplifier.constraints, smp, product])
  have h2 := hall ⟨∅, ∅, AList.ofPairs [(2, 1), (0, 3)]⟩ (by simp [Simplifier.constraints, smp, product])
  have he1 : (0 : ZMod 5) = ρ 2 + 4 := by
    simpa [Constraint.Sat, AList.eval_ofPairs, h0] using h1
  have he2 : (0 : ZMod 5) = ρ 2 + 3 := by
    simpa [Constraint.Sat, AList.eval_ofPairs, h0] using h2
  have : (1 : ZMod 5) = 0 := by linear_combination he2 - he1
  exact absurd this (by decide)

end Example

/-!
## The exported wires

The constraints that are left only have signals that are wires of the witness, so that the export finds a
position for each of them.
-/

variable {p : ℕ} {smp : Simplifier}

/-! ## Renaming the signals -/

theorem applyRawCorrespondence_isSome {symbols : HashMap ℕ ℤ} {map : SignalMap}
    (h : ∀ k ∈ symbols, k ≠ 0 → k ∈ map) : (applyRawCorrespondence symbols map).isSome := by
  obtain ⟨renamed, hrenamed, -⟩ := exists_mapM (l := symbols.pairs)
    (f := fun (e : ℕ × ℤ) => do
      let id ← if e.1 = Algebra.constantCoefficient then some Algebra.constantCoefficient
        else map.lookup e.1
      some (id, e.2)) (P := fun _ _ => True) (by
      rintro ⟨k, v⟩ he
      by_cases hk : k = Algebra.constantCoefficient
      · exact ⟨(Algebra.constantCoefficient, v), by simp [hk], trivial⟩
      · have hmem := AList.mem_iff_exists_lookup.mpr ⟨v, AList.mem_pairs_iff_lookup.mp he⟩
        obtain ⟨pos, hpos⟩ := AList.mem_iff_exists_lookup.mp (h k hmem hk)
        exact ⟨(pos, v), by simp [hk, hpos], trivial⟩)
  have hrun : applyRawCorrespondence symbols map = some (AList.ofPairs renamed) := by
    simp only [applyRawCorrespondence, Option.bind_eq_bind, Option.bind_some] at hrenamed ⊢
    rw [hrenamed]
    rfl
  rw [hrun]
  rfl

theorem applyCorrespondence_isSome {c : C} {map : SignalMap}
    (h : ∀ k, c.Mentions k → k ≠ 0 → k ∈ map) : (c.applyCorrespondence map).isSome := by
  obtain ⟨a, ha⟩ := Option.isSome_iff_exists.mp
    (applyRawCorrespondence_isSome fun k hk => h k (Or.inl hk))
  obtain ⟨b, hb⟩ := Option.isSome_iff_exists.mp
    (applyRawCorrespondence_isSome fun k hk => h k (Or.inr (Or.inl hk)))
  obtain ⟨c', hc⟩ := Option.isSome_iff_exists.mp
    (applyRawCorrespondence_isSome fun k hk => h k (Or.inr (Or.inr hk)))
  simp only [Constraint.applyCorrespondence, ha, hb, hc, Option.bind_eq_bind, Option.bind_some,
    Option.isSome_some]

variable [hp : Fact p.Prime]

/-- No deleted signal is left in a constraint, every signal that is left has a position, so has every
forbidden signal, and the private inputs that are counted are those with a position. -/
theorem simplification_wires (o : HashOrder) (h : smp.WellFormed p) :
    ∃ out, simplification o smp = some out ∧
      (∀ c ∈ out.constraintStorage.constraints, ∀ k ∈ out.deleted, ¬ c.Mentions k) ∧
      (∀ c ∈ out.constraintStorage.constraints, ∀ k, c.Mentions k → k ≠ 0 → k ∈ out.signalMap) ∧
      (∀ c ∈ out.constraintStorage.constraints, (c.applyCorrespondence out.signalMap).isSome) ∧
      (∀ k ∈ smp.forbidden, k < smp.maxSignal → k ∈ out.signalMap) ∧
      out.noPrivateInputsWitness = ((Finset.Icc (smp.noPublicOutputs + smp.noPublicInputs + 1)
        (smp.noPublicOutputs + smp.noPublicInputs + smp.noPrivateInputs)).filter
          fun k => k ∈ out.signalMap).card := by
  obtain ⟨out, state, hrun, -, hfinished, -⟩ := simplification_spec o h
  obtain ⟨P, hnumbers, hdeleted, hkept, hforbidden, hoccurs⟩ := hfinished.wires
  have hmem : ∀ k, k < smp.maxSignal → P k → k ∈ out.signalMap := by
    intro k hk hP
    rw [hnumbers.mem_iff, keptBelow, List.mem_filter, List.mem_range]
    exact ⟨hk, hP⟩
  have hwire : ∀ c ∈ out.constraintStorage.constraints, ∀ k, c.Mentions k → k ≠ 0 →
      k ∈ out.signalMap := by
    intro c hc k hm hk
    obtain ⟨hlt, hP⟩ := hoccurs k hk ⟨c, hc, hm⟩
    exact hmem k hlt hP
  refine ⟨out, hrun, ?_, hwire, fun c hc => applyCorrespondence_isSome (hwire c hc),
    fun k hk hlt => hmem k hlt (hforbidden k hk), hfinished.count⟩
  intro c hc k hk hm
  have hP : P k := by
    by_cases hk0 : k = 0
    · rw [hk0]
      exact hforbidden 0 h.zero_forbidden
    · exact (hoccurs k hk0 ⟨c, hc, hm⟩).2
  rcases (hdeleted k).mp hk with hk | ⟨-, hnot⟩
  · exact hkept k hP hk
  · exact hnot hP

/-- `x2 = 1` in a circuit with one template. -/
theorem simplification_wires_product :
    let smp := product [⟨∅, ∅, AList.ofPairs [(2, 1), (0, 4)]⟩]
    ∃ out, simplification HashOrder.listOrder smp = some out ∧
      ∀ k ∈ smp.forbidden, k < smp.maxSignal → k ∈ out.signalMap := by
  have : Fact (Nat.Prime 5) := ⟨by norm_num⟩
  obtain ⟨out, hrun, -, -, -, hforbidden, -⟩ := simplification_wires HashOrder.listOrder
    (@product_wellFormed [⟨∅, ∅, AList.ofPairs [(2, 1), (0, 4)]⟩] (by decide))
  exact ⟨out, hrun, hforbidden⟩

end Circom.ConstraintList
