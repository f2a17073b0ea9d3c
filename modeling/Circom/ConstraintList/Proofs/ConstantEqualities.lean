import Circom.ConstraintList.Proofs.ConstantPhase

/-!
# When the constant equalities keep their equations

The table of substitutions has one value for each signal. The phase keeps the solutions exactly if the
constant equalities of each signal that is not forbidden agree, or those of a forbidden one do not.
-/

namespace Circom.ConstraintList

open Circom.Algebra (Constraint)
open Circom.Algebra.SimplificationUtils (Encodes buildEncodedFastSubstitutions)
open Circom.Lib (HashMap lastOfEach mem_lastOfEach mem_map_lastOfEach nodup_map_lastOfEach)

variable {p : ℕ} {forbidden : Finset ℕ}
variable {c : C} {cEq : List C}

/-- The value that a constraint gives to its only signal. -/
def valueOf (p : ℕ) (c : C) (signal : ℕ) : ZMod p :=
  -(((c.c.lookup 0).getD 0 : ℤ) : ZMod p) * (((c.c.lookup signal).getD 0 : ℤ) : ZMod p)⁻¹

/-- The constant equalities of one signal give it one value. -/
def AgreeOn (p : ℕ) (cEq : List C) (signal : ℕ) : Prop :=
  ∀ c ∈ cEq, ∀ d ∈ cEq, c.takeClonedSignals = {signal} → d.takeClonedSignals = {signal} →
    valueOf p c signal = valueOf p d signal

/-! ## Decomposed substitutions -/

theorem eval_decompose [NeZero p] (s : S) {ρ : ℕ → ZMod p} (h1 : ρ 0 = 1) :
    s.decompose.2.eval ρ = s.toExpr.eval ρ := by
  simp only [Algebra.Substitution.decompose, Algebra.ArithmeticExpression.hashmapIntoArith]
  split
  · next symbol value heq =>
    have heval : s.toExpr.eval ρ = value * ρ symbol := by
      simp [AList.eval_eq_sum_pairs, heq]
    rw [heval]
    split_ifs with h0 hone
    · have h0' : symbol = 0 := h0
      rw [h0', h1, mul_one]
      rfl
    · rw [hone, Int.cast_one, one_mul]
      rfl
    · exact (Algebra.eval_initialized _).trans heval
  · exact Algebra.eval_initialized _

/-- The equations of a table are the equations of the substitutions in it. -/
theorem holds_iff_lookup [NeZero p] {table : SEncoded} {subs : List S} (h : Encodes table subs)
    {ρ : ℕ → ZMod p} (h1 : ρ 0 = 1) :
    (∀ signal e, table.lookup signal = some e → ρ signal = e.eval ρ) ↔ ∀ s ∈ subs, s.Holds ρ := by
  constructor
  · intro hall s hs
    rw [Algebra.Substitution.Holds, ← eval_decompose s h1]
    exact hall s.fromSignal s.decompose.2 ((h _ _).mpr ⟨s, hs, rfl⟩)
  · intro hall signal e he
    obtain ⟨s, hs, hdec⟩ := (h signal e).mp he
    obtain ⟨rfl, rfl⟩ := Prod.mk.inj hdec
    exact (hall s hs).trans (eval_decompose s h1).symm

variable [hp : Fact p.Prime]

theorem IsSingle.sat_iff_value (h : IsSingle p c) {s : ℕ} (hs : c.takeClonedSignals = {s}) {ρ : ℕ → ZMod p}
    (h1 : ρ 0 = 1) : c.Sat ρ ↔ ρ s = valueOf p c s := by
  have hmem : s ≠ 0 ∧ c.Mentions s :=
    Constraint.mem_takeClonedSignals.mp (by rw [hs]; exact Finset.mem_singleton_self s)
  have hkey : ∀ k, k ∈ c.c → k = 0 ∨ k = s := by
    intro k hk
    by_cases hk0 : k = 0
    · exact Or.inl hk0
    · have hk : k ∈ c.takeClonedSignals := Constraint.mem_takeClonedSignals.mpr
        ⟨hk0, (Constraint.mentions_iff_of_isLinear h.linear).mpr hk⟩
      rw [hs] at hk
      exact Or.inr (Finset.mem_singleton.mp hk)
  obtain ⟨v, hv⟩ :=
    AList.mem_iff_exists_lookup.mp ((Constraint.mentions_iff_of_isLinear h.linear).mp hmem.2)
  have hv0 := h.nonzero s v hmem.1 hv
  have hrest : ((c.c.erase s).erase 0).eval ρ = 0 := by
    refine AList.eval_eq_zero_of_forall ρ ?_
    rintro ⟨k, w⟩ he
    have hk := AList.mem_iff_exists_lookup.mpr ⟨w, AList.mem_pairs_iff_lookup.mp he⟩
    obtain ⟨hk0, hk⟩ := AList.mem_erase.mp hk
    obtain ⟨hks, hk⟩ := AList.mem_erase.mp hk
    rcases hkey k hk with heq | heq
    · exact absurd heq hk0
    · exact absurd heq hks
  rw [AList.eval_erase, AList.lookup_erase_ne hmem.1.symm, h1, mul_one] at hrest
  rw [Constraint.sat_iff_of_isLinear h.linear, AList.eval_of_lookup ρ hv, valueOf, hv,
    Option.getD_some, sub_eq_zero.mp hrest, ← div_eq_mul_inv, eq_div_iff hv0]
  constructor
  · intro h
    linear_combination h
  · intro h
    linear_combination h

/-! ## The equations that are kept -/

theorem mem_keptEqualities_of_forbidden (hc : c ∈ cEq)
    (hf : c.takeClonedSignals ⊆ forbidden) : c ∈ keptEqualities forbidden cEq := by
  obtain ⟨i, hi⟩ := List.mem_iff_getElem?.mp hc
  exact mem_keptEqualities.mpr ⟨i, hi, Or.inl hf⟩

theorem mem_of_mem_keptEqualities (hc : c ∈ keptEqualities forbidden cEq) : c ∈ cEq := by
  obtain ⟨i, hi, -⟩ := mem_keptEqualities.mp hc
  exact List.mem_of_getElem? hi

/-- Some constant equality of the same signal is kept. -/
theorem exists_mem_keptEqualities (forbidden : Finset ℕ) (hc : c ∈ cEq) :
    ∃ d ∈ keptEqualities forbidden cEq, d.takeClonedSignals = c.takeClonedSignals := by
  have hmem := mem_map_lastOfEach.mpr (List.mem_map_of_mem (f := fun c => c.takeClonedSignals) hc)
  obtain ⟨d, hd, heq⟩ := List.mem_map.mp hmem
  obtain ⟨i, hi, hlater⟩ := mem_lastOfEach.mp hd
  exact ⟨d, mem_keptEqualities.mpr ⟨i, hi, Or.inr hlater⟩, heq⟩

/-- Two constant equalities that are kept for one signal are one, or the signal is forbidden. -/
theorem eq_of_mem_keptEqualities {d : C} (hc : c ∈ keptEqualities forbidden cEq) (hd : d ∈ keptEqualities forbidden cEq)
    (heq : c.takeClonedSignals = d.takeClonedSignals) (hf : ¬ c.takeClonedSignals ⊆ forbidden) : c = d := by
  obtain ⟨i, hi, hci⟩ := mem_keptEqualities.mp hc
  obtain ⟨j, hj, hdj⟩ := mem_keptEqualities.mp hd
  rcases Nat.lt_trichotomy i j with hlt | rfl | hlt
  · exact absurd heq.symm (hci.resolve_left hf j d hlt hj)
  · exact Option.some.inj (hi.symm.trans hj)
  · exact absurd heq (hdj.resolve_left (heq ▸ hf) i c hlt hi)

/-- What is returned has the solutions of the constant equalities that are kept. -/
theorem constantEqSimplification_sat (forbidden : Finset ℕ) (hc : ∀ c ∈ cEq, IsSingle p c) :
    ∃ subs cons, constantEqSimplification cEq forbidden p = some (subs, cons) ∧
      ∀ ρ : ℕ → ZMod p, ρ 0 = 1 → ((∀ c ∈ cons, c.Sat ρ) ∧
        (∀ signal e, (buildEncodedFastSubstitutions subs).lookup signal = some e →
          ρ signal = e.eval ρ) ↔ ∀ c ∈ keptEqualities forbidden cEq, c.Sat ρ) := by
  obtain ⟨subs, hrun, hall⟩ := constantEqSimplification_eq forbidden hc
  refine ⟨subs, _, hrun, fun ρ h1 => ?_⟩
  have hkept := forall₂_solves_lastOfEach hall
  rw [holds_iff_lookup (encodes_lastOfEach subs) h1, keptEqualities, List.forall_mem_append]
  refine and_congr_right fun _ => ⟨?_, ?_⟩
  · intro hholds c hc
    obtain ⟨s, hs, hsolves⟩ := Lib.exists_of_forall₂_left hkept hc
    exact (hsolves.holds_iff ρ).mp (hholds s hs)
  · intro hsat s hs
    obtain ⟨c, hc, hsolves⟩ := Lib.exists_of_forall₂_right hkept hs
    exact (hsolves.holds_iff ρ).mpr (hsat c hc)

/-- If the forbidden signals have values, the kept constant equalities have a solution. -/
theorem exists_sat_kept (hc : ∀ c ∈ cEq, IsSingle p c) (hagree : ∀ s ∈ forbidden, AgreeOn p cEq s) :
    ∃ ρ : ℕ → ZMod p, ρ 0 = 1 ∧ ∀ c ∈ keptEqualities forbidden cEq, c.Sat ρ := by
  have hvalue : ∀ s, ∃ x : ZMod p, ∀ c ∈ keptEqualities forbidden cEq, c.takeClonedSignals = {s} →
      x = valueOf p c s := by
    intro s
    by_cases hex : ∃ d ∈ keptEqualities forbidden cEq, d.takeClonedSignals = {s}
    · obtain ⟨d, hd, hds⟩ := hex
      refine ⟨valueOf p d s, fun c hck hcs => ?_⟩
      by_cases hf : s ∈ forbidden
      · exact hagree s hf d (mem_of_mem_keptEqualities hd) c (mem_of_mem_keptEqualities hck) hds hcs
      · rw [eq_of_mem_keptEqualities hd hck (hds.trans hcs.symm)]
        rwa [hds, Finset.singleton_subset_iff]
    · exact ⟨0, fun c hck hcs => absurd ⟨c, hck, hcs⟩ hex⟩
  choose value hvalue using hvalue
  refine ⟨fun k => if k = 0 then 1 else value k, if_pos rfl, fun c hck => ?_⟩
  have hsingle := hc c (mem_of_mem_keptEqualities hck)
  obtain ⟨s, hs⟩ := hsingle.single
  have hs0 : s ≠ 0 := by
    have : s ∈ c.takeClonedSignals := by rw [hs]; exact Finset.mem_singleton_self s
    exact (Constraint.mem_takeClonedSignals.mp this).1
  rw [hsingle.sat_iff_value hs (if_pos rfl)]
  simp only [if_neg hs0]
  exact hvalue s c hck hs

/-- The phase keeps the solutions exactly if the constant equalities of each signal that is not forbidden
agree, or those of a forbidden signal do not and there is no solution. -/
theorem constantEqSimplification_equivalent_iff (forbidden : Finset ℕ) {cEq : List C}
    (hc : ∀ c ∈ cEq, IsSingle p c) :
    ∃ subs cons, constantEqSimplification cEq forbidden p = some (subs, cons) ∧
      ((∀ ρ : ℕ → ZMod p, ρ 0 = 1 → ((∀ c ∈ cEq, c.Sat ρ) ↔ (∀ c ∈ cons, c.Sat ρ) ∧
        ∀ signal e, (buildEncodedFastSubstitutions subs).lookup signal = some e →
          ρ signal = e.eval ρ)) ↔
        (∀ s, s ∉ forbidden → AgreeOn p cEq s) ∨ ∃ s ∈ forbidden, ¬ AgreeOn p cEq s) := by
  obtain ⟨subs, cons, hrun, hsat⟩ := constantEqSimplification_sat forbidden hc
  refine ⟨subs, cons, hrun, ?_⟩
  constructor
  · intro hiff
    by_cases hagree : ∀ s ∈ forbidden, AgreeOn p cEq s
    · left
      intro s _ c hcm d hdm hcs hds
      obtain ⟨ρ, h1, hkept⟩ := exists_sat_kept hc hagree
      have hall := (hiff ρ h1).mpr ((hsat ρ h1).mpr hkept)
      rw [← ((hc c hcm).sat_iff_value hcs h1).mp (hall c hcm)]
      exact ((hc d hdm).sat_iff_value hds h1).mp (hall d hdm)
    · right
      push Not at hagree
      exact hagree
  · intro hcase ρ h1
    rw [hsat ρ h1]
    constructor
    · intro hall c hck
      exact hall c (mem_of_mem_keptEqualities hck)
    · intro hkept c hcm
      obtain ⟨s, hs⟩ := (hc c hcm).single
      rcases hcase with hfree | ⟨t, ht, hnot⟩
      · by_cases hf : s ∈ forbidden
        · refine hkept c (mem_keptEqualities_of_forbidden hcm ?_)
          rwa [hs, Finset.singleton_subset_iff]
        · -- the constant equality that is kept for the signal has the same value
          obtain ⟨d, hd, heq⟩ := exists_mem_keptEqualities forbidden hcm
          have hdm := mem_of_mem_keptEqualities hd
          rw [(hc c hcm).sat_iff_value hs h1, hfree s hf c hcm d hdm hs (heq.trans hs)]
          exact ((hc d hdm).sat_iff_value (heq.trans hs) h1).mp (hkept d hd)
      · refine absurd ?_ hnot
        intro d hdm e hem hds hes
        have hvalue : ∀ c ∈ cEq, c.takeClonedSignals = {t} → ρ t = valueOf p c t := by
          intro c hcm hcs
          refine ((hc c hcm).sat_iff_value hcs h1).mp (hkept c ?_)
          refine mem_keptEqualities_of_forbidden hcm ?_
          rwa [hcs, Finset.singleton_subset_iff]
        exact (hvalue d hdm hds).symm.trans (hvalue e hem hes)

/-- `x1 = 1` and `x2 = 2` over the field with five elements. -/
theorem constantEqSimplification_equivalent_iff_five :
    let cEq : List C := [⟨∅, ∅, AList.ofPairs [(1, 1), (0, 4)]⟩, ⟨∅, ∅, AList.ofPairs [(2, 1), (0, 3)]⟩]
    ∃ subs cons, constantEqSimplification cEq {0} 5 = some (subs, cons) ∧
      ((∀ ρ : ℕ → ZMod 5, ρ 0 = 1 → ((∀ c ∈ cEq, c.Sat ρ) ↔ (∀ c ∈ cons, c.Sat ρ) ∧
        ∀ signal e, (buildEncodedFastSubstitutions subs).lookup signal = some e →
          ρ signal = e.eval ρ)) ↔
        (∀ s, s ∉ ({0} : Finset ℕ) → AgreeOn 5 cEq s) ∨ ∃ s ∈ ({0} : Finset ℕ), ¬ AgreeOn 5 cEq s) := by
  intro cEq
  have : Fact (Nat.Prime 5) := ⟨by norm_num⟩
  have hsingle : ∀ c ∈ cEq, IsSingle 5 c := by
    intro c hc
    simp only [cEq, List.mem_cons, List.not_mem_nil, or_false] at hc
    rcases hc with rfl | rfl
    · exact ⟨by decide, by decide, 1, by decide⟩
    · exact ⟨by decide, by decide, 2, by decide⟩
  exact constantEqSimplification_equivalent_iff {0} hsingle

/-- Of `x1 = 1` and `x1 = 2` the second one is left, and `x1 = 2` satisfies it. -/
theorem constantEqSimplification_loses_equation :
    let cEq : List C := [⟨∅, ∅, AList.ofPairs [(1, 1), (0, 4)]⟩, ⟨∅, ∅, AList.ofPairs [(1, 1), (0, 3)]⟩]
    (∀ c ∈ cEq, IsSingle 5 c) ∧
      ∃ subs cons, constantEqSimplification cEq {0} 5 = some (subs, cons) ∧
        ¬ ∀ ρ : ℕ → ZMod 5, ρ 0 = 1 → ((∀ c ∈ cEq, c.Sat ρ) ↔ (∀ c ∈ cons, c.Sat ρ) ∧
          ∀ signal e, (buildEncodedFastSubstitutions subs).lookup signal = some e →
            ρ signal = e.eval ρ) := by
  intro cEq
  have hkept : ∀ c ∈ keptEqualities {0} cEq,
      c.Sat (fun k => if k = 0 then (1 : ZMod 5) else 2) := by decide
  have hnot : ¬ ∀ c ∈ cEq, c.Sat (fun k => if k = 0 then (1 : ZMod 5) else 2) := by decide
  have : Fact (Nat.Prime 5) := ⟨by norm_num⟩
  have hsingle : ∀ c ∈ cEq, IsSingle 5 c := by
    intro c hc
    simp only [cEq, List.mem_cons, List.not_mem_nil, or_false] at hc
    rcases hc with rfl | rfl
    · exact ⟨by decide, by decide, 1, by decide⟩
    · exact ⟨by decide, by decide, 1, by decide⟩
  refine ⟨hsingle, ?_⟩
  obtain ⟨subs, cons, hrun, hsat⟩ := constantEqSimplification_sat {0} hsingle
  refine ⟨subs, cons, hrun, fun hiff => ?_⟩
  exact hnot ((hiff _ rfl).mpr ((hsat _ rfl).mpr hkept))

end Circom.ConstraintList
