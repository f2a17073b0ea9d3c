import Circom.ConstraintList.Proofs.EqualityClusters

/-!
# The phase of constant equalities

A constant equality of a signal that is not forbidden becomes a substitution. The substitutions are put into
a table, where the last one of every signal stays: the earlier constant equalities of the signal are lost.
-/

namespace Circom.ConstraintList

open Circom.Algebra (Constraint)
open Circom.Algebra.SimplificationUtils (Encodes Rewrites buildEncodedFastSubstitutions replaced
  mem_replaced)
open Circom.Lib (HashMap lastOfEach lastOfEach_filter mem_lastOfEach forall₂_lastOfEach
  nodup_map_lastOfEach mem_map_lastOfEach)

variable {p : ℕ} {forbidden : Finset ℕ}

/-! ## Tables with several substitutions of one signal -/

theorem encodes_lastOfEach (subs : List S) :
    Encodes (buildEncodedFastSubstitutions subs) (lastOfEach (fun s => s.fromSignal) subs) := by
  have hforall : List.Forall₂ (fun (s : S) e => s.decompose = e)
      (lastOfEach (fun s => s.fromSignal) subs)
      (lastOfEach Prod.fst (subs.map Algebra.Substitution.decompose)) := by
    refine forall₂_lastOfEach ?_ ?_
    · rw [List.forall₂_map_right_iff]
      exact List.forall₂_same.mpr fun s _ => rfl
    · rintro s _ t _ rfl rfl
      exact Iff.rfl
  intro k e
  rw [buildEncodedFastSubstitutions, AList.lookup_ofPairs_lastOfEach]
  constructor
  · intro hmem
    exact Lib.exists_of_forall₂_right hforall hmem
  · rintro ⟨s, hs, hdec⟩
    obtain ⟨e', he', heq⟩ := Lib.exists_of_forall₂_left hforall hs
    rw [← hdec, heq]
    exact he'

theorem replaced_lastOfEach (subs : List S) :
    replaced (lastOfEach (fun s => s.fromSignal) subs) = replaced subs := by
  rw [replaced, replaced]
  ext k
  rw [List.mem_toFinset, List.mem_toFinset, mem_map_lastOfEach]

/-! ## The constant equalities that are kept -/

/-- The constant equalities of forbidden signals, and the last one of every other signal. -/
def keptEqualities (forbidden : Finset ℕ) (cEq : List C) : List C :=
  (cEq.filter fun c => c.takeClonedSignals ⊆ forbidden) ++
    (lastOfEach (fun c => c.takeClonedSignals) cEq).filter fun c => ¬ c.takeClonedSignals ⊆ forbidden

theorem mem_keptEqualities {cEq : List C} {c : C} :
    c ∈ keptEqualities forbidden cEq ↔ ∃ i, cEq[i]? = some c ∧
      (c.takeClonedSignals ⊆ forbidden ∨
        ∀ (j : ℕ) d, i < j → cEq[j]? = some d → d.takeClonedSignals ≠ c.takeClonedSignals) := by
  simp only [keptEqualities, List.mem_append, List.mem_filter, mem_lastOfEach, decide_eq_true_eq]
  constructor
  · rintro (⟨hc, hf⟩ | ⟨⟨i, hi, hlater⟩, -⟩)
    · obtain ⟨i, hi⟩ := List.mem_iff_getElem?.mp hc
      exact ⟨i, hi, Or.inl hf⟩
    · exact ⟨i, hi, Or.inr hlater⟩
  · rintro ⟨i, hi, hf⟩
    by_cases hsub : c.takeClonedSignals ⊆ forbidden
    · exact Or.inl ⟨List.mem_of_getElem? hi, hsub⟩
    · exact Or.inr ⟨⟨i, hi, hf.resolve_left hsub⟩, hsub⟩

/-- A linear constraint with exactly one signal. -/
structure IsSingle (p : ℕ) (c : C) : Prop where
  linear : c.isLinear
  nonzero : c.NonzeroCoeffs p
  single : ∃ s, c.takeClonedSignals = {s}

/-- The substitution solves the constant equality for its signal. -/
structure Solves (p : ℕ) (c : C) (sub : S) : Prop where
  signal_eq : c.takeClonedSignals = {sub.fromSignal}
  toExpr : ∀ k ∈ sub.toExpr, k = 0
  holds_iff : ∀ ρ : ℕ → ZMod p, sub.Holds ρ ↔ c.Sat ρ

theorem Solves.eliminates {c : C} {sub : S} (h : Solves p c sub)
    (hf : ¬ c.takeClonedSignals ⊆ forbidden) : Eliminates p forbidden [c] [sub] [] := by
  have hnot : sub.fromSignal ∉ forbidden := by
    rw [h.signal_eq, Finset.singleton_subset_iff] at hf
    exact hf
  have hmem : sub.fromSignal ≠ 0 ∧ c.Mentions sub.fromSignal :=
    Constraint.mem_takeClonedSignals.mp (by rw [h.signal_eq]; exact Finset.mem_singleton_self _)
  refine ⟨List.nodup_singleton _, ?_, ?_, ?_, ?_, ?_, ?_, ?_⟩
  · intro s hs
    rw [List.mem_singleton.mp hs]
    exact hnot
  · intro s hs t ht hk
    rw [List.mem_singleton.mp ht] at hk
    rw [List.mem_singleton.mp hs] at hk
    exact hmem.1 (h.toExpr _ hk)
  · intro d hd
    cases hd
  · intro s hs
    rw [List.mem_singleton.mp hs]
    exact ⟨c, List.mem_singleton_self c, hmem.2⟩
  · intro s hs k hk
    rw [List.mem_singleton.mp hs] at hk
    exact Or.inl (h.toExpr k hk)
  · rintro k ⟨d, hd, -⟩
    cases hd
  · intro ρ _
    simp [h.holds_iff ρ]

theorem Eliminates.append_keep {before : List C} {subs : List S} {cons kept : List C}
    (h : Eliminates p forbidden before subs cons)
    (hkept : ∀ c ∈ kept, ∀ k, c.Mentions k → k ∈ forbidden) :
    Eliminates p forbidden (kept ++ before) subs (kept ++ cons) where
  nodup := h.nodup
  takeable := h.takeable
  free := h.free
  rest := by
    intro c hc
    rcases List.mem_append.mp hc with hc | hc
    · exact hkept c hc
    · exact h.rest c hc
  fromKnown := fun s hs => Occurs.append.mpr (Or.inr (h.fromKnown s hs))
  toKnown := fun s hs k hk => (h.toKnown s hs k hk).imp_right fun hk => Occurs.append.mpr (Or.inr hk)
  restKnown := by
    intro k hk
    rw [Occurs.append] at hk ⊢
    rcases hk with hk | hk
    · exact Or.inr (Or.inl hk)
    · exact (h.restKnown k hk).imp_right Or.inr
  sat_iff := by
    intro ρ h1
    rw [List.forall_mem_append, List.forall_mem_append, ← h.sat_iff ρ h1]
    exact and_left_comm

/-- The last substitution of a signal solves the last constant equality of the signal. -/
theorem forall₂_solves_lastOfEach {cEq : List C} {subs : List S}
    (h : List.Forall₂ (Solves p) (cEq.filter fun c => ¬ c.takeClonedSignals ⊆ forbidden) subs) :
    List.Forall₂ (Solves p)
      ((lastOfEach (fun c => c.takeClonedSignals) cEq).filter
        fun c => ¬ c.takeClonedSignals ⊆ forbidden)
      (lastOfEach (fun s => s.fromSignal) subs) := by
  rw [← lastOfEach_filter]
  · refine forall₂_lastOfEach h ?_
    intro c s c' s' h h'
    rw [h.signal_eq, h'.signal_eq, Finset.singleton_inj]
  · intro c d heq
    simp only [heq]

variable [hp : Fact p.Prime]

theorem IsSingle.solves {c : C} (hc : IsSingle p c) :
    ∃ signal sub, c.takeClonedSignalsOrdered.getLast? = some signal ∧
      c.takeClonedSignals = {signal} ∧ c.clearSignalFromLinear signal p = some sub ∧
      Solves p c sub := by
  obtain ⟨hlin, hnonzero, s, hs⟩ := hc
  have hmem : s ≠ 0 ∧ c.Mentions s :=
    Constraint.mem_takeClonedSignals.mp (by rw [hs]; exact Finset.mem_singleton_self _)
  have hordered : c.takeClonedSignalsOrdered = [s] := by
    have hlen : c.takeClonedSignalsOrdered.length = 1 := by
      rw [Constraint.takeClonedSignalsOrdered, Finset.length_ascending, hs, Finset.card_singleton]
    obtain ⟨x, hx⟩ := List.length_eq_one_iff.mp hlen
    have : x ∈ c.takeClonedSignalsOrdered := by rw [hx]; exact List.mem_singleton_self x
    rw [Constraint.takeClonedSignalsOrdered, Finset.mem_ascending, hs, Finset.mem_singleton] at this
    rw [hx, this]
  have hkey : ∀ k, k ∈ c.c ↔ c.Mentions k := fun k =>
    (Constraint.mentions_iff_of_isLinear hlin).symm
  obtain ⟨sub, hsub, hfrom, -, hholds, hto⟩ :=
    Constraint.clearSignalFromLinear_spec hlin hnonzero ((hkey s).mpr hmem.2) hmem.1
  refine ⟨s, sub, by rw [hordered]; rfl, hs, hsub, by rw [hfrom]; exact hs, ?_, hholds⟩
  intro k hk
  by_contra hk0
  obtain ⟨hkc, hne⟩ := (hto k hk).resolve_left hk0
  have : k ∈ c.takeClonedSignals := Constraint.mem_takeClonedSignals.mpr ⟨hk0, (hkey k).mp hkc⟩
  rw [hs, Finset.mem_singleton] at this
  exact hne this

/-- What the loop over the constant equalities does. -/
theorem constantEqSimplification_eq (forbidden : Finset ℕ) {cEq : List C} (hc : ∀ c ∈ cEq, IsSingle p c) :
    ∃ subs, constantEqSimplification cEq forbidden p =
        some (subs, cEq.filter fun c => c.takeClonedSignals ⊆ forbidden) ∧
      List.Forall₂ (Solves p) (cEq.filter fun c => ¬ c.takeClonedSignals ⊆ forbidden) subs := by
  suffices hgeneral : ∀ (l : List C), (∀ c ∈ l, IsSingle p c) → ∀ (subs0 : List S) (cons0 : List C),
      ∃ subs, l.foldlM (fun (acc : List S × List C) constraint => do
          let signal ← constraint.takeClonedSignalsOrdered.getLast?
          if signal ∈ forbidden then some (acc.1, acc.2 ++ [constraint])
          else do
            let sub ← constraint.clearSignalFromLinear signal p
            some (acc.1 ++ [sub], acc.2)) (subs0, cons0) =
          some (subs0 ++ subs, cons0 ++ l.filter fun c => c.takeClonedSignals ⊆ forbidden) ∧
        List.Forall₂ (Solves p) (l.filter fun c => ¬ c.takeClonedSignals ⊆ forbidden) subs by
    exact hgeneral cEq hc [] []
  intro l
  induction l with
  | nil =>
    intro _ subs0 cons0
    exact ⟨[], by simp, by simp⟩
  | cons c l ih =>
    intro hl subs0 cons0
    obtain ⟨signal, sub, hlast, hsignals, hclear, hsolves⟩ := (hl c List.mem_cons_self).solves
    have htail := ih fun d hd => hl d (List.mem_cons_of_mem c hd)
    have hiff : c.takeClonedSignals ⊆ forbidden ↔ signal ∈ forbidden := by
      rw [hsignals, Finset.singleton_subset_iff]
    rw [List.foldlM_cons]
    simp only [hlast, Option.bind_eq_bind, Option.bind_some]
    by_cases hf : signal ∈ forbidden
    · obtain ⟨subs, hrun, hall⟩ := htail subs0 (cons0 ++ [c])
      refine ⟨subs, ?_, ?_⟩
      · rw [if_pos hf]
        refine hrun.trans ?_
        rw [List.filter_cons_of_pos (by simpa using hiff.mpr hf), List.append_assoc]
        rfl
      · rw [List.filter_cons_of_neg (by simpa using hiff.mpr hf)]
        exact hall
    · obtain ⟨subs, hrun, hall⟩ := htail (subs0 ++ [sub]) cons0
      refine ⟨sub :: subs, ?_, ?_⟩
      · rw [if_neg hf, hclear]
        refine hrun.trans ?_
        rw [List.filter_cons_of_neg (by simpa using fun h => hf (hiff.mp h)), List.append_assoc]
        rfl
      · rw [List.filter_cons_of_pos (by simpa using fun h => hf (hiff.mp h))]
        exact .cons hsolves hall

/-- The table of the phase solves the constant equalities that are kept, and only those. -/
theorem constantEqSimplification_spec (h0 : 0 ∈ forbidden) {cEq : List C}
    (hc : ∀ c ∈ cEq, IsSingle p c) :
    ∃ subs cons kept, constantEqSimplification cEq forbidden p = some (subs, cons) ∧
      Encodes (buildEncodedFastSubstitutions subs) kept ∧ replaced subs = replaced kept ∧
      Eliminates p forbidden (keptEqualities forbidden cEq) kept cons ∧
      ∀ s ∈ kept, ∀ k ∈ s.toExpr, k = 0 := by
  obtain ⟨subs, hrun, hall⟩ := constantEqSimplification_eq forbidden hc
  have hkept := forall₂_solves_lastOfEach hall
  refine ⟨subs, _, lastOfEach (fun s => s.fromSignal) subs, hrun, encodes_lastOfEach subs,
    (replaced_lastOfEach subs).symm, ?_, ?_⟩
  · have hparts : List.Forall₂ (fun part result => Eliminates p forbidden part result.1 result.2)
        (((lastOfEach (fun c => c.takeClonedSignals) cEq).filter
          fun c => ¬ c.takeClonedSignals ⊆ forbidden).map fun c => [c])
        ((lastOfEach (fun s => s.fromSignal) subs).map fun s => ([s], [])) := by
      rw [List.forall₂_map_left_iff, List.forall₂_map_right_iff]
      have hnot : ∀ c ∈ (lastOfEach (fun c => c.takeClonedSignals) cEq).filter
          (fun c => ¬ c.takeClonedSignals ⊆ forbidden), ¬ c.takeClonedSignals ⊆ forbidden := by
        intro c hc
        simpa using (List.mem_filter.mp hc).2
      refine ((List.forall₂_and_left _ _).mpr ⟨hnot, hkept⟩).imp ?_
      rintro c s ⟨hf, h⟩
      exact h.eliminates hf
    have hbefore : ∀ l : List C, (l.map fun c => [c]).flatten = l := fun l =>
      List.flatMap_def.symm.trans (List.flatMap_singleton' l)
    have hsubs : ∀ l : List S,
        (l.map fun s => ([s], ([] : List C))).flatMap (fun r => r.1) = l := by
      simp [List.flatMap_map]
    have hcons : ∀ l : List S,
        (l.map fun s => ([s], ([] : List C))).flatMap (fun r => r.2) = [] := by
      simp [List.flatMap_map]
    have helim := Eliminates.flatMap hparts h0 ?_
    · rw [hbefore, hsubs, hcons] at helim
      have hforbidden : ∀ c ∈ cEq.filter fun c => c.takeClonedSignals ⊆ forbidden, ∀ k,
          c.Mentions k → k ∈ forbidden := by
        intro c hc k hk
        obtain ⟨-, hsub⟩ := List.mem_filter.mp hc
        by_cases hk0 : k = 0
        · rw [hk0]
          exact h0
        · exact (of_decide_eq_true hsub) (Constraint.mem_takeClonedSignals.mpr ⟨hk0, hk⟩)
      have := helim.append_keep hforbidden
      rwa [List.append_nil] at this
    · rw [List.pairwise_map]
      have hnodup := nodup_map_lastOfEach (fun c : C => c.takeClonedSignals) cEq
      have hpw := (List.pairwise_map.mp hnodup).filter fun c => ¬ c.takeClonedSignals ⊆ forbidden
      refine hpw.imp_of_mem ?_
      intro c d hcm hdm hne k hk hkc hkd
      have hsingle : ∀ e, e ∈ (lastOfEach (fun c => c.takeClonedSignals) cEq).filter
          (fun c => ¬ c.takeClonedSignals ⊆ forbidden) → Occurs [e] k → e.takeClonedSignals = {k} := by
        rintro e he ⟨e', he', hm⟩
        rw [List.mem_singleton] at he'
        subst he'
        obtain ⟨i, hi, -⟩ := mem_lastOfEach.mp (List.mem_filter.mp he).1
        obtain ⟨s, hs⟩ := (hc e' (List.mem_of_getElem? hi)).single
        have : k ∈ e'.takeClonedSignals := Constraint.mem_takeClonedSignals.mpr ⟨hk, hm⟩
        rw [hs, Finset.mem_singleton] at this
        rw [hs, this]
      exact hne ((hsingle c hcm hkc).trans (hsingle d hdm hkd).symm)
  · intro s hs
    obtain ⟨c, -, h⟩ := Lib.exists_of_forall₂_right hkept hs
    exact h.toExpr

end Circom.ConstraintList
