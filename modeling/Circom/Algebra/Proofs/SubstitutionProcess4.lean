import Circom.Algebra.Proofs.Termination4

/-!
# The second heuristic: the least frequent signal

`substitution_process_4` first solves the constraints of the signals that occur once, then takes a
signal that is already eliminated if there is one and the least frequent one otherwise. The
right-hand side of a pivot has no signal that was eliminated before it.
-/

namespace Circom.Algebra.SimplificationUtils

open Circom.Lib (HashMap HashOrder weight weight_lt_two_pow foldlM_invariant)

variable {p : ℕ} {forbidden : Finset ℕ} {known : Set ℕ}
variable {constraints remaining : List C} {state : State4}

/-- The invariant of the process. -/
structure Inv4 (p : ℕ) (forbidden : Finset ℕ) (known : Set ℕ) (remaining : List C)
    (state : State4) : Prop where
  forbidden_eq : state.signals.forbidden = forbidden
  eliminated : Eliminated p forbidden known state.substitutions state.lconst
  nodup : state.signals.orderSignals.Nodup
  mem_order : ∀ k, k ∈ state.signals.orderSignals ↔ k ∈ state.substitutions
  mem_deleted : ∀ k, k ∈ state.signals.deletedSymbols ↔ k ∈ state.substitutions
  triangular : state.signals.orderSignals.Pairwise fun x y =>
    ∀ e, state.substitutions.lookup x = some e → y ∉ e.2.toExpr
  counters : CountersOk forbidden known state.substitutions state.infoOcurrences remaining

/-! ## The steps of the invariant -/

theorem Inv4.safe (h : Inv4 p forbidden known remaining state) : Safe4 forbidden known remaining state where
  forbidden_eq := h.forbidden_eq
  takeable := fun k hk => by
    obtain ⟨e, he⟩ := AList.mem_iff_exists_lookup.mp hk
    exact (h.eliminated.pivot k e he).2.1
  pivot := fun k e he => by
    obtain ⟨hfrom, -, hok⟩ := h.eliminated.pivot k e he
    exact ⟨hok.constantMem, hfrom ▸ hok.fromNotMem, (h.eliminated.pivotKnown k e he).2⟩
  nodup := h.nodup
  mem_order := h.mem_order
  mem_deleted := h.mem_deleted
  triangular := h.triangular
  counters := h.counters

theorem Safe4.inv4 (h : Safe4 forbidden known remaining state)
    (helim : Eliminated p forbidden known state.substitutions state.lconst) : Inv4 p forbidden known remaining state :=
  ⟨h.forbidden_eq, helim, h.nodup, h.mem_order, h.mem_deleted, h.triangular, h.counters⟩

theorem Inv4.removeConstraint (h : Inv4 p forbidden known remaining state) (rest : List C) {c : C}
    (hc : ∀ k ∈ c.c, k ∈ known) (hocc : ∀ k, ocurrences k remaining = ocurrences k rest + if k ∈ c.c then 1 else 0) :
    ∃ info, state.infoOcurrences.removeConstraint c state.signals = some info ∧
      Inv4 p forbidden known rest { state with infoOcurrences := info } := by
  obtain ⟨info, hrun, hinfo⟩ := h.counters.removeConstraint rest h.forbidden_eq hc hocc
  exact ⟨info, hrun, h.forbidden_eq, h.eliminated, h.nodup, h.mem_order, h.mem_deleted,
    h.triangular, hinfo⟩

theorem Inv4.insert (h : Inv4 p forbidden known remaining state) {out : ℕ} {e : ℤ × S}
    (hout : out ∉ state.substitutions)
    (helim : Eliminated p forbidden known (state.substitutions.insert out e) state.lconst)
    (horder : ∀ y ∈ state.substitutions, y ∉ e.2.toExpr) :
    Inv4 p forbidden known remaining
      { state with
        signals := state.signals.delete out
        infoOcurrences := state.infoOcurrences.removeSignal out
        substitutions := state.substitutions.insert out e } := by
  obtain ⟨hfrom, hforb, hok⟩ := helim.pivot out e (AList.lookup_insert _)
  have hknown := (helim.pivotKnown out e (AList.lookup_insert _)).2
  have hsafe := h.safe.insert hout hforb ⟨hok.constantMem, hfrom ▸ hok.fromNotMem, hknown⟩ horder
  exact hsafe.inv4 helim

/-! ## Taking a constraint out of a list -/

theorem admissible_empty : Admissible p known Constraint.empty :=
  ⟨⟨rfl, ⟨Constraint.coeffsInField_empty _, Constraint.coeffsInField_empty _,
    Constraint.coeffsInField_empty _⟩, ⟨Constraint.noZeroCoeff_empty, Constraint.noZeroCoeff_empty,
    Constraint.noZeroCoeff_empty⟩⟩, fun k hk => absurd hk (AList.notMem_empty k)⟩

/-- Emptying a constraint takes its equation away. -/
theorem forall_sat_set {pos : ℕ} {c : C} (h : constraints[pos]? = some c) (ρ : ℕ → ZMod p) :
    (∀ d ∈ constraints, d.Sat ρ) ↔
      (∀ d ∈ constraints.set pos Constraint.empty, d.Sat ρ) ∧ c.Sat ρ := by
  have he : (Constraint.empty : C).Sat ρ := Constraint.sat_of_isEmpty rfl
  constructor
  · intro hall
    refine ⟨fun d hd => ?_, hall c (List.mem_of_getElem? h)⟩
    rcases List.mem_or_eq_of_mem_set hd with hd | rfl
    · exact hall d hd
    · exact he
  · rintro ⟨hall, hc⟩ d hd
    obtain ⟨i, hi⟩ := List.mem_iff_getElem?.mp hd
    by_cases hpi : pos = i
    · subst hpi
      rw [h, Option.some.injEq] at hi
      exact hi ▸ hc
    · exact hall d (List.mem_of_getElem? (by rw [List.getElem?_set_ne hpi]; exact hi))

variable [hp : Fact p.Prime]

/-! ## The loop -/

theorem treatConstraint4Loop_spec (o : HashOrder) (h0 : 0 ∈ forbidden) (hz : 0 ∈ known)
    (hinv : Inv4 p forbidden known remaining state) (fuel : ℕ) : ∀ work : C, Admissible p known work →
      weight (· ∈ work.c) state.signals.orderSignals < fuel →
      ∃ state', treatConstraint4Loop o p fuel state work = some state' ∧
        Inv4 p forbidden known remaining state' ∧
        ∀ ρ : ℕ → ZMod p, ρ 0 = 1 → (Solution ρ state'.substitutions state'.lconst ↔
          Solution ρ state.substitutions state.lconst ∧ work.Sat ρ) := by
  induction fuel with
  | zero => exact fun _ _ hf => absurd hf (Nat.not_lt_zero _)
  | succ fuel ih =>
    intro work hwork hfuel
    unfold treatConstraint4Loop
    split_ifs with hempty
    · exact ⟨state, rfl, hinv, fun ρ _ => (and_iff_left (Constraint.sat_of_isEmpty hempty)).symm⟩
    obtain ⟨result, htk, hforbidden, htake⟩ := hinv.safe.takeSignal (o.sub fuel) hwork.2
    cases result with
    | none =>
      refine ⟨{ state with lconst := state.lconst ++ [work] }, by simp [htk],
        ⟨hinv.forbidden_eq, hinv.eliminated.push hwork (hforbidden rfl), hinv.nodup, hinv.mem_order,
          hinv.mem_deleted, hinv.triangular, hinv.counters⟩, fun ρ _ => solution_push ρ _ _ _⟩
    | some out =>
      obtain ⟨hout, hforb, hdel⟩ := htake out rfl
      cases hst : state.substitutions.lookup out with
      | none =>
        have hnot : out ∉ state.substitutions := AList.lookup_eq_none.mp hst
        obtain ⟨coefficient, rest, hclear, helim, hsol, hkeys⟩ :=
          insert_round hinv.eliminated hz hwork hout hforb h0 hst
        -- no eliminated signal was met on the walk, so the pivot has none
        have horder : ∀ y ∈ state.substitutions, y ∉ rest := fun y hy hyr => by
          obtain ⟨e, he⟩ := AList.mem_iff_exists_lookup.mp hy
          have hyf := (hinv.eliminated.pivot y e he).2.1
          rcases hkeys y hyr with rfl | ⟨hyc, -⟩
          · exact hyf h0
          · exact hdel.elim hnot fun hd => hd y hyc hyf hy
        exact ⟨_, by simp [htk, hclear, hst], hinv.insert hnot helim horder, fun ρ _ => hsol ρ⟩
      | some stored =>
        obtain ⟨coefficient, rest, work', hclear, hmerge, hadm, hsol, hkeys⟩ :=
          merge_round hinv.eliminated hz hwork hout hforb h0 hst
        have hw := hinv.safe.merge_weight_lt h0 work' hst hout hkeys
        obtain ⟨state', hrun, hinv', hsol'⟩ := ih work' hadm (by omega)
        refine ⟨state', ?_, hinv', fun ρ h1 => (hsol' ρ h1).trans (hsol ρ h1)⟩
        simp [htk, hclear, hst, hmerge, hrun]

theorem treatConstraint4_spec (o : HashOrder) (h0 : 0 ∈ forbidden) (hz : 0 ∈ known)
    (hinv : Inv4 p forbidden known remaining state) {work : C} (hwork : Admissible p known work) :
    ∃ state', treatConstraint4 o p state work = some state' ∧
      Inv4 p forbidden known remaining state' ∧
      ∀ ρ : ℕ → ZMod p, ρ 0 = 1 → (Solution ρ state'.substitutions state'.lconst ↔
        Solution ρ state.substitutions state.lconst ∧ work.Sat ρ) := by
  refine treatConstraint4Loop_spec o h0 hz hinv _ work hwork ?_
  rw [loopBound, ← hinv.safe.length_orderSignals]
  exact weight_lt_two_pow _ _

/-! ## The first pass -/

/-- What the first pass keeps. Eliminated signals do not occur in the constraints that are left. -/
structure UniquePass (p : ℕ) (forbidden : Finset ℕ) (known : Set ℕ) (constraints : List C)
    (acc : State4 × List C) : Prop where
  inv : Inv4 p forbidden known acc.2 acc.1
  admissible : ∀ c ∈ acc.2, Admissible p known c
  position : ∀ pos : ℕ, pos < constraints.length →
    ∃ c, acc.2[pos]? = some c ∧ (c.isEmpty ∨ constraints[pos]? = some c)
  fewer : ∀ k, ocurrences k acc.2 ≤ ocurrences k constraints
  gone : ∀ k ∈ acc.1.substitutions, ocurrences k acc.2 = 0
  sat_iff : ∀ ρ : ℕ → ZMod p, Solution ρ acc.1.substitutions acc.1.lconst ∧
    (∀ c ∈ acc.2, c.Sat ρ) ↔ ∀ c ∈ constraints, c.Sat ρ

theorem treatUnique4_spec (h0 : 0 ∈ forbidden) (hz : 0 ∈ known) {acc : State4 × List C}
    (h : UniquePass p forbidden known constraints acc) {k pos : ℕ} (hk : k ∉ forbidden)
    (hone : ocurrences k constraints = 1) (hpos : ∃ c, constraints[pos]? = some c ∧ k ∈ c.c) :
    ∃ acc', treatUnique4 p acc (k, pos) = some acc' ∧
      UniquePass p forbidden known constraints acc' := by
  obtain ⟨state, vec⟩ := acc
  obtain ⟨c, hc, hkc⟩ := hpos
  obtain ⟨d, hd, hd'⟩ := position_cases h.position hc
  simp only at hd
  by_cases hempty : d.isEmpty
  · exact ⟨(state, vec), by simp [treatUnique4, hd, hempty], h⟩
  obtain rfl : d = c := hd'.resolve_left hempty
  have hadm : Admissible p known d := h.admissible d (List.mem_of_getElem? hd)
  have hocc := ocurrences_set hd
  obtain ⟨info, hinfo, hinv⟩ := h.inv.removeConstraint (vec.set pos Constraint.empty)
    hadm.2 hocc
  -- the signal still occurs, so it is not eliminated yet
  have hnot : k ∉ state.substitutions := fun hm => by
    have := h.gone k hm
    rw [hocc k, if_pos hkc] at this
    omega
  obtain ⟨coefficient, rest, hclear, helim, hsol, hkeys⟩ :=
    insert_round h.inv.eliminated hz hadm hkc hk h0 (AList.lookup_eq_none.mpr hnot)
  have horder : ∀ y ∈ state.substitutions, y ∉ rest := fun y hy hyr => by
    have hgone := ocurrences_eq_zero.mp (h.gone y hy) d (List.mem_of_getElem? hd)
    obtain ⟨e, he⟩ := AList.mem_iff_exists_lookup.mp hy
    rcases hkeys y hyr with rfl | ⟨hyc, -⟩
    · exact (h.inv.eliminated.pivot 0 e he).2.1 h0
    · exact hgone hyc
  refine ⟨({ state with
      signals := state.signals.delete k
      substitutions := state.substitutions.insert k (coefficient, ⟨k, rest⟩)
      infoOcurrences := info.removeSignal k }, vec.set pos Constraint.empty),
    by simp [treatUnique4, treatUniqueConstraint4, hd, hempty, hinfo, hclear],
    hinv.insert hnot helim horder, fun c' hc' => ?_,
    position_set h.position (List.getElem?_eq_some_iff.mp hd).1,
    fun k' => (ocurrences_set_le hd k').trans (h.fewer k'),
    gone_insert hd hkc hone h.fewer h.gone _, fun ρ => ?_⟩
  · rcases List.mem_or_eq_of_mem_set hc' with hc' | rfl
    · exact h.admissible c' hc'
    · exact admissible_empty
  · rw [hsol ρ, ← h.sat_iff ρ, forall_sat_set hd ρ]
    tauto

/-! ## The whole process -/

theorem substitutionProcess4_spec (o : HashOrder) (h0 : 0 ∈ forbidden)
    (hz : known = {k | k = 0 ∨ ∃ c ∈ constraints, k ∈ c.c}) (hc : ∀ c ∈ constraints, Admissible p known c) :
    ∃ state, substitutionProcess4 o ⟨∅, forbidden, []⟩ constraints p = some state ∧
      Inv4 p forbidden known [] state ∧
      ∀ ρ : ℕ → ZMod p, ρ 0 = 1 → (Solution ρ state.substitutions state.lconst ↔
        ∀ c ∈ constraints, c.Sat ρ) := by
  have hz0 : 0 ∈ known := by rw [hz]; exact Or.inl rfl
  obtain ⟨info, uniques, hnew, hinfo, huniques⟩ :=
    SignalsInformation.new_spec constraints ⟨∅, forbidden, []⟩
  have hinit : UniquePass p forbidden known constraints
      (⟨⟨∅, forbidden, []⟩, ∅, [], info⟩, constraints) := by
    refine ⟨⟨rfl, .empty, List.nodup_nil, fun k => by simp, fun k => by simp, List.Pairwise.nil,
      fun k hk hf => ?_⟩, hc, fun pos hpos => ⟨_, List.getElem?_eq_getElem hpos, Or.inr ?_⟩,
      fun k => le_rfl, fun k hk => absurd hk (AList.notMem_empty k),
      fun ρ => and_iff_right (solution_empty ρ)⟩
    · rw [if_neg (AList.notMem_empty k)]
      refine hinfo k hf fun hzero => ?_
      rw [hz] at hk
      rcases hk with rfl | ⟨c, hcm, hkc⟩
      · exact hf h0
      · exact ocurrences_eq_zero.mp hzero c hcm hkc
    · exact List.getElem?_eq_getElem hpos
  obtain ⟨⟨state, vec⟩, hrun, -, hpass⟩ := foldlM_invariant (f := treatUnique4 (p : ℤ))
    (fun l acc => (∀ e ∈ l, uniques.lookup e.1 = some e.2) ∧
      UniquePass p forbidden known constraints acc)
    (fun e l acc ⟨hl, h⟩ => by
      obtain ⟨hk, hone, hpos⟩ := huniques e.1 e.2 (hl e List.mem_cons_self)
      obtain ⟨acc', hstep, h'⟩ := treatUnique4_spec h0 hz0 h hk hone hpos
      exact ⟨acc', hstep, fun e' he' => hl e' (List.mem_cons_of_mem e he'), h'⟩)
    ⟨fun e he => AList.mem_ascendingPairs.mp he, hinit⟩
  obtain ⟨state', hrun', -, hinv', hsol'⟩ := foldlM_invariant
    (f := treatRemaining4 o (p : ℤ))
    (fun l state => (∀ c ∈ l.map Prod.fst, Admissible p known c) ∧
      Inv4 p forbidden known (l.map Prod.fst) state ∧
      ∀ ρ : ℕ → ZMod p, ρ 0 = 1 →
        (Solution ρ state.substitutions state.lconst ∧ (∀ c ∈ l.map Prod.fst, c.Sat ρ) ↔
          ∀ c ∈ constraints, c.Sat ρ))
    (fun e l state ⟨hadm, hinv, hsol⟩ => by
      simp only [List.map_cons] at hadm hinv hsol
      obtain ⟨info', hinfo', hinv'⟩ := hinv.removeConstraint (l.map Prod.fst)
        (hadm e.1 List.mem_cons_self).2 fun k => ocurrences_cons k e.1 _
      obtain ⟨state', hstep, hinv'', hsol'⟩ := treatConstraint4_spec (o.sub e.2) h0 hz0 hinv'
        (hadm e.1 List.mem_cons_self)
      refine ⟨state', by simp [treatRemaining4, hinfo', hstep],
        fun c hc => hadm c (List.mem_cons_of_mem _ hc), hinv'', fun ρ h1 => ?_⟩
      rw [hsol' ρ h1, ← hsol ρ h1, List.forall_mem_cons, and_assoc])
    (l := vec.zipIdx.reverse) (s := state)
    (by
      have hperm : (vec.zipIdx.reverse.map Prod.fst).Perm vec := by
        rw [List.map_reverse, List.zipIdx_map_fst]
        exact List.reverse_perm vec
      refine ⟨fun c hcm => hpass.admissible c (hperm.mem_iff.mp hcm), ?_, fun ρ _ => ?_⟩
      · obtain ⟨h1, h2, h3, h4, h5, h6, h7⟩ := hpass.inv
        refine ⟨h1, h2, h3, h4, h5, h6, fun k hk hf => (h7 k hk hf).trans ?_⟩
        rw [ocurrences, ocurrences, hperm.countP_eq]
      · rw [← hpass.sat_iff ρ]
        simp only [hperm.mem_iff])
  refine ⟨state', ?_, hinv', fun ρ h1 => by simpa using hsol' ρ h1⟩
  simp only [substitutionProcess4, hnew, Option.bind_eq_bind, Option.bind_some]
  rw [hrun]
  exact hrun'

end Circom.Algebra.SimplificationUtils
