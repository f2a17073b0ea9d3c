import Circom.Algebra.Proofs.Ocurrences

/-!
# The second heuristic never panics

What keeps `substitution_process_4` running concerns the keys of its tables only: the counters of the
signals that are not eliminated yet, and the order in which the others were. No coefficient has to be
invertible, or reduced, for it.
-/

namespace Circom.Algebra.SimplificationUtils

open Circom.Lib (HashMap HashOrder weight weight_lt_two_pow foldlM_invariant)

variable {p : ℕ} {forbidden : Finset ℕ} {known : Set ℕ}
variable {c work : C} {constraints remaining vec : List C} {holder : SHNotNormalized}
variable {info : SignalsInformation} {state : State4} {out pos : ℕ}

/-- The counters of the known signals, given the constraints still to be treated. -/
def CountersOk (forbidden : Finset ℕ) (known : Set ℕ) (holder : SHNotNormalized)
    (info : SignalsInformation) (remaining : List C) : Prop :=
  ∀ k ∈ known, k ∉ forbidden → info.signalToOcurrences.lookup k =
    if k ∈ holder then none else some (ocurrences k remaining)

/-- A constraint that can be worked on: no coefficient is written as zero. -/
structure Workable (known : Set ℕ) (c : C) : Prop where
  nonzero : NoZeroCoeff c.c
  known : ∀ k ∈ c.c, k ∈ known

/-- The invariant of a run. -/
structure Safe4 (forbidden : Finset ℕ) (known : Set ℕ) (remaining : List C) (state : State4) :
    Prop where
  forbidden_eq : state.signals.forbidden = forbidden
  takeable : ∀ k ∈ state.substitutions, k ∉ forbidden
  pivot : ∀ k e, state.substitutions.lookup k = some e → constantCoefficient ∈ e.2.toExpr ∧
    k ∉ e.2.toExpr ∧ ∀ y ∈ e.2.toExpr, y ∈ known
  nodup : state.signals.orderSignals.Nodup
  mem_order : ∀ k, k ∈ state.signals.orderSignals ↔ k ∈ state.substitutions
  mem_deleted : ∀ k, k ∈ state.signals.deletedSymbols ↔ k ∈ state.substitutions
  triangular : state.signals.orderSignals.Pairwise fun x y =>
    ∀ e, state.substitutions.lookup x = some e → y ∉ e.2.toExpr
  counters : CountersOk forbidden known state.substitutions state.infoOcurrences remaining

/-! ## The steps of the invariant -/

/-- No counter of a constraint that is still to be treated is zero. -/
theorem CountersOk.removeConstraint (h : CountersOk forbidden known holder info remaining) (rest : List C)
    {signals : SignalDefinition4} (hf : signals.forbidden = forbidden) (hc : ∀ k ∈ c.c, k ∈ known)
    (hocc : ∀ k, ocurrences k remaining = ocurrences k rest + if k ∈ c.c then 1 else 0) :
    ∃ info', info.removeConstraint c signals = some info' ∧
      CountersOk forbidden known holder info' rest := by
  obtain ⟨info', hrun, hinfo⟩ := SignalsInformation.removeConstraint_spec info c signals
    (fun k hk hkf => by
      rw [hf] at hkf
      rw [h k (hc k hk) hkf, hocc k, if_pos hk]
      split_ifs <;> simp)
  refine ⟨info', hrun, fun k hk hkf => ?_⟩
  rw [hinfo k, hf, h k hk hkf, hocc k]
  by_cases hkc : k ∈ c.c <;> by_cases hkh : k ∈ holder <;> simp [hkc, hkh, hkf]

theorem CountersOk.removeSignal (h : CountersOk forbidden known holder info remaining) (out : ℕ) (e : ℤ × S) :
    CountersOk forbidden known (holder.insert out e) (info.removeSignal out) remaining := by
  intro k hk hf
  by_cases hko : k = out
  · subst hko
    simp [SignalsInformation.removeSignal]
  · simp [SignalsInformation.removeSignal, hko, h k hk hf]

theorem Safe4.removeConstraint (h : Safe4 forbidden known remaining state) (rest : List C) (hc : Workable known c)
    (hocc : ∀ k, ocurrences k remaining = ocurrences k rest + if k ∈ c.c then 1 else 0) :
    ∃ info, state.infoOcurrences.removeConstraint c state.signals = some info ∧
      Safe4 forbidden known rest { state with infoOcurrences := info } := by
  obtain ⟨info, hrun, hinfo⟩ := h.counters.removeConstraint rest h.forbidden_eq hc.known hocc
  exact ⟨info, hrun, h.forbidden_eq, h.takeable, h.pivot, h.nodup, h.mem_order, h.mem_deleted,
    h.triangular, hinfo⟩

/-- A new pivot without eliminated signals goes to the front of the order. -/
theorem Safe4.insert (h : Safe4 forbidden known remaining state) {e : ℤ × S} (hout : out ∉ state.substitutions)
    (hforb : out ∉ forbidden) (he : constantCoefficient ∈ e.2.toExpr ∧ out ∉ e.2.toExpr ∧ ∀ y ∈ e.2.toExpr, y ∈ known)
    (horder : ∀ y ∈ state.substitutions, y ∉ e.2.toExpr) :
    Safe4 forbidden known remaining
      { state with
        signals := state.signals.delete out
        infoOcurrences := state.infoOcurrences.removeSignal out
        substitutions := state.substitutions.insert out e } := by
  have hnot : out ∉ state.signals.orderSignals := fun hm => hout ((h.mem_order out).mp hm)
  constructor
  case forbidden_eq => exact h.forbidden_eq
  case takeable =>
    intro k hk
    rcases (AList.mem_insert _).mp hk with rfl | hk
    · exact hforb
    · exact h.takeable k hk
  case pivot =>
    intro k e' hl
    by_cases hko : k = out
    · subst hko
      rw [AList.lookup_insert, Option.some.injEq] at hl
      exact hl ▸ he
    · rw [AList.lookup_insert_ne hko] at hl
      exact h.pivot k e' hl
  case nodup => exact List.nodup_cons.mpr ⟨hnot, h.nodup⟩
  case mem_order =>
    intro k
    rw [SignalDefinition4.delete, AList.mem_insert, List.mem_cons, h.mem_order]
  case mem_deleted =>
    intro k
    rw [SignalDefinition4.delete, AList.mem_insert, Finset.mem_insert, h.mem_deleted]
  case triangular =>
    refine List.pairwise_cons.mpr ⟨fun y hy e' he' => ?_, ?_⟩
    · rw [AList.lookup_insert, Option.some.injEq] at he'
      exact he' ▸ horder y ((h.mem_order y).mp hy)
    · refine h.triangular.imp_of_mem fun {x y} hx _ hxy e' he' => hxy e' ?_
      rwa [AList.lookup_insert_ne] at he'
      rintro rfl
      exact hnot hx
  case counters => exact h.counters.removeSignal out e

theorem Safe4.length_orderSignals (h : Safe4 forbidden known remaining state) :
    state.signals.orderSignals.length = state.substitutions.len := by
  rw [AList.len_eq_length_keys]
  refine List.Perm.length_eq ((List.perm_ext_iff_of_nodup h.nodup (AList.keys_nodup _)).mpr ?_)
  exact fun k => (h.mem_order k).trans AList.mem_keys

/-! ## One round -/

/-- Taking a signal of the work out never meets a missing or zero coefficient. -/
theorem Workable.clearSignal (h : Workable known work) (hz : 0 ∈ known)
    (hout : out ∈ work.c) (h0 : out ≠ 0) (field : ℤ) :
    ∃ coefficient rest,
      work.clearSignalFromLinearNotNormalized out field = some (coefficient, ⟨out, rest⟩) ∧
      constantCoefficient ∈ rest ∧ out ∉ rest ∧ (∀ y ∈ rest, y ∈ known) ∧
      ∀ k ∈ rest, k = 0 ∨ (k ∈ work.c ∧ k ≠ out) := by
  obtain ⟨v, hv⟩ := AList.mem_iff_exists_lookup.mp hout
  have hv0 : v ≠ 0 := by
    rintro rfl
    exact h.nonzero out hv
  obtain ⟨rest, hclear, -, hnot, hconst, hkeys⟩ := clearSignal_shape hv hv0 h0 field
  refine ⟨_, rest, hclear, hconst, hnot, fun y hy => ?_, hkeys⟩
  rcases hkeys y hy with rfl | ⟨hy, -⟩
  · exact hz
  · exact h.known y hy

/-- The counter of every signal that can still be chosen is there. -/
theorem Safe4.takeSignal (h : Safe4 forbidden known remaining state) (o : HashOrder) (hwork : ∀ k ∈ work.c, k ∈ known) :
    ∃ result, takeSignal4 o state.signals state.infoOcurrences work = some result ∧
      (result = none → ∀ k ∈ work.c, k ∈ forbidden) ∧
      ∀ out, result = some out → out ∈ work.c ∧ out ∉ forbidden ∧
        (out ∈ state.substitutions ∨
          ∀ k ∈ work.c, k ∉ forbidden → k ∉ state.substitutions) := by
  obtain ⟨result, htk, htake⟩ := takeSignal4_spec o state.signals state.infoOcurrences work
    fun k hk hf hd => ⟨_, by
      rw [h.counters k (hwork k hk) (h.forbidden_eq ▸ hf),
        if_neg fun hs => hd ((h.mem_deleted k).mpr hs)]⟩
  refine ⟨result, htk, ?none, ?some⟩
  case none =>
    rintro rfl
    exact h.forbidden_eq ▸ htake
  case some =>
    rintro out rfl
    simpa only [h.mem_deleted, h.forbidden_eq] using htake

variable [hp : Fact p.Prime]

/-- The stored pivot has no signal that was eliminated before its own, so the merged work is lighter. -/
theorem Safe4.merge_weight_lt (h : Safe4 forbidden known remaining state) (h0 : 0 ∈ forbidden) (work' : C)
    {stored : ℤ × S} (hstored : state.substitutions.lookup out = some stored) (hout : out ∈ work.c)
    (hkeys : ∀ k ∈ work'.c, k ≠ out ∧ (k = 0 ∨ k ∈ stored.2.toExpr ∨ k ∈ work.c)) :
    weight (· ∈ work'.c) state.signals.orderSignals <
      weight (· ∈ work.c) state.signals.orderSignals := by
  have hmem : out ∈ state.signals.orderSignals :=
    (h.mem_order out).mpr (AList.mem_iff_exists_lookup.mpr ⟨_, hstored⟩)
  refine merge_weight hmem hout (fun hm => (hkeys out hm).1 rfl) ?_
  intro l₁ l₂ hl y hy hyw
  have htri := h.triangular
  rw [hl] at htri
  have hyo : y ∈ state.signals.orderSignals := by rw [hl]; simp [hy]
  rcases (hkeys y hyw).2 with rfl | hys | hyc
  · exact absurd h0 (h.takeable 0 ((h.mem_order 0).mp hyo))
  · exact absurd hys
      ((List.pairwise_cons.mp (List.pairwise_append.mp htri).2.1).1 y hy stored hstored)
  · exact hyc

/-! ## The loop -/

theorem Safe4.treatConstraint4Loop (o : HashOrder) (h0 : 0 ∈ forbidden) (hz : 0 ∈ known)
    (h : Safe4 forbidden known remaining state) (fuel : ℕ) :
    ∀ work : C, Workable known work → weight (· ∈ work.c) state.signals.orderSignals < fuel →
      ∃ state', treatConstraint4Loop o p fuel state work = some state' ∧
        Safe4 forbidden known remaining state' := by
  induction fuel with
  | zero => exact fun _ _ hf => absurd hf (Nat.not_lt_zero _)
  | succ fuel ih =>
    intro work hwork hfuel
    unfold SimplificationUtils.treatConstraint4Loop
    split_ifs with hempty
    · exact ⟨state, rfl, h⟩
    obtain ⟨result, htk, -, htake⟩ := h.takeSignal (o.sub fuel) hwork.known
    cases result with
    | none =>
      exact ⟨{ state with lconst := state.lconst ++ [work] }, by simp [htk], h.forbidden_eq,
        h.takeable, h.pivot, h.nodup, h.mem_order, h.mem_deleted, h.triangular, h.counters⟩
    | some out =>
      obtain ⟨hout, hforb, hdel⟩ := htake out rfl
      have hne : out ≠ 0 := fun hc => hforb (hc ▸ h0)
      obtain ⟨coefficient, rest, hclear, hconst, hnot, hrestKnown, hkeys⟩ :=
        hwork.clearSignal hz hout hne p
      cases hst : state.substitutions.lookup out with
      | none =>
        have hnew : out ∉ state.substitutions := AList.lookup_eq_none.mp hst
        -- no eliminated signal was met on the walk, so the pivot has none
        have horder : ∀ y ∈ state.substitutions, y ∉ rest := by
          intro y hy hyr
          rcases hkeys y hyr with rfl | ⟨hyc, -⟩
          · exact h.takeable 0 hy h0
          · exact hdel.elim hnew fun hd => hd y hyc (h.takeable y hy) hy
        exact ⟨_, by simp [htk, hclear, hst],
          h.insert (e := (coefficient, ⟨out, rest⟩)) hnew hforb ⟨hconst, hnot, hrestKnown⟩ horder⟩
      | some stored =>
        obtain ⟨hsconst, hsnot, hsknown⟩ := h.pivot out stored hst
        obtain ⟨work', hmerge, hred, -, hmkeys⟩ :=
          mergeConflict_shape (p := p) coefficient out hsconst hconst
        have hwork' : Workable known work' := by
          refine ⟨hred.nonzero.2.2, fun k hk => ?_⟩
          exact (hmkeys k hk).elim (hsknown k) (hrestKnown k)
        have hw := h.merge_weight_lt h0 work' hst hout fun k hk => by
          rcases hmkeys k hk with hks | hkr
          · exact ⟨fun hc => hsnot (hc ▸ hks), Or.inr (Or.inl hks)⟩
          · exact ⟨fun hc => hnot (hc ▸ hkr), (hkeys k hkr).imp_right fun hkc => Or.inr hkc.1⟩
        obtain ⟨state', hrun, hsafe⟩ := ih work' hwork' (by omega)
        exact ⟨state', by simp [htk, hclear, hst, hmerge, hrun], hsafe⟩

theorem Safe4.treatConstraint4 (o : HashOrder) (h0 : 0 ∈ forbidden) (hz : 0 ∈ known)
    (h : Safe4 forbidden known remaining state) (hwork : Workable known work) :
    ∃ state', treatConstraint4 o p state work = some state' ∧
      Safe4 forbidden known remaining state' := by
  refine h.treatConstraint4Loop o h0 hz _ work hwork ?_
  rw [loopBound, ← h.length_orderSignals]
  exact weight_lt_two_pow _ _

/-! ## The first pass -/

/-- What the first pass keeps. Eliminated signals do not occur in the constraints that are left. -/
structure SafePass (forbidden : Finset ℕ) (known : Set ℕ) (constraints : List C)
    (acc : State4 × List C) : Prop where
  safe : Safe4 forbidden known acc.2 acc.1
  workable : ∀ c ∈ acc.2, Workable known c
  position : ∀ pos : ℕ, pos < constraints.length →
    ∃ c, acc.2[pos]? = some c ∧ (c.isEmpty ∨ constraints[pos]? = some c)
  fewer : ∀ k, ocurrences k acc.2 ≤ ocurrences k constraints
  gone : ∀ k ∈ acc.1.substitutions, ocurrences k acc.2 = 0

theorem workable_empty : Workable known (Constraint.empty : C) :=
  ⟨Constraint.noZeroCoeff_empty, fun k hk => absurd hk (AList.notMem_empty k)⟩

theorem position_set
    (h : ∀ pos : ℕ, pos < constraints.length → ∃ c, vec[pos]? = some c ∧ (c.isEmpty ∨ constraints[pos]? = some c))
    (hlt : pos < vec.length) (pos' : ℕ) (hpos' : pos' < constraints.length) :
    ∃ c, (vec.set pos Constraint.empty)[pos']? = some c ∧
      (c.isEmpty ∨ constraints[pos']? = some c) := by
  by_cases hpp : pos = pos'
  · subst hpp
    exact ⟨Constraint.empty, List.getElem?_set_self hlt, Or.inl rfl⟩
  · obtain ⟨c, hc, hcase⟩ := h pos' hpos'
    exact ⟨c, by rw [List.getElem?_set_ne hpp]; exact hc, hcase⟩

theorem ocurrences_set_le {d : C} (hd : vec[pos]? = some d) (k : ℕ) :
    ocurrences k (vec.set pos Constraint.empty) ≤ ocurrences k vec := by
  rw [ocurrences_set hd k]
  omega

/-- A signal that occurs once is gone with its constraint. -/
theorem gone_insert {k : ℕ} {d : C}
    (hd : vec[pos]? = some d) (hkd : k ∈ d.c) (hone : ocurrences k constraints = 1)
    (hfewer : ∀ k, ocurrences k vec ≤ ocurrences k constraints)
    (hgone : ∀ k ∈ holder, ocurrences k vec = 0) (e : ℤ × S) :
    ∀ k' ∈ holder.insert k e, ocurrences k' (vec.set pos Constraint.empty) = 0 := by
  intro k' hk'
  rcases (AList.mem_insert _).mp hk' with rfl | hk'
  · have h1 := hfewer k'
    rw [ocurrences_set hd k', if_pos hkd, hone] at h1
    omega
  · have h1 := hgone k' hk'
    have h2 := ocurrences_set_le hd k'
    omega

/-- The constraint of a signal that occurs once is still there when the signal's turn comes, or it was
taken out before. -/
theorem position_cases
    (h : ∀ pos : ℕ, pos < constraints.length → ∃ c, vec[pos]? = some c ∧ (c.isEmpty ∨ constraints[pos]? = some c))
    (hc : constraints[pos]? = some c) : ∃ d, vec[pos]? = some d ∧ (d.isEmpty ∨ d = c) := by
  obtain ⟨d, hd, hcase⟩ := h pos (List.getElem?_eq_some_iff.mp hc).1
  refine ⟨d, hd, hcase.imp_right fun hd' => ?_⟩
  rw [hc, Option.some.injEq] at hd'
  exact hd'.symm

theorem SafePass.treatUnique4 (h0 : 0 ∈ forbidden) (hz : 0 ∈ known) {acc : State4 × List C}
    (h : SafePass forbidden known constraints acc) {k : ℕ} (hk : k ∉ forbidden) (hone : ocurrences k constraints = 1)
    (hpos : ∃ c, constraints[pos]? = some c ∧ k ∈ c.c) :
    ∃ acc', treatUnique4 p acc (k, pos) = some acc' ∧
      SafePass forbidden known constraints acc' := by
  obtain ⟨state, vec⟩ := acc
  obtain ⟨c, hc, hkc⟩ := hpos
  obtain ⟨d, hd, hd'⟩ := position_cases h.position hc
  simp only at hd
  by_cases hempty : d.isEmpty
  · exact ⟨(state, vec), by simp [SimplificationUtils.treatUnique4, hd, hempty], h⟩
  obtain rfl : d = c := hd'.resolve_left hempty
  have hwork : Workable known d := h.workable d (List.mem_of_getElem? hd)
  have hocc := ocurrences_set hd
  obtain ⟨info, hinfo, hsafe⟩ := h.safe.removeConstraint (vec.set pos Constraint.empty) hwork hocc
  -- the signal still occurs, so it is not eliminated yet
  have hnot : k ∉ state.substitutions := fun hm => by
    have := h.gone k hm
    rw [hocc k, if_pos hkc] at this
    omega
  have hne : k ≠ 0 := fun hc => hk (hc ▸ h0)
  obtain ⟨coefficient, rest, hclear, hconst, hself, hrestKnown, hkeys⟩ :=
    hwork.clearSignal hz hkc hne p
  have horder : ∀ y ∈ state.substitutions, y ∉ rest := by
    intro y hy hyr
    have hgone := ocurrences_eq_zero.mp (h.gone y hy) d (List.mem_of_getElem? hd)
    rcases hkeys y hyr with rfl | ⟨hyc, -⟩
    · exact h.safe.takeable 0 hy h0
    · exact hgone hyc
  refine ⟨({ state with
      signals := state.signals.delete k
      substitutions := state.substitutions.insert k (coefficient, ⟨k, rest⟩)
      infoOcurrences := info.removeSignal k }, vec.set pos Constraint.empty),
    by simp [SimplificationUtils.treatUnique4, treatUniqueConstraint4, hd, hempty, hinfo, hclear],
    ?_⟩
  constructor
  case safe =>
    exact hsafe.insert (e := (coefficient, ⟨k, rest⟩)) hnot hk ⟨hconst, hself, hrestKnown⟩ horder
  case workable =>
    intro c' hc'
    rcases List.mem_or_eq_of_mem_set hc' with hc' | rfl
    · exact h.workable c' hc'
    · exact workable_empty
  case position => exact position_set h.position (List.getElem?_eq_some_iff.mp hd).1
  case fewer => exact fun k' => (ocurrences_set_le hd k').trans (h.fewer k')
  case gone => exact gone_insert hd hkc hone h.fewer h.gone _

/-! ## The whole process -/

/-- The signals of a list of constraints, and the constant key. -/
def signalsOf (constraints : List C) : Set ℕ := {k | k = 0 ∨ ∃ c ∈ constraints, k ∈ c.c}

theorem safePass_initial (h0 : 0 ∈ forbidden)
    (hc : ∀ c ∈ constraints, NoZeroCoeff c.c)
    (hinfo : ∀ k ∉ forbidden, ocurrences k constraints ≠ 0 →
      info.signalToOcurrences.lookup k = some (ocurrences k constraints)) :
    SafePass forbidden (signalsOf constraints) constraints
      (⟨⟨∅, forbidden, []⟩, ∅, [], info⟩, constraints) := by
  refine ⟨⟨rfl, fun k hk => absurd hk (AList.notMem_empty k), (fun k e hl => by cases hl),
    List.nodup_nil, fun k => by simp, fun k => by simp, List.Pairwise.nil, fun k hk hf => ?_⟩,
    fun c hcm => ⟨hc c hcm, fun k hk => Or.inr ⟨c, hcm, hk⟩⟩,
    fun pos hpos => ⟨_, List.getElem?_eq_getElem hpos, Or.inr ?_⟩, fun k => le_rfl,
    fun k hk => absurd hk (AList.notMem_empty k)⟩
  · rw [if_neg (AList.notMem_empty k)]
    refine hinfo k hf fun hzero => ?_
    rcases hk with rfl | ⟨c, hcm, hkc⟩
    · exact hf h0
    · exact ocurrences_eq_zero.mp hzero c hcm hkc
  · exact List.getElem?_eq_getElem hpos

/-- The second pass, whatever the order of the remaining constraints. -/
theorem treatRemaining4_safe (o : HashOrder) (h0 : 0 ∈ forbidden) (hz : 0 ∈ known) {indexed : List (C × ℕ)}
    (hwork : ∀ c ∈ indexed.map Prod.fst, Workable known c) (h : Safe4 forbidden known (indexed.map Prod.fst) state) :
    ∃ state', indexed.foldlM (treatRemaining4 o p) state = some state' ∧
      Safe4 forbidden known [] state' := by
  obtain ⟨state', hrun, -, hsafe⟩ := foldlM_invariant (f := treatRemaining4 o (p : ℤ))
    (fun l state => (∀ c ∈ l.map Prod.fst, Workable known c) ∧
      Safe4 forbidden known (l.map Prod.fst) state)
    (fun e l state ⟨hwork, hsafe⟩ => by
      simp only [List.map_cons] at hwork hsafe
      obtain ⟨info, hinfo, hsafe'⟩ := hsafe.removeConstraint (l.map Prod.fst)
        (hwork e.1 List.mem_cons_self) fun k => ocurrences_cons k e.1 _
      obtain ⟨state', hstep, hsafe''⟩ := hsafe'.treatConstraint4 (p := p) (o.sub e.2) h0 hz
        (hwork e.1 List.mem_cons_self)
      exact ⟨state', by simp [treatRemaining4, hinfo, hstep],
        fun c hc => hwork c (List.mem_cons_of_mem _ hc), hsafe''⟩)
    ⟨hwork, h⟩
  exact ⟨state', hrun, hsafe⟩

/-- The process ends for every order of every walk over a hash table. -/
theorem substitutionProcess4_safe (o : HashOrder) (h0 : 0 ∈ forbidden) (hc : ∀ c ∈ constraints, NoZeroCoeff c.c) :
    ∃ state, substitutionProcess4 o ⟨∅, forbidden, []⟩ constraints p = some state ∧
      Safe4 forbidden (signalsOf constraints) [] state := by
  have hz : 0 ∈ signalsOf constraints := Or.inl rfl
  obtain ⟨info, uniques, hnew, hinfo, huniques⟩ :=
    SignalsInformation.new_spec constraints ⟨∅, forbidden, []⟩
  obtain ⟨⟨state, vec⟩, hrun, -, hpass⟩ := foldlM_invariant (f := treatUnique4 (p : ℤ))
    (fun l acc => (∀ e ∈ l, uniques.lookup e.1 = some e.2) ∧
      SafePass forbidden (signalsOf constraints) constraints acc)
    (fun e l acc ⟨hl, h⟩ => by
      obtain ⟨hk, hone, hpos⟩ := huniques e.1 e.2 (hl e List.mem_cons_self)
      obtain ⟨acc', hstep, h'⟩ := h.treatUnique4 (p := p) h0 hz hk hone hpos
      exact ⟨acc', hstep, fun e' he' => hl e' (List.mem_cons_of_mem e he'), h'⟩)
    ⟨fun e he => AList.mem_ascendingPairs.mp he, safePass_initial h0 hc hinfo⟩
  have hperm : (vec.zipIdx.reverse.map Prod.fst).Perm vec := by
    rw [List.map_reverse, List.zipIdx_map_fst]
    exact List.reverse_perm vec
  have hremaining : Safe4 forbidden (signalsOf constraints) (vec.zipIdx.reverse.map Prod.fst) state := by
    obtain ⟨h1, h2, h3, h4, h5, h6, h7, h8⟩ := hpass.safe
    refine ⟨h1, h2, h3, h4, h5, h6, h7, fun k hk hf => (h8 k hk hf).trans ?_⟩
    rw [ocurrences, ocurrences, hperm.countP_eq]
  obtain ⟨state', hrun', hsafe⟩ := treatRemaining4_safe (p := p) o h0 hz
    (fun c hcm => hpass.workable c (hperm.mem_iff.mp hcm)) hremaining
  refine ⟨state', ?_, hsafe⟩
  simp only [substitutionProcess4, hnew, Option.bind_eq_bind, Option.bind_some]
  rw [hrun]
  exact hrun'

/-- On linear constraints without zero coefficients the elimination ends: no counter is missing or goes
below zero, and no pivot is missing or zero. So does the loop for any further constraint over the same
signals, under any order of its walks. -/
theorem substitutionProcess4_terminates (o : HashOrder) (h0 : 0 ∈ forbidden) {constraints : List C}
    (hc : ∀ c ∈ constraints, c.isLinear ∧ c.NoZeroCoeff) :
    ∃ state, substitutionProcess4 o ⟨∅, forbidden, []⟩ constraints p = some state ∧
      ∀ (o' : HashOrder) (work : C), work.isLinear → work.NoZeroCoeff →
        (∀ k ∈ work.c, k ∈ signalsOf constraints) →
        ∃ state', treatConstraint4 o' p state work = some state' := by
  obtain ⟨state, hrun, hsafe⟩ :=
    substitutionProcess4_safe (p := p) o h0 fun c hcm => (hc c hcm).2.2.2
  refine ⟨state, hrun, fun o' work _ hz hk => ?_⟩
  obtain ⟨state', hstep, -⟩ := hsafe.treatConstraint4 (p := p) o' h0 (Or.inl rfl) ⟨hz.2.2, hk⟩
  exact ⟨state', hstep⟩

/-- Three constraints over two signals, so that the last one meets only eliminated signals. The
coefficient seven is zero in the field. -/
theorem substitutionProcess4_terminates_seven :
    let constraints : List C := [⟨∅, ∅, AList.ofPairs [(1, 1), (2, 2), (0, 3)]⟩,
      ⟨∅, ∅, AList.ofPairs [(1, 7), (2, 1)]⟩, ⟨∅, ∅, AList.ofPairs [(1, -1), (2, 4)]⟩]
    ∃ state, substitutionProcess4 HashOrder.listOrder ⟨∅, {0}, []⟩ constraints 7 = some state ∧
      ∀ (o' : HashOrder) (work : C), work.isLinear → work.NoZeroCoeff →
        (∀ k ∈ work.c, k ∈ signalsOf constraints) →
        ∃ state', treatConstraint4 o' 7 state work = some state' := by
  have : Fact (Nat.Prime 7) := ⟨by norm_num⟩
  exact substitutionProcess4_terminates HashOrder.listOrder (by decide) (by decide)

end Circom.Algebra.SimplificationUtils
