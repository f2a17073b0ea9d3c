import Circom.Algebra.Proofs.BackSubstitution
import Circom.Algebra.Proofs.SubstitutionProcess3
import Circom.Algebra.Proofs.SubstitutionProcess4

/-!
# Full simplification

Both branches of `full_simplification` return substitutions in solved form that, with the constraints
that are left, have the solutions of the input.
-/

namespace Circom.Algebra.SimplificationUtils

open Circom.Lib (HashMap HashOrder exists_mapM exists_of_forall₂_right map_eq_of_forall₂)

variable {p : ℕ} {forbidden : Finset ℕ} {known : Set ℕ}
variable {constraints : List C}

/-- What a call of `full_simplification` returns, in terms of its input. -/
structure Solved (p : ℕ) (forbidden : Finset ℕ) (constraints : List C) (out : Simplified) :
    Prop where
  removed_eq : out.removed = out.substitutions.map Substitution.fromSignal
  nodup : (out.substitutions.map Substitution.fromSignal).Nodup
  takeable : ∀ s ∈ out.substitutions, s.fromSignal ∉ forbidden
  free : ∀ s ∈ out.substitutions, ∀ t ∈ out.substitutions, s.fromSignal ∉ t.toExpr
  coeffs : ∀ s ∈ out.substitutions, CoeffsInField p s.toExpr
  reduced : ∀ c ∈ out.constraints, c.Reduced p
  rest : ∀ c ∈ out.constraints, ∀ k ∈ c.c, k ∈ forbidden
  substitutionKeys : ∀ s ∈ out.substitutions, (∃ c ∈ constraints, s.fromSignal ∈ c.c) ∧
    ∀ k ∈ s.toExpr, k = 0 ∨ ∃ c ∈ constraints, k ∈ c.c
  restKeys : ∀ d ∈ out.constraints, ∀ k ∈ d.c, k = 0 ∨ ∃ c ∈ constraints, k ∈ c.c
  sat_iff : ∀ ρ : ℕ → ZMod p, ρ 0 = 1 →
    ((∀ c ∈ out.constraints, c.Sat ρ) ∧ (∀ s ∈ out.substitutions, s.Holds ρ) ↔
      ∀ c ∈ constraints, c.Sat ρ)

/-! ## From the pivots to the substitutions -/

/-- The normalized pivots in the order of elimination are fit for back substitution. -/
theorem triangular_of_order {holder : SHNotNormalized} {lconst : List C}
    (h : Eliminated p forbidden known holder lconst) (h0 : 0 ∈ forbidden) {tree : SH}
    (htree : ∀ k s, tree.lookup k = some s →
      ∃ pivot, holder.lookup k = some pivot ∧ NormalForm p pivot s) {pairs : List (ℕ × S)}
    (hpairs : ∀ e ∈ pairs, tree.lookup e.1 = some e.2) (hnd : (pairs.map Prod.fst).Nodup)
    (hlater : (pairs.map Prod.fst).Pairwise fun x y =>
      ∀ e, holder.lookup x = some e → y ∉ e.2.toExpr) : Triangular pairs := by
  have key : ∀ e ∈ pairs, ∃ pivot, holder.lookup e.1 = some pivot ∧ NormalForm p pivot e.2 ∧
      pivot.2.fromSignal = e.1 ∧ e.1 ∉ forbidden ∧ PivotOk p pivot := fun e he => by
    obtain ⟨pivot, hl, hnf⟩ := htree e.1 e.2 (hpairs e he)
    obtain ⟨h1, h2, h3⟩ := h.pivot e.1 pivot hl
    exact ⟨pivot, hl, hnf, h1, h2, h3⟩
  refine ⟨hnd, fun e he => ?_, fun e he => ?_, fun e he hm => ?_, ?_⟩
  · obtain ⟨pivot, -, hnf, hfrom, -, -⟩ := key e he
    exact hnf.from_eq.trans hfrom
  · obtain ⟨-, -, -, -, hf, -⟩ := key e he
    exact fun h => hf (h ▸ h0)
  · obtain ⟨pivot, -, hnf, hfrom, -, hok⟩ := key e he
    exact hok.fromNotMem (hfrom ▸ hnf.keys e.1 hm)
  · rw [List.pairwise_map] at hlater
    refine hlater.imp_of_mem fun {x y} hx _ hxy hm => ?_
    obtain ⟨pivot, hl, hnf, -, -, -⟩ := key x hx
    exact hxy pivot hl (hnf.keys y.1 hm)

variable [hp : Fact p.Prime]

/-- The common end of both branches. -/
theorem solved_collectSimplified (o : HashOrder) {holder : SHNotNormalized} {lconst : List C}
    (hz : known = {k | k = 0 ∨ ∃ c ∈ constraints, k ∈ c.c}) (h : Eliminated p forbidden known holder lconst)
    (h0 : 0 ∈ forbidden) (hsol : ∀ ρ : ℕ → ZMod p, ρ 0 = 1 → (Solution ρ holder lconst ↔ ∀ c ∈ constraints, c.Sat ρ))
    {tree : SH} (hmem : ∀ k, k ∈ tree ↔ k ∈ holder)
    (htree : ∀ k s, tree.lookup k = some s → ∃ pivot, holder.lookup k = some pivot ∧ NormalForm p pivot s)
    {pairs : List (ℕ × S)} (hpairs : ∀ e, e ∈ pairs ↔ tree.lookup e.1 = some e.2) {m : HashMap ℕ S}
    (hm : BackSubstituted p pairs m) : Solved p forbidden constraints (collectSimplified o lconst m) := by
  have hsub : ∀ s, s ∈ (collectSimplified o lconst m).substitutions ↔ ∃ k, m.lookup k = some s :=
    fun s => by simp [collectSimplified, AList.mem_pairs_iff_lookup]
  have hfst : (collectSimplified o lconst m).removed =
      (collectSimplified o lconst m).substitutions.map Substitution.fromSignal := by
    simp only [collectSimplified, List.map_map]
    refine List.map_congr_left fun e he => ?_
    exact (hm.from_eq e.1 e.2 (AList.mem_pairs_iff_lookup.mp ((HashOrder.mem_walk o).mp he))).symm
  have hkey : ∀ k s, m.lookup k = some s → k ∈ holder := fun k s hl => by
    obtain ⟨e, he, rfl⟩ := List.mem_map.mp
      ((hm.mem_iff k).mp (AList.mem_iff_exists_lookup.mpr ⟨s, hl⟩))
    exact (hmem e.1).mp (AList.mem_iff_exists_lookup.mpr ⟨e.2, (hpairs e).mp he⟩)
  have hknown : ∀ k, k ∈ known → k ∉ forbidden → ∃ c ∈ constraints, k ∈ c.c := fun k hk hf => by
    rw [hz] at hk
    exact hk.resolve_left fun h => hf (h ▸ h0)
  refine ⟨hfst, ?_, fun s hs => ?_, fun s hs t ht hst => ?_, fun s hs => ?_,
    fun c hc => (h.rest c hc).1.1, fun c hc => (h.rest c hc).2, fun s hs => ⟨?_, fun k hk => ?_⟩,
    fun c hc k hk => ?_, fun ρ h1 => ?_⟩
  · rw [← hfst]
    simp only [collectSimplified]
    refine ((o.walk_perm m.pairs).map Prod.fst).nodup_iff.mpr ?_
    rw [AList.pairs_map_fst]
    exact AList.keys_nodup m
  · obtain ⟨k, hk⟩ := (hsub s).mp hs
    obtain ⟨pivot, hl⟩ := AList.mem_iff_exists_lookup.mp (hkey k s hk)
    rw [hm.from_eq k s hk]
    exact (h.pivot k pivot hl).2.1
  · obtain ⟨k, hk⟩ := (hsub s).mp hs
    obtain ⟨k', hk'⟩ := (hsub t).mp ht
    refine hm.free k' t hk' _ hst ?_
    rw [hm.from_eq k s hk]
    exact (hm.mem_iff k).mp (AList.mem_iff_exists_lookup.mpr ⟨s, hk⟩)
  · obtain ⟨k, hk⟩ := (hsub s).mp hs
    refine hm.coeffs (fun x hx => ?_) k s hk
    obtain ⟨pivot, -, hnf⟩ := htree x.1 x.2 ((hpairs x).mp hx)
    exact hnf.coeffs
  · obtain ⟨k, hk⟩ := (hsub s).mp hs
    obtain ⟨pivot, hl⟩ := AList.mem_iff_exists_lookup.mp (hkey k s hk)
    rw [hm.from_eq k s hk]
    exact hknown k (h.pivotKnown k pivot hl).1 (h.pivot k pivot hl).2.1
  · obtain ⟨k', hk'⟩ := (hsub s).mp hs
    rcases hm.keys k' s hk' k hk with h0 | ⟨x, hx, hkx⟩
    · exact Or.inl h0
    · obtain ⟨pivot, hl, hnf⟩ := htree x.1 x.2 ((hpairs x).mp hx)
      have := (h.pivotKnown x.1 pivot hl).2 k (hnf.keys k hkx)
      rwa [hz] at this
  · have := (h.rest c hc).1.2 k hk
    rwa [hz] at this
  · have hholds : (∀ s ∈ (collectSimplified o lconst m).substitutions, s.Holds ρ) ↔
        ∀ k pivot, holder.lookup k = some pivot → PivotHolds ρ pivot := by
      simp only [hsub, forall_exists_index]
      rw [forall_comm, hm.holds_iff ρ]
      constructor
      · intro hall k pivot hl
        obtain ⟨s, hs⟩ := AList.mem_iff_exists_lookup.mp
          ((hmem k).mpr (AList.mem_iff_exists_lookup.mpr ⟨pivot, hl⟩))
        obtain ⟨pivot', hl', hnf⟩ := htree k s hs
        obtain rfl : pivot' = pivot := Option.some.inj (hl'.symm.trans hl)
        exact (hnf.holds_iff ρ h1).mp (hall (k, s) ((hpairs (k, s)).mpr hs))
      · intro hall e he
        obtain ⟨pivot, hl, hnf⟩ := htree e.1 e.2 ((hpairs e).mp he)
        exact (hnf.holds_iff ρ h1).mpr (hall e.1 pivot hl)
    rw [hholds, ← hsol ρ h1, Solution, and_comm]
    rfl

/-! ## Both branches -/

theorem branch3_solved (o : HashOrder) (h0 : 0 ∈ forbidden) (hc : ∀ c ∈ constraints, c.Reduced p)
    (useOldHeuristics : Bool) :
    ∃ out, fullSimplificationWith false o ⟨p, constraints, forbidden, useOldHeuristics⟩ = some out ∧
      Solved p forbidden constraints out := by
  obtain ⟨state, hrun, hinv, hsol⟩ := substitutionProcess3_spec
    {k | k = 0 ∨ ∃ c ∈ constraints, k ∈ c.c} h0 (Or.inl rfl)
    fun c hcm => ⟨hc c hcm, fun k hk => Or.inr ⟨c, hcm, hk⟩⟩
  obtain ⟨tree, htree, hmem, hspec⟩ := normalizeSubstitutions_spec hinv.eliminated
  have hpairs : ∀ e : ℕ × S, e ∈ tree.ascendingPairs ↔ tree.lookup e.1 = some e.2 :=
    fun e => AList.mem_ascendingPairs
  have htri : Triangular tree.ascendingPairs := by
    refine triangular_of_order hinv.eliminated h0 hspec (fun e he => (hpairs e).mp he) ?_ ?_
    · rw [AList.map_fst_ascendingPairs]
      exact AList.nodup_ascendingKeys tree
    · rw [AList.map_fst_ascendingPairs]
      refine (Finset.pairwise_lt_ascending tree.keys.toFinset).imp_of_mem
        fun {x y} _ hy hlt e he hm => ?_
      obtain ⟨e', he'⟩ := AList.mem_iff_exists_lookup.mp
        ((hmem y).mp (AList.mem_ascendingKeys.mp hy))
      have := hinv.below x e he y hm (hinv.eliminated.pivot y e' he').2.1
      omega
  refine ⟨_, ?_, solved_collectSimplified (o.sub 2) rfl hinv.eliminated h0 hsol hmem hspec hpairs
    (backSubstituted_nonoverlapping (o.sub 1) htri)⟩
  simp only [fullSimplificationWith, Bool.false_eq_true, if_false, hrun, htree, Option.bind_eq_bind,
    Option.bind_some]
  rfl

theorem branch4_solved (o : HashOrder) (h0 : 0 ∈ forbidden) (hc : ∀ c ∈ constraints, c.Reduced p)
    (useOldHeuristics : Bool) :
    ∃ out, fullSimplificationWith true o ⟨p, constraints, forbidden, useOldHeuristics⟩ = some out ∧
      Solved p forbidden constraints out := by
  obtain ⟨state, hrun, hinv, hsol⟩ := substitutionProcess4_spec (o.sub 0) h0 rfl
    fun c hcm => ⟨hc c hcm, fun k hk => Or.inr ⟨c, hcm, hk⟩⟩
  obtain ⟨tree, htree, hmem, hspec⟩ := normalizeSubstitutions_spec hinv.eliminated
  obtain ⟨pairs, -, hall⟩ := exists_mapM (l := state.signals.orderSignals)
    (f := fun k => (tree.lookup k).map fun s => (k, s))
    (P := fun k (e : ℕ × S) => e.1 = k ∧ tree.lookup k = some e.2) fun k hk => by
      obtain ⟨s, hs⟩ := AList.mem_iff_exists_lookup.mp ((hmem k).mpr ((hinv.mem_order k).mp hk))
      exact ⟨(k, s), by simp [hs], rfl, hs⟩
  have hfst : pairs.map Prod.fst = state.signals.orderSignals := by
    rw [map_eq_of_forall₂ (f := id) hall fun k e hke => hke.1, List.map_id]
  have hpairs : ∀ e : ℕ × S, e ∈ pairs ↔ tree.lookup e.1 = some e.2 := by
    refine fun e => ⟨fun he => ?_, fun hl => ?_⟩
    · obtain ⟨k, -, hk, hl⟩ := exists_of_forall₂_right hall he
      exact hk ▸ hl
    · have hk : e.1 ∈ pairs.map Prod.fst := by
        rw [hfst, hinv.mem_order, ← hmem]
        exact AList.mem_iff_exists_lookup.mpr ⟨_, hl⟩
      obtain ⟨e', he', hee⟩ := List.mem_map.mp hk
      obtain ⟨k, -, hk', hl'⟩ := exists_of_forall₂_right hall he'
      rw [← hk', hee, hl, Option.some.injEq] at hl'
      rwa [Prod.ext hee hl'.symm] at he'
  have htri : Triangular pairs := by
    refine triangular_of_order hinv.eliminated h0 hspec (fun e he => (hpairs e).mp he) ?_ ?_
    · rw [hfst]; exact hinv.nodup
    · rw [hfst]; exact hinv.triangular
  refine ⟨_, ?_, solved_collectSimplified (o.sub 2) rfl hinv.eliminated h0 hsol hmem hspec hpairs
    (backSubstituted_nonoverlapping (o.sub 1) htri)⟩
  simp only [fullSimplificationWith, if_true, hrun, htree, Option.bind_eq_bind, Option.bind_some,
    createNonoverlappingSubstitutions4_eq (o.sub 1) hinv.nodup hall]

theorem fullSimplificationWith_solved (applyLessOcurrences : Bool) (o : HashOrder) (h0 : 0 ∈ forbidden)
    (hc : ∀ c ∈ constraints, c.Reduced p) (useOldHeuristics : Bool) :
    ∃ out, fullSimplificationWith applyLessOcurrences o
        ⟨p, constraints, forbidden, useOldHeuristics⟩ = some out ∧
      Solved p forbidden constraints out := by
  cases applyLessOcurrences with
  | false => exact branch3_solved o h0 hc useOldHeuristics
  | true => exact branch4_solved o h0 hc useOldHeuristics

/-! ## The two guarantees -/

/-- Neither branch panics, and each keeps the solutions: an assignment satisfies the input if and only
if it satisfies the returned constraints and the returned substitutions read as equations. -/
theorem fullSimplification_equivalent (applyLessOcurrences : Bool) (o : HashOrder)
    (config : Config) (hfield : config.field = p) (h0 : 0 ∈ config.forbidden)
    (hc : ∀ c ∈ config.constraints, c.Reduced p) :
    ∃ out, fullSimplificationWith applyLessOcurrences o config = some out ∧
      ∀ ρ : ℕ → ZMod p, ρ 0 = 1 →
        ((∀ c ∈ config.constraints, c.Sat ρ) ↔
          (∀ c ∈ out.constraints, c.Sat ρ) ∧ ∀ s ∈ out.substitutions, s.Holds ρ) := by
  obtain ⟨field, constraints, forbidden, useOldHeuristics⟩ := config
  obtain rfl : field = p := hfield
  obtain ⟨out, hrun, hsolved⟩ :=
    fullSimplificationWith_solved applyLessOcurrences o h0 hc useOldHeuristics
  exact ⟨out, hrun, fun ρ h1 => (hsolved.sat_iff ρ h1).symm⟩

/-- `x1 + 2 * x2 + 3 = 0` and `x1 + x3 = 0` over the field with seven elements, by least occurrences. -/
theorem fullSimplification_equivalent_seven :
    let config : Config :=
      ⟨7, [⟨∅, ∅, AList.ofPairs [(1, 1), (2, 2), (0, 3)]⟩, ⟨∅, ∅, AList.ofPairs [(1, 1), (3, 1)]⟩],
        {0, 3}, false⟩
    ∃ out, fullSimplificationWith true HashOrder.listOrder config = some out ∧
      ∀ ρ : ℕ → ZMod 7, ρ 0 = 1 →
        ((∀ c ∈ config.constraints, c.Sat ρ) ↔
          (∀ c ∈ out.constraints, c.Sat ρ) ∧ ∀ s ∈ out.substitutions, s.Holds ρ) := by
  have : Fact (Nat.Prime 7) := ⟨by norm_num⟩
  exact fullSimplification_equivalent true HashOrder.listOrder _ rfl (by decide) (by decide)

/-- The result of both branches is in solved form: the replaced signals are distinct and not forbidden,
occur neither in a right-hand side nor in a constraint, and the constraints have forbidden signals
only. -/
theorem fullSimplification_solvedForm (applyLessOcurrences : Bool) (o : HashOrder)
    (config : Config) (hfield : config.field = p) (h0 : 0 ∈ config.forbidden)
    (hc : ∀ c ∈ config.constraints, c.Reduced p) :
    ∃ out, fullSimplificationWith applyLessOcurrences o config = some out ∧
      (out.substitutions.map Substitution.fromSignal).Nodup ∧
      (∀ s ∈ out.substitutions, s.fromSignal ∉ config.forbidden) ∧
      (∀ s ∈ out.substitutions, ∀ t ∈ out.substitutions, s.fromSignal ∉ t.toExpr) ∧
      (∀ s ∈ out.substitutions, ∀ c ∈ out.constraints, ¬ c.Mentions s.fromSignal) ∧
      ∀ c ∈ out.constraints, ∀ k, c.Mentions k → k ∈ config.forbidden := by
  obtain ⟨field, constraints, forbidden, useOldHeuristics⟩ := config
  obtain rfl : field = p := hfield
  obtain ⟨out, hrun, hsolved⟩ :=
    fullSimplificationWith_solved applyLessOcurrences o h0 hc useOldHeuristics
  have hrest : ∀ c ∈ out.constraints, ∀ k, c.Mentions k → k ∈ forbidden := fun c hcm k hk =>
    hsolved.rest c hcm k ((Constraint.mentions_iff_of_isLinear (hsolved.reduced c hcm).linear).mp hk)
  exact ⟨out, hrun, hsolved.nodup, hsolved.takeable, hsolved.free,
    fun s hs c hcm hk => hsolved.takeable s hs (hrest c hcm _ hk), hrest⟩

/-- Two equations between the same signals over the field with five elements, by greatest signal: the
second one leaves `2 = 0`. -/
theorem fullSimplification_solvedForm_five :
    let config : Config :=
      ⟨5, [⟨∅, ∅, AList.ofPairs [(1, 1), (2, 1), (0, 1)]⟩,
        ⟨∅, ∅, AList.ofPairs [(1, 1), (2, 1), (0, 4)]⟩], {0}, true⟩
    ∃ out, fullSimplificationWith false HashOrder.listOrder config = some out ∧
      (out.substitutions.map Substitution.fromSignal).Nodup ∧
      (∀ s ∈ out.substitutions, s.fromSignal ∉ config.forbidden) ∧
      (∀ s ∈ out.substitutions, ∀ t ∈ out.substitutions, s.fromSignal ∉ t.toExpr) ∧
      (∀ s ∈ out.substitutions, ∀ c ∈ out.constraints, ¬ c.Mentions s.fromSignal) ∧
      ∀ c ∈ out.constraints, ∀ k, c.Mentions k → k ∈ config.forbidden := by
  have : Fact (Nat.Prime 5) := ⟨by norm_num⟩
  exact fullSimplification_solvedForm false HashOrder.listOrder _ rfl (by decide) (by decide)

end Circom.Algebra.SimplificationUtils
