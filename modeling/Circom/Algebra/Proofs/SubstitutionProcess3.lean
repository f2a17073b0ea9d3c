import Circom.Algebra.Proofs.Elimination
import Circom.Lib.PartialFold

/-!
# The first heuristic: the greatest signal

`substitution_process_3` always takes the greatest takeable signal. The right-hand side of a pivot
therefore has smaller takeable signals only.
-/

namespace Circom.Algebra.SimplificationUtils

open Circom.Lib (HashMap weight weight_lt_two_pow foldlM_invariant)

variable {p : ℕ} {forbidden : Finset ℕ} {known : Set ℕ}

/-! ## The choice -/

theorem foldl_max (l : List ℕ) (ret : Option ℕ) :
    match l.foldl (fun ret k => some (max k (ret.getD k))) ret with
    | none => l = [] ∧ ret = none
    | some out => (out ∈ l ∨ ret = some out) ∧ (∀ k ∈ l, k ≤ out) ∧ ∀ k, ret = some k → k ≤ out := by
  induction l generalizing ret with
  | nil => cases ret <;> simp
  | cons a l ih =>
    have h := ih (some (max a (ret.getD a)))
    rw [List.foldl_cons]
    split at h
    · simp at h
    · next out _ =>
      obtain ⟨h1, h2, h3⟩ := h
      have h4 := h3 _ rfl
      refine ⟨?_, fun k hk => ?_, fun k hk => ?_⟩
      · rcases h1 with h1 | h1
        · exact Or.inl (List.mem_cons_of_mem a h1)
        · rw [Option.some.injEq] at h1
          cases ret with
          | none => left; rw [← h1]; simp
          | some r =>
            rcases max_choice a r with h | h <;> simp [← h1, h]
      · rcases List.mem_cons.mp hk with rfl | hk
        · exact (le_max_left _ _).trans h4
        · exact h2 k hk
      · subst hk
        exact (le_max_right _ _).trans h4

theorem takeSignal3_spec (signals : SignalDefinition) (work : C) :
    match takeSignal3 signals work with
    | none => ∀ k ∈ work.c, k ∈ signals.forbidden
    | some out => out ∈ work.c ∧ out ∉ signals.forbidden ∧
        ∀ k ∈ work.c, k ∉ signals.forbidden → k ≤ out := by
  have h := foldl_max (work.c.keys.filter signals.canBeTaken) none
  unfold takeSignal3
  have hmem : ∀ k, k ∈ work.c.keys.filter signals.canBeTaken ↔ k ∈ work.c ∧ k ∉ signals.forbidden := by
    simp [SignalDefinition.canBeTaken, AList.mem_keys]
  split at h
  · intro k hk
    by_contra hf
    have := (hmem k).mpr ⟨hk, hf⟩
    rw [h.1] at this
    cases this
  · obtain ⟨h1 | h1, h2, -⟩ := h
    · obtain ⟨hc, hf⟩ := (hmem _).mp h1
      exact ⟨hc, hf, fun k hk hkf => h2 k ((hmem k).mpr ⟨hk, hkf⟩)⟩
    · cases h1

/-! ## The loop -/

/-- The invariant of the process. -/
structure Inv3 (p : ℕ) (forbidden : Finset ℕ) (known : Set ℕ) (state : State3) : Prop where
  forbidden_eq : state.signals.forbidden = forbidden
  eliminated : Eliminated p forbidden known state.substitutions state.lconst
  below : ∀ k e, state.substitutions.lookup k = some e → ∀ y ∈ e.2.toExpr, y ∉ forbidden → y < k

theorem Inv3.of_eq {state state' : State3} (h : Inv3 p forbidden known state)
    (h1 : state'.signals.forbidden = state.signals.forbidden)
    (h2 : state'.substitutions = state.substitutions) (h3 : state'.lconst = state.lconst) :
    Inv3 p forbidden known state' :=
  ⟨h1.trans h.forbidden_eq, by rw [h2, h3]; exact h.eliminated, by rw [h2]; exact h.below⟩

theorem ascendingKeys_split {V : Type} {m : HashMap ℕ V} {l₁ l₂ : List ℕ} {x : ℕ}
    (h : m.ascendingKeys = l₁ ++ x :: l₂) : ∀ y ∈ l₂, y ∈ m ∧ x < y := by
  intro y hy
  have hp := Finset.pairwise_lt_ascending m.keys.toFinset
  rw [← AList.ascendingKeys, h] at hp
  refine ⟨AList.mem_ascendingKeys.mp (by rw [h]; simp [hy]), ?_⟩
  exact (List.pairwise_cons.mp (List.pairwise_append.mp hp).2.1).1 y hy

variable [hp : Fact p.Prime]

theorem treatConstraint3Loop_spec (h0 : 0 ∈ forbidden) (hz : 0 ∈ known) (fuel : ℕ) :
    ∀ (state : State3) (work : C), Inv3 p forbidden known state → Admissible p known work →
      weight (· ∈ work.c) state.substitutions.ascendingKeys < fuel →
      ∃ state', treatConstraint3Loop p fuel state work = some state' ∧
        Inv3 p forbidden known state' ∧
        ∀ ρ : ℕ → ZMod p, ρ 0 = 1 → (Solution ρ state'.substitutions state'.lconst ↔
          Solution ρ state.substitutions state.lconst ∧ work.Sat ρ) := by
  induction fuel with
  | zero => exact fun _ _ _ _ hf => absurd hf (Nat.not_lt_zero _)
  | succ fuel ih =>
    intro state work hinv hwork hfuel
    unfold treatConstraint3Loop
    split_ifs with hempty
    · exact ⟨state, rfl, hinv, fun ρ _ => (and_iff_left (Constraint.sat_of_isEmpty hempty)).symm⟩
    have htake := takeSignal3_spec state.signals work
    rw [hinv.forbidden_eq] at htake
    cases htk : takeSignal3 state.signals work with
    | none =>
      rw [htk] at htake
      exact ⟨_, rfl, ⟨hinv.forbidden_eq, hinv.eliminated.push hwork htake, hinv.below⟩,
        fun ρ _ => solution_push ρ _ _ _⟩
    | some out =>
      rw [htk] at htake
      obtain ⟨hout, hforb, hmax⟩ := htake
      cases hst : state.substitutions.lookup out with
      | none =>
        obtain ⟨coefficient, rest, hclear, helim, hsol, hkeys⟩ :=
          insert_round hinv.eliminated hz hwork hout hforb h0 hst
        refine ⟨{ state with
          signals := state.signals.delete out
          substitutions := state.substitutions.insert out (coefficient, ⟨out, rest⟩) },
          by simp [hclear, hst], ⟨hinv.forbidden_eq, helim, fun k e hl y hy hyf => ?_⟩,
          fun ρ _ => hsol ρ⟩
        by_cases hk : k = out
        · subst hk
          rw [AList.lookup_insert, Option.some.injEq] at hl
          subst hl
          rcases hkeys y hy with rfl | ⟨hyc, hne⟩
          · exact absurd h0 hyf
          · exact lt_of_le_of_ne (hmax y hyc hyf) hne
        · rw [AList.lookup_insert_ne hk] at hl
          exact hinv.below k e hl y hy hyf
      | some stored =>
        obtain ⟨coefficient, rest, work', hclear, hmerge, hadm, hsol, hkeys⟩ :=
          merge_round hinv.eliminated hz hwork hout hforb h0 hst
        -- the signals stored after `out` are greater, and the new work has only smaller ones
        have hw : weight (· ∈ work'.c) state.substitutions.ascendingKeys < fuel := by
          refine lt_of_lt_of_le (merge_weight (AList.mem_ascendingKeys.mpr
            (AList.mem_iff_exists_lookup.mpr ⟨_, hst⟩)) hout (fun h => (hkeys out h).1 rfl) ?_)
            (Nat.le_of_lt_succ hfuel)
          intro l₁ l₂ hl y hy hyw
          obtain ⟨hym, hlt⟩ := ascendingKeys_split hl y hy
          obtain ⟨e, he⟩ := AList.mem_iff_exists_lookup.mp hym
          have hyf := (hinv.eliminated.pivot y e he).2.1
          rcases (hkeys y hyw).2 with rfl | hys | hyc
          · exact absurd h0 hyf
          · exact absurd (hinv.below out stored hst y hys hyf) (by omega)
          · exact hyc
        obtain ⟨state', hrun, hinv', hsol'⟩ := ih
          { state with signals := state.signals.delete out } work'
          (hinv.of_eq rfl rfl rfl) hadm hw
        refine ⟨state', ?_, hinv', fun ρ h1 => (hsol' ρ h1).trans (hsol ρ h1)⟩
        simp [hclear, hst, hmerge, hrun]

theorem treatConstraint3_spec (h0 : 0 ∈ forbidden) (hz : 0 ∈ known) {state : State3} {work : C}
    (hinv : Inv3 p forbidden known state) (hwork : Admissible p known work) :
    ∃ state', treatConstraint3 p state work = some state' ∧ Inv3 p forbidden known state' ∧
      ∀ ρ : ℕ → ZMod p, ρ 0 = 1 → (Solution ρ state'.substitutions state'.lconst ↔
        Solution ρ state.substitutions state.lconst ∧ work.Sat ρ) := by
  refine treatConstraint3Loop_spec h0 hz _ state work hinv hwork ?_
  have hlen : state.substitutions.ascendingKeys.length = state.substitutions.len := by
    rw [AList.ascendingKeys, Finset.length_ascending, AList.len_eq_length_keys,
      List.toFinset_card_of_nodup (AList.keys_nodup _)]
  rw [loopBound, ← hlen]
  exact weight_lt_two_pow _ _

/-- The whole process: it ends, and the pivots with the rest have the solutions of the system. -/
theorem substitutionProcess3_spec (known : Set ℕ) (h0 : 0 ∈ forbidden) (hz : 0 ∈ known) {constraints : List C}
    (hc : ∀ c ∈ constraints, Admissible p known c) :
    ∃ state, substitutionProcess3 ⟨∅, forbidden⟩ constraints p = some state ∧
      Inv3 p forbidden known state ∧
      ∀ ρ : ℕ → ZMod p, ρ 0 = 1 → (Solution ρ state.substitutions state.lconst ↔
        ∀ c ∈ constraints, c.Sat ρ) := by
  let inv : List C → State3 → Prop := fun l state =>
    (∀ c ∈ l, Admissible p known c) ∧ Inv3 p forbidden known state ∧
      ∀ ρ : ℕ → ZMod p, ρ 0 = 1 →
        (Solution ρ state.substitutions state.lconst ∧ (∀ c ∈ l, c.Sat ρ) ↔
          ∀ c ∈ constraints, c.Sat ρ)
  obtain ⟨state, hrun, -, hinv, hsol⟩ := foldlM_invariant (f := treatConstraint3 p) inv
    (fun c l state ⟨hadm, hinv, hsol⟩ => by
      obtain ⟨state', hrun, hinv', hsol'⟩ :=
        treatConstraint3_spec h0 hz hinv (hadm c List.mem_cons_self)
      refine ⟨state', hrun, fun d hd => hadm d (List.mem_cons_of_mem c hd), hinv', fun ρ h1 => ?_⟩
      rw [hsol' ρ h1, ← hsol ρ h1, List.forall_mem_cons, and_assoc])
    (l := constraints.reverse) (s := ⟨⟨∅, forbidden⟩, ∅, []⟩)
    ⟨fun c hcm => hc c (List.mem_reverse.mp hcm),
      ⟨rfl, .empty, fun k e h => by simp at h⟩,
      fun ρ _ => by simp [solution_empty]⟩
  exact ⟨state, hrun, hinv, fun ρ h1 => by simpa using hsol ρ h1⟩

end Circom.Algebra.SimplificationUtils
