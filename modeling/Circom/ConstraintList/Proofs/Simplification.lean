import Circom.ConstraintList.Proofs.RebuiltWitness
import Circom.ConstraintList.Proofs.FirstPhases
import Circom.ConstraintList.Proofs.StoredConstraints
import Mathlib.Tactic.Abel

/-!
# The whole simplification

The phases and the rounds put together, with the wires of the result.
-/

/-!
## The rounds of linear elimination

A round eliminates the linear constraints, applies the substitutions to the storage, and takes the
constraints that became linear out of it.
-/

namespace Circom.ConstraintList

open Circom.Algebra.SimplificationUtils (Rewrites Encodes Independent replaced mem_replaced)
open Circom.Lib (HashOrder)
open Circom.Algebra (Constraint ConstraintStorage)

variable {p : ℕ}
variable {state : RoundState}

/-! ## One round -/

variable [hp : Fact p.Prime] {smp : Simplifier}

/-- All constraints of a state. -/
def RoundState.constraints (state : RoundState) : List C :=
  state.mapped.storage.constraints ++ state.linear ++ state.lconst

/-- What holds before and after every round. -/
structure RoundState.Valid (p : ℕ) (smp : Simplifier) (state : RoundState) : Prop where
  disjoint : Disjoint smp.forbidden state.deleted
  coeffs : ∀ c ∈ state.mapped.storage.constraints, c.CoeffsInField p
  reduced : ∀ c ∈ state.linear, c.Reduced p
  within : Within smp.maxSignal state.deleted state.constraints
  indexed : state.mapped.Indexed

/-- A round keeps the invariant and what the constraints say about the forbidden signals. -/
theorem simplifyRound_spec (o : HashOrder) (hfield : smp.field = p) (h0 : 0 ∈ smp.forbidden) (h : state.Valid p smp) :
    ∃ state', simplifyRound o smp state = some state' ∧ state'.Valid p smp ∧
      ∀ σ : ℕ → ZMod p, σ 0 = 1 →
        (Extends smp.forbidden σ state.constraints ↔ Extends smp.forbidden σ state'.constraints) := by
  have hlt : ∀ k, k ≠ 0 → Occurs state.linear k → k < smp.maxSignal := fun k hk hocc =>
    (h.within k hk (by
      rw [RoundState.constraints, Occurs.append, Occurs.append]
      exact Or.inl (Or.inr hocc))).1
  obtain ⟨subs, cons, hrun, helim⟩ := linearSimplification_spec o h0 h.reduced hlt smp.flagOldHeuristics
  have hi := helim.independent h0
  obtain ⟨mapped', linear', rewritten, hrunMap, hrewritten, hindexed, hreduced, hcoeffs, hoccurs,
    hsat⟩ := applySubstitutionToMap_spec hi h.indexed h.coeffs
  obtain ⟨lconst', hlconst'⟩ : ∃ lconst', (state.lconst ++ cons).map (fun constraint =>
      (subs.foldl (fun constraint sub => constraint.applySubstitution sub p) constraint).fixConstraint
        p) = lconst' := ⟨_, rfl⟩
  have hlconst : List.Forall₂ (Rewrites p subs) (state.lconst ++ cons) lconst' := by
    rw [← hlconst', List.forall₂_map_right_iff]
    exact List.forall₂_same.mpr fun c _ => (rewrites_foldl hi c).fix
  have hall := List.rel_append hrewritten hlconst
  have hsource : state.constraints.Perm
      (state.linear ++ (state.mapped.storage.constraints ++ state.lconst)) := by
    rw [← Multiset.coe_eq_coe]
    simp only [RoundState.constraints, ← Multiset.coe_add]
    abel
  have hmiddle : (state.mapped.storage.constraints ++ (state.lconst ++ cons)).Perm
      (cons ++ (state.mapped.storage.constraints ++ state.lconst)) := by
    rw [← Multiset.coe_eq_coe]
    simp only [← Multiset.coe_add]
    abel
  refine ⟨⟨mapped', linear', lconst', subs.foldl (fun deleted sub => insert sub.fromSignal deleted)
    state.deleted⟩, ?_, ⟨?_, hcoeffs, hreduced, ?_, hindexed⟩, ?_⟩
  · simp only [simplifyRound, hfield, hrun, hrunMap, hlconst', Option.bind_eq_bind, Option.bind_some]
  · simp only [foldl_insert_fromSignal, Finset.disjoint_union_right]
    exact ⟨h.disjoint, helim.disjoint_replaced⟩
  · simp only [foldl_insert_fromSignal]
    refine (helim.within h0 hsource hmiddle hall h.within).mono ?_
    intro k hk
    simp only [RoundState.constraints] at hk
    rw [Occurs.append] at hk ⊢
    exact Or.inr (hk.imp_left (hoccurs k))
  · intro σ hσ
    rw [helim.extends_iff h0 hsource hmiddle hall σ hσ]
    refine Extends.congr σ h0 hσ fun ρ _ => ?_
    simp only [RoundState.constraints]
    rw [List.forall_mem_append, List.forall_mem_append, hsat ρ]

theorem simplifyRounds_spec (o : HashOrder) (hfield : smp.field = p) (h0 : 0 ∈ smp.forbidden) (noRounds : ℕ)
    (h : state.Valid p smp) :
    ∃ state', simplifyRounds o smp noRounds state = some state' ∧ state'.Valid p smp ∧
      ∀ σ : ℕ → ZMod p, σ 0 = 1 →
        (Extends smp.forbidden σ state.constraints ↔ Extends smp.forbidden σ state'.constraints) := by
  induction noRounds generalizing state with
  | zero => exact ⟨state, rfl, h, fun _ _ => Iff.rfl⟩
  | succ noRounds ih =>
    rw [simplifyRounds]
    by_cases hempty : state.linear.isEmpty
    · exact ⟨state, by rw [if_pos hempty], h, fun _ _ => Iff.rfl⟩
    · obtain ⟨state1, hrun1, hvalid1, hext1⟩ := simplifyRound_spec (o.sub noRounds) hfield h0 h
      obtain ⟨state2, hrun2, hvalid2, hext2⟩ := ih hvalid1
      refine ⟨state2, ?_, hvalid2, fun σ hσ => (hext1 σ hσ).trans (hext2 σ hσ)⟩
      rw [if_neg hempty, hrun1]
      exact hrun2

/-! ## The whole simplification -/

variable {p : ℕ} {smp : Simplifier}

/-! ## The phases together -/

theorem exists_middle {α β γ : Type} {R : α → β → Prop} {T : β → γ → Prop} {l : List α} {n : List γ}
    (h : List.Forall₂ (fun a c => ∃ b, R a b ∧ T b c) l n) :
    ∃ m, List.Forall₂ R l m ∧ List.Forall₂ T m n := by
  induction h with
  | nil => exact ⟨[], .nil, .nil⟩
  | cons hac _ ih =>
    obtain ⟨b, hR, hT⟩ := hac
    obtain ⟨m, hRm, hTm⟩ := ih
    exact ⟨b :: m, .cons hR hRm, .cons hT hTm⟩

/-- Nothing that was dropped as not relevant matters for a non-linear constraint. -/
theorem rewritesFrames_of_relevant {subs1 subs2 subs3 : List S} {frame1 frame2 : SEncoded}
    {relevant1 relevant2 : Finset ℕ} {nonLinear : List C} (hren : Renames subs1)
    (henc1 : Encodes frame1 (subs1.filter fun s => s.fromSignal ∈ relevant1))
    (henc2 : Encodes frame2 subs2) (hi3 : Independent subs3)
    (hzero2 : ∀ s ∈ subs2, ∀ k ∈ s.toExpr, k = 0) (hi1 : Independent subs1)
    (hcov1 : ∀ s, s ≠ 0 → Occurs nonLinear s → s ∈ relevant1)
    (hcov2 : ∀ s, s ≠ 0 → Occurs nonLinear s → relevantName frame1 s ∉ frame2 →
      relevantName frame1 s ∈ relevant2) {c c' : C} (hc : c ∈ nonLinear)
    (h : RewritesFrames p (subs1.filter fun s => s.fromSignal ∈ relevant1) subs2
      (subs3.filter fun s => s.fromSignal ∈ relevant2) c c') :
    RewritesFrames p subs1 subs2 subs3 c c' := by
  obtain ⟨c1, c2, hrew1, hrew2, hrew3⟩ := h
  have hren' : Renames (subs1.filter fun s => s.fromSignal ∈ relevant1) :=
    ⟨hren.nodup.sublist (List.filter_sublist.map _),
      fun s hs t ht => hren.free s (List.mem_filter.mp hs).1 t (List.mem_filter.mp ht).1,
      fun s hs => hren.isRenaming s (List.mem_filter.mp hs).1⟩
  refine ⟨c1, c2, rewrites_of_filter ?_ hrew1, hrew2, rewrites_of_filter ?_ hrew3⟩
  · intro s hs hm
    exact decide_eq_true (hcov1 _ (hi1.from_ne s hs) ⟨c, hc, hm⟩)
  · intro s hs hm
    have hs0 := hi3.from_ne s hs
    -- the signal comes from a signal of `c` by renaming, and it is not a constant
    obtain ⟨hm1, hnot⟩ : c1.Mentions s.fromSignal ∧ s.fromSignal ∉ replaced subs2 := by
      rcases hrew2.mentions _ hm with h0 | hm | ⟨t, ht, -, hst⟩
      · exact absurd h0 hs0
      · exact hm
      · exact absurd (hzero2 t ht _ hst) hs0
    obtain ⟨k, hk0, hkc, hname⟩ :
        ∃ k, k ≠ 0 ∧ c.Mentions k ∧ relevantName frame1 k = s.fromSignal := by
      rcases hrew1.mentions _ hm1 with h0 | ⟨hmc, hnot1⟩ | ⟨t, ht, hmc, hst⟩
      · exact absurd h0 hs0
      · refine ⟨s.fromSignal, hs0, hmc, ?_⟩
        rw [unwrappedSignal_of_renames hren' henc1, renameBy_of_notMem hnot1]
      · refine ⟨t.fromSignal, hi1.from_ne t (List.mem_filter.mp ht).1, hmc, ?_⟩
        rw [unwrappedSignal_of_renames hren' henc1]
        exact ((hren'.renameBy_of_mem ht).mem_iff.mp hst).symm
    have := hcov2 k hk0 ⟨c, hc, hkc⟩ (by rw [hname, henc2.mem_iff]; exact hnot)
    rw [hname] at this
    exact decide_eq_true this

/-- The phases of equalities and constant equalities, with other constraints `others` that only the
substitutions reach. -/
theorem firstTwoPhases {forbidden : Finset ℕ} (h0 : 0 ∈ forbidden)
    {equalities consEqualities consEqualities' cons1 cons2 : List C} {subs1 subs2 : List S}
    (helim1 : Eliminates p forbidden equalities subs1 cons1)
    (helim2 : Eliminates p forbidden consEqualities' subs2 cons2)
    (hcons : List.Forall₂ (Rewrites p subs1) consEqualities consEqualities')
    {others others1 others2 : List C} (hothers1 : List.Forall₂ (Rewrites p subs1) others others1)
    (hothers2 : List.Forall₂ (Rewrites p subs2) others1 others2) {maxSignal : ℕ}
    (hw : Within maxSignal ∅ (equalities ++ (consEqualities ++ others))) :
    Within maxSignal (replaced subs1 ∪ replaced subs2) (cons1 ++ cons2 ++ others2) ∧
      ∀ σ : ℕ → ZMod p, σ 0 = 1 →
        (Extends forbidden σ (equalities ++ (consEqualities ++ others)) ↔
          Extends forbidden σ (cons1 ++ cons2 ++ others2)) := by
  have hall1 : List.Forall₂ (Rewrites p subs1) (cons1 ++ (consEqualities ++ others))
      (cons1 ++ (consEqualities' ++ others1)) := by
    refine List.rel_append (rewrites_refl ?_) (List.rel_append hcons hothers1)
    rintro k ⟨c, hc, hk⟩
    exact Finset.disjoint_left.mp helim1.disjoint_replaced (helim1.rest c hc k hk)
  have hall2 : List.Forall₂ (Rewrites p subs2) (cons1 ++ cons2 ++ others1)
      (cons1 ++ cons2 ++ others2) := by
    refine List.rel_append (rewrites_refl ?_) hothers2
    intro k hk
    refine Finset.disjoint_left.mp helim2.disjoint_replaced ?_
    rcases Occurs.append.mp hk with ⟨c, hc, hk⟩ | ⟨c, hc, hk⟩
    · exact helim1.rest c hc k hk
    · exact helim2.rest c hc k hk
  have hsource : (cons1 ++ (consEqualities' ++ others1)).Perm
      (consEqualities' ++ (cons1 ++ others1)) := by
    rw [← Multiset.coe_eq_coe]
    simp only [← Multiset.coe_add]
    abel
  have hmiddle : (cons1 ++ cons2 ++ others1).Perm (cons2 ++ (cons1 ++ others1)) := by
    rw [← Multiset.coe_eq_coe]
    simp only [← Multiset.coe_add]
    abel
  have hw1 := helim1.within h0 (List.Perm.refl _) (List.Perm.refl _) hall1 hw
  rw [Finset.empty_union] at hw1
  refine ⟨helim2.within h0 hsource hmiddle hall2 hw1, ?_⟩
  intro σ hσ
  exact (helim1.extends_iff h0 (List.Perm.refl _) (List.Perm.refl _) hall1 σ hσ).trans
    (helim2.extends_iff h0 hsource hmiddle hall2 σ hσ)

/-! ## The end of the run -/

theorem foldl_addConstraint {mapped : Mapped} (h : mapped.Indexed) (l : List C) :
    (l.foldl Mapped.addConstraint mapped).Indexed ∧
      (l.foldl Mapped.addConstraint mapped).storage.constraints = mapped.storage.constraints ++ l := by
  induction l generalizing mapped with
  | nil => exact ⟨h, (List.append_nil _).symm⟩
  | cons c l ih =>
    rw [List.foldl_cons]
    obtain ⟨hindexed, hstorage⟩ := ih (h.addConstraint c)
    refine ⟨hindexed, hstorage.trans ?_⟩
    have hc : (mapped.addConstraint c).storage.constraints = mapped.storage.constraints ++ [c] := rfl
    rw [hc, List.append_assoc]
    rfl

/-- What is exported agrees with what is left. -/
structure Finished (smp : Simplifier) (state : RoundState) (out : Simplification) : Prop where
  mem_iff : ∀ c, c ∈ out.constraintStorage.constraints ↔
    (c ∈ state.mapped.storage.constraints ++ state.linear ++
      state.lconst.map fun c => c.fixConstraint smp.field) ∧ !c.isEmpty
  wires : ∃ P, Numbers out.signalMap (keptBelow P smp.maxSignal) ∧
    (∀ k, k ∈ out.deleted ↔ k ∈ state.deleted ∨ k < smp.maxSignal ∧ ¬ P k) ∧
    (∀ k, P k → k ∉ state.deleted) ∧ (∀ k ∈ smp.forbidden, P k) ∧
    ∀ k, k ≠ 0 → Occurs out.constraintStorage.constraints k → k < smp.maxSignal ∧ P k
  count : out.noPrivateInputsWitness = ((Finset.Icc (smp.noPublicOutputs + smp.noPublicInputs + 1)
    (smp.noPublicOutputs + smp.noPublicInputs + smp.noPrivateInputs)).filter
      fun k => k ∈ out.signalMap).card

/-- The deleted inputs that the code counts are the private inputs that are no wires. -/
theorem card_deletedInputs (h : smp.WellFormed p) {P : ℕ → Bool} {deleted final : Finset ℕ}
    (hfinal : ∀ k, k ∈ final ↔ k ∈ deleted ∨ k < smp.maxSignal ∧ ¬ P k)
    (hP : ∀ k, P k → k ∉ deleted) (hforbidden : ∀ k ∈ smp.forbidden, P k) {signalMap : SignalMap}
    (hmap : Numbers signalMap (keptBelow P smp.maxSignal)) :
    (final.filter fun signal => smp.noPublicOutputs + 1 ≤ signal ∧
        signal ≤ smp.noPublicOutputs + smp.noPublicInputs + smp.noPrivateInputs).card +
      ((Finset.Icc (smp.noPublicOutputs + smp.noPublicInputs + 1)
        (smp.noPublicOutputs + smp.noPublicInputs + smp.noPrivateInputs)).filter
          fun k => k ∈ signalMap).card = smp.noPrivateInputs := by
  have hinputs := h.inputs
  have hiff : ∀ k, k < smp.maxSignal → (k ∈ final ↔ k ∉ signalMap) := by
    intro k hk
    rw [hfinal, hmap.mem_iff, keptBelow, List.mem_filter, List.mem_range]
    constructor
    · rintro (hdel | ⟨-, hnot⟩) ⟨-, hPk⟩
      · exact hP k hPk hdel
      · exact hnot hPk
    · intro hnot
      exact Or.inr ⟨hk, fun hPk => hnot ⟨hk, hPk⟩⟩
  have hset : (final.filter fun signal => smp.noPublicOutputs + 1 ≤ signal ∧
      signal ≤ smp.noPublicOutputs + smp.noPublicInputs + smp.noPrivateInputs) =
      (Finset.Icc (smp.noPublicOutputs + smp.noPublicInputs + 1)
        (smp.noPublicOutputs + smp.noPublicInputs + smp.noPrivateInputs)).filter
          fun k => ¬ k ∈ signalMap := by
    ext k
    rw [Finset.mem_filter, Finset.mem_filter, Finset.mem_Icc]
    constructor
    · rintro ⟨hk, hlow, hhigh⟩
      have hpublic : ¬ k ≤ smp.noPublicOutputs + smp.noPublicInputs := by
        intro hle
        have hPk := hforbidden k (h.publics k (by omega) hle)
        rcases (hfinal k).mp hk with hdel | ⟨-, hnot⟩
        · exact hP k hPk hdel
        · exact hnot hPk
      exact ⟨⟨by omega, hhigh⟩, (hiff k (by omega)).mp hk⟩
    · rintro ⟨⟨hlow, hhigh⟩, hk⟩
      exact ⟨(hiff k (by omega)).mpr hk, by omega, hhigh⟩
  rw [hset, add_comm, Finset.card_filter_add_card_filter_not, Nat.card_Icc]
  omega

theorem finishSimplification_spec (h : smp.WellFormed p) (hv : state.Valid p smp) :
    ∃ out, finishSimplification smp state = some out ∧ Finished smp state out := by
  obtain ⟨hindexed1, hstorage1⟩ := foldl_addConstraint hv.indexed state.linear
  obtain ⟨hindexed, hstorage⟩ := foldl_addConstraint hindexed1
    (state.lconst.map fun c => c.fixConstraint smp.field)
  rw [List.foldl_map] at hindexed hstorage
  rw [hstorage1] at hstorage
  obtain ⟨mapped, hmapped⟩ : ∃ mapped, state.lconst.foldl (fun mapped constraint =>
      Mapped.addConstraint mapped (constraint.fixConstraint smp.field))
      (state.linear.foldl Mapped.addConstraint state.mapped) = mapped := ⟨_, rfl⟩
  rw [hmapped] at hindexed hstorage
  obtain ⟨hlookup, hdeleted⟩ :=
    rebuildWitness_spec smp.maxSignal state.deleted smp.forbidden mapped.map true
  obtain ⟨P, hPdef⟩ : ∃ P, Stays state.deleted smp.forbidden mapped.map true = P := ⟨_, rfl⟩
  obtain ⟨result, hresult⟩ : ∃ result,
      rebuildWitness smp.maxSignal state.deleted smp.forbidden mapped.map true = result := ⟨_, rfl⟩
  rw [hPdef, hresult] at hlookup hdeleted
  have hmap := numbers_keptBelow hlookup
  have hPiff : ∀ k, P k ↔ k ∉ state.deleted ∧ (k ∈ smp.forbidden ∨ k ∈ mapped.map) := by
    intro k
    rw [← hPdef, Stays]
    simp only [Bool.true_and, Bool.and_eq_true, Bool.not_eq_true', Bool.and_eq_false_iff,
      decide_eq_true_eq, decide_eq_false_iff_not, not_not]
  have hP : ∀ k, P k → k ∉ state.deleted := fun k hk => ((hPiff k).mp hk).1
  have hforbidden : ∀ k ∈ smp.forbidden, P k := fun k hk =>
    (hPiff k).mpr ⟨Finset.disjoint_left.mp hv.disjoint hk, Or.inl hk⟩
  have hcard := card_deletedInputs h hdeleted hP hforbidden hmap
  refine ⟨⟨(mapped.storage.extractWith fun c => c.isEmpty).1, result.1,
    smp.noPrivateInputs - (result.2.filter fun signal => smp.noPublicOutputs + 1 ≤ signal ∧
      signal ≤ smp.noPublicOutputs + smp.noPublicInputs + smp.noPrivateInputs).card,
    result.2⟩, ?_, ?_, ?_, ?_⟩
  · simp only [finishSimplification, hmapped, simplifyNonLinear, Finset.union_empty, hresult]
    rw [if_neg]
    omega
  · intro c
    simp only [ConstraintStorage.extractWith, List.mem_filter, hstorage]
  · refine ⟨P, hmap, hdeleted, hP, hforbidden, ?_⟩
    · rintro k hk ⟨c, hc, hm⟩
      have hc' : c ∈ mapped.storage.constraints := (List.mem_filter.mp hc).1
      obtain ⟨id, hid⟩ := List.mem_iff_getElem?.mp hc'
      have hmem := mem_of_mem_ids (hindexed.covers id c k hid hk hm)
      -- normalizing a constraint adds no signal
      have hoccurs : Occurs state.constraints k := by
        rw [hstorage] at hc'
        rw [RoundState.constraints, Occurs.append]
        rcases List.mem_append.mp hc' with hc' | hc'
        · exact Or.inl ⟨c, hc', hm⟩
        · obtain ⟨d, hd, rfl⟩ := List.mem_map.mp hc'
          rcases Constraint.mentions_fixConstraint hm with h0 | hm
          · exact absurd h0 hk
          · exact Or.inr ⟨d, hd, hm⟩
      obtain ⟨hlt, hnot⟩ := hv.within k hk hoccurs
      exact ⟨hlt, (hPiff k).mpr ⟨hnot, Or.inr hmem⟩⟩
  · simp only
    omega

variable [hp : Fact p.Prime]

theorem Finished.sat_iff {out : Simplification} (h : Finished smp state out) (hfield : smp.field = p) {ρ : ℕ → ZMod p}
    (h1 : ρ 0 = 1) : (∀ c ∈ out.constraintStorage.constraints, c.Sat ρ) ↔ ∀ c ∈ state.constraints, c.Sat ρ := by
  have hfix : (∀ c ∈ state.lconst.map fun c => c.fixConstraint smp.field, c.Sat ρ) ↔
      ∀ c ∈ state.lconst, c.Sat ρ := by
    rw [List.forall_mem_map, hfield]
    exact forall₂_congr fun c _ => Constraint.sat_fixConstraint c h1
  have hall : (∀ c ∈ out.constraintStorage.constraints, c.Sat ρ) ↔
      ∀ c ∈ state.mapped.storage.constraints ++ state.linear ++
        state.lconst.map fun c => c.fixConstraint smp.field, c.Sat ρ := by
    constructor
    · intro hall c hc
      by_cases hempty : c.isEmpty
      · exact Constraint.sat_of_isEmpty hempty
      · exact hall c ((h.mem_iff c).mpr ⟨hc, by simpa using hempty⟩)
    · intro hall c hc
      exact hall c ((h.mem_iff c).mp hc).1
  rw [hall, RoundState.constraints, List.forall_mem_append, hfix, ← List.forall_mem_append]

/-! ## Before the rounds -/

/-- The constraints of the input of which no constant equality is lost. -/
noncomputable def Simplifier.keptConstraints (smp : Simplifier) : List C :=
  smp.equalities ++ (smp.keptConsEqualities ++ smp.linear ++ smp.dagEncoding.unfoldedNonLinear)

/-- Before the rounds: no panic, and only superseded constant equalities are lost. -/
theorem simplification_eq (o : HashOrder) (h : smp.WellFormed p) :
    ∃ state : RoundState, state.Valid p smp ∧
      simplification o smp = (do
        let state ←
          if !smp.flagS then simplifyRounds (o.sub 4) smp (smp.noRounds - 1) state else some state
        finishSimplification smp state) ∧
      ∀ σ : ℕ → ZMod p, σ 0 = 1 →
        (Extends smp.forbidden σ smp.keptConstraints ↔ Extends smp.forbidden σ state.constraints) := by
  have h0 := h.zero_forbidden
  obtain ⟨iter, hnew, hiter⟩ := EncodingIterator.new_spec smp.dagEncoding
  obtain ⟨relevant1, hrel1, hcov1⟩ := buildRelevantSet_spec hiter ∅ ∅
  obtain ⟨pending1, frame1, subs1, cons1, hrun1, helim1, hren1, henc1, ⟨hlin1, hred1⟩,
    ⟨hcons1, hredCons1⟩, hlconst1, hdel1⟩ := simplifyEqualities_spec (o.sub 0) h relevant1
  have hi1 := helim1.independent h0
  have hzero1 : 0 ∉ replaced subs1 := Finset.disjoint_left.mp helim1.disjoint_replaced h0
  have hsingle : ∀ c ∈ pending1.consEqualities, IsSingle p c := by
    intro c' hc'
    obtain ⟨c, hc, hrew⟩ := Lib.exists_of_forall₂_right hcons1 hc'
    obtain ⟨s, hs⟩ := (isSingle_of_isConstantEquality (h.consEqualities c hc)).single
    exact ⟨(hredCons1 c' hc').linear, (hredCons1 c' hc').nonzeroCoeffs, _,
      single_of_rewrites hren1 hzero1 (h.consEqualities c hc).2 hs hrew⟩
  obtain ⟨pending2, frame2, subs2, cons2, hrun2, helim2, henc2, hzero2, ⟨hlin2, hred2⟩, hlconst2,
    hdel2⟩ := simplifyConsEqualities_spec (o.sub 1) h hred1 hsingle
  have hi2 := helim2.independent h0
  obtain ⟨relevant2, hrel2, hcov2⟩ := buildRelevantSet_spec hiter frame1 frame2
  -- the constraints after the phase of equalities
  let kept := smp.keptConsEqualities
  let kept' := atPositions (fun i => ¬ smp.Superseded i) pending1.consEqualities
  have helim2' : Eliminates p smp.forbidden kept' subs2 cons2 := by
    have hmem : ∀ c', c' ∈ keptEqualities smp.forbidden pending1.consEqualities ↔
      c' ∈ atPositions (fun i => ¬ smp.Superseded i) pending1.consEqualities :=
    fun _ => mem_keptEqualities_iff h helim1 hren1 hcons1
    refine helim2.congr (List.Perm.refl _) (List.Perm.refl _) ?_ ?_
    · rintro k ⟨c, hc, hk⟩
      exact ⟨c, (hmem c).mp hc, hk⟩
    · intro ρ
      exact forall_congr' fun c => imp_congr_left (hmem c)
  have hkept : List.Forall₂ (Rewrites p subs1) kept kept' := forall₂_atPositions _ hcons1
  have hcons1F : ∀ k, Occurs cons1 k → k ∈ smp.forbidden := by
    rintro k ⟨c, hc, hk⟩
    exact helim1.rest c hc k hk
  have hcons2F : ∀ k, Occurs (cons1 ++ cons2) k → k ∈ smp.forbidden := by
    intro k hk
    rcases Occurs.append.mp hk with hk | ⟨c, hc, hk⟩
    · exact hcons1F k hk
    · exact helim2.rest c hc k hk
  have hwithin0 : Within smp.maxSignal ∅ smp.keptConstraints := by
    refine h.within.mono ?_
    rintro k ⟨c, hc, hk⟩
    refine Or.inr ⟨c, ?_, hk⟩
    simp only [Simplifier.keptConstraints, List.mem_append] at hc ⊢
    refine hc.imp_right (Or.imp_left (Or.imp_left fun hc => ?_))
    obtain ⟨i, hi, -⟩ := mem_atPositions.mp hc
    exact List.mem_of_getElem? hi
  have hlt2 : ∀ k, k ≠ 0 → Occurs pending2.linear k → k < smp.maxSignal := by
    have hw : Within smp.maxSignal ∅ (smp.equalities ++ (kept ++ smp.linear)) := by
      refine hwithin0.mono ?_
      intro k hk
      simp only [Simplifier.keptConstraints, Occurs.append] at hk ⊢
      tauto
    intro k hk hocc
    exact ((firstTwoPhases h0 helim1 helim2' hkept hlin1 hlin2 hw).1 k hk
      (Occurs.append.mpr (Or.inr hocc))).1
  have hlconstF : ∀ k, Occurs pending2.lconst k → k ∈ smp.forbidden := by
    rw [hlconst2, hlconst1]
    exact hcons2F
  obtain ⟨pending3, frame3, before, left, subs3, cons3, hrun3, hsplit, helim3, henc3, hlconst3,
    hdel3⟩ := simplifyLinear_spec (o.sub 2) h relevant2 hred2 hlt2 hlconstF
  have hi3 := helim3.independent h0
  obtain ⟨nonLinear, hrun4, hall4⟩ := obtainAndSimplifyNonLinear_spec (p := p) (o.sub 3) hiter henc1
    henc2 henc3 (independent_filter hi1 _) hi2 (independent_filter hi3 _)
  -- the non-linear constraints after each phase
  have hframes : List.Forall₂ (RewritesFrames p subs1 subs2 subs3)
      smp.dagEncoding.unfoldedNonLinear nonLinear := by
    have hmem : ∀ c ∈ smp.dagEncoding.unfoldedNonLinear, c ∈ smp.dagEncoding.unfoldedNonLinear :=
      fun _ hc => hc
    refine ((List.forall₂_and_left _ _).mpr ⟨hmem, hall4⟩).imp ?_
    rintro c c' ⟨hc, hrew, -⟩
    refine rewritesFrames_of_relevant hren1 henc1 henc2 hi3 hzero2 hi1 ?_ hcov2 hc hrew
    intro s hs hocc
    exact hcov1 s hs hocc (by simp)
  have hsteps : List.Forall₂ (fun c c' => ∃ c1, Rewrites p subs1 c c1 ∧
      ∃ c2, Rewrites p subs2 c1 c2 ∧ Rewrites p subs3 c2 c')
      smp.dagEncoding.unfoldedNonLinear nonLinear := by
    refine hframes.imp ?_
    rintro c c' ⟨c1, c2, h1, h2, h3⟩
    exact ⟨c1, h1, c2, h2, h3⟩
  obtain ⟨nonLinear1, hnl1, hsteps⟩ := exists_middle hsteps
  obtain ⟨nonLinear2, hnl2, hnl3⟩ := exists_middle hsteps
  obtain ⟨hw2, hext2⟩ := firstTwoPhases h0 helim1 helim2' hkept (List.rel_append hlin1 hnl1)
    (List.rel_append hlin2 hnl2) (by rwa [← List.append_assoc kept])
  have hsource : (cons1 ++ cons2 ++ (pending2.linear ++ nonLinear2)).Perm
      (before ++ (pending2.lconst ++ left ++ nonLinear2)) := by
    rw [← hsplit, hlconst2, hlconst1, ← Multiset.coe_eq_coe]
    simp only [← Multiset.coe_add]
    abel
  have hmiddle : (pending2.lconst ++ left ++ cons3 ++ nonLinear2).Perm
      (cons3 ++ (pending2.lconst ++ left ++ nonLinear2)) := by
    rw [← Multiset.coe_eq_coe]
    simp only [← Multiset.coe_add]
    abel
  have hall3 := List.rel_append hlconst3 hnl3
  have hw3 := helim3.within h0 hsource hmiddle hall3 hw2
  obtain ⟨map, hmap, hindexed⟩ := buildNonLinearSignalMap_spec ⟨nonLinear.filter fun c => !c.isLinear⟩
  have hdeleted : pending3.deleted = replaced subs1 ∪ replaced subs2 ∪ replaced subs3 := by
    rw [hdel3, hdel2, hdel1]
  have hperm : (pending3.lconst ++ nonLinear).Perm ((nonLinear.filter fun c => !c.isLinear) ++
      (nonLinear.filter fun c => c.isLinear) ++ pending3.lconst) := by
    refine List.perm_append_comm.trans (List.Perm.append_right _ ?_)
    refine (List.filter_append_perm (fun c : C => c.isLinear) nonLinear).symm.trans ?_
    exact List.perm_append_comm
  have hcoeffs : ∀ c ∈ nonLinear, c.CoeffsInField p ∧ c.NoZeroCoeff := by
    intro c' hc'
    obtain ⟨c, hc, ⟨c1, c2, hrew1, hrew2, hrew3⟩, hzero⟩ := Lib.exists_of_forall₂_right hall4 hc'
    exact ⟨hrew3.coeffs (hrew2.coeffs (hrew1.coeffs (h.nonLinear c hc))), hzero⟩
  refine ⟨⟨⟨⟨nonLinear.filter fun c => !c.isLinear⟩, map⟩, nonLinear.filter fun c => c.isLinear,
    pending3.lconst, pending3.deleted⟩, ⟨?_, ?_, ?_, ?_, hindexed⟩, ?_, ?_⟩
  · rw [hdeleted, Finset.disjoint_union_right, Finset.disjoint_union_right]
    exact ⟨⟨helim1.disjoint_replaced, helim2.disjoint_replaced⟩, helim3.disjoint_replaced⟩
  · intro c hc
    exact (hcoeffs c (List.mem_filter.mp hc).1).1
  · intro c hc
    obtain ⟨hc, hlin⟩ := List.mem_filter.mp hc
    exact ⟨hlin, (hcoeffs c hc).1, (hcoeffs c hc).2⟩
  · rw [hdeleted]
    refine hw3.mono ?_
    intro k hk
    exact Or.inr ((occurs_of_perm hperm).mpr hk)
  · simp only [simplification, hnew, hrel1, hrun1, hrun2, hrel2, hrun3, hrun4, hmap, h.field_eq,
      Option.bind_eq_bind, Option.bind_some]
  · intro σ hσ
    rw [Simplifier.keptConstraints, List.append_assoc smp.keptConsEqualities, hext2 σ hσ,
      helim3.extends_iff h0 hsource hmiddle hall3 σ hσ]
    exact Extends.congr σ h0 hσ fun ρ _ => sat_of_perm hperm ρ

end Circom.ConstraintList
