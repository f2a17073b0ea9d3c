import Circom.ConstraintList.Proofs.ConstantPhase
import Circom.ConstraintList.Proofs.Relevance

/-!
# The phases before the rounds

What the phases of equalities, of constant equalities and of linear constraints hand to the rounds.
-/

namespace Circom.ConstraintList

open Circom.Algebra (Constraint)
open Circom.Algebra.SimplificationUtils (Encodes Independent Rewrites buildEncodedFastSubstitutions
  encodes_build keys_build replaced mem_replaced)
open Circom.Lib (HashMap HashOrder exists_of_forall₂_left exists_of_forall₂_right)

variable {p : ℕ} {forbidden : Finset ℕ}

/-- The input of the simplification as `map_tree` and `produce_encoding` build it. -/
structure Simplifier.WellFormed (p : ℕ) (smp : Simplifier) : Prop where
  field_eq : smp.field = p
  zero_forbidden : 0 ∈ smp.forbidden
  equalities : ∀ c ∈ smp.equalities, c.isEquality p ∧ c.Reduced p
  consEqualities : ∀ c ∈ smp.consEqualities, c.isConstantEquality ∧ c.Reduced p
  linear : ∀ c ∈ smp.linear, c.Reduced p
  nonLinear : ∀ c ∈ smp.dagEncoding.unfoldedNonLinear, c.CoeffsInField p
  within : Within smp.maxSignal ∅ (smp.equalities ++ (smp.consEqualities ++ smp.linear ++
    smp.dagEncoding.unfoldedNonLinear))
  publics : ∀ k, 1 ≤ k → k ≤ smp.noPublicOutputs + smp.noPublicInputs → k ∈ smp.forbidden
  inputs : smp.noPublicOutputs + smp.noPublicInputs + smp.noPrivateInputs < smp.maxSignal

/-! ## Lists of rewritten constraints -/

theorem rewrites_refl {subs : List S} {l : List C} (h : ∀ k, Occurs l k → k ∉ replaced subs) :
    List.Forall₂ (Rewrites p subs) l l :=
  List.forall₂_same.mpr fun c hc => Rewrites.refl subs fun k hk => h k ⟨c, hc, hk⟩

theorem forall₂_of_forall₂_imp {α β : Type} {R : α → β → Prop} {P : α → Prop} {Q : β → Prop}
    {l : List α} {l' : List β} (h : List.Forall₂ (fun a b => R a b ∧ (P a → Q b)) l l')
    (hP : ∀ a ∈ l, P a) : List.Forall₂ R l l' ∧ ∀ b ∈ l', Q b := by
  refine ⟨h.imp fun _ _ hab => hab.1, ?_⟩
  intro b hb
  obtain ⟨a, ha, hab⟩ := exists_of_forall₂_right h hb
  exact hab.2 (hP a ha)

/-! ## Constant equalities after the renaming -/

theorem isSingle_of_isConstantEquality [Fact p.Prime] {c : C} (h : c.isConstantEquality ∧ c.Reduced p) :
    IsSingle p c :=
  ⟨h.2.linear, h.2.nonzeroCoeffs, (Constraint.shape_of_isConstantEquality h.1).2.2⟩

theorem mentions_of_single {c : C} {s : ℕ} (hs : c.takeClonedSignals = {s}) {k : ℕ}
    (hk : c.Mentions k) : k = 0 ∨ k = s := by
  by_cases h0 : k = 0
  · exact Or.inl h0
  · have : k ∈ c.takeClonedSignals := Constraint.mem_takeClonedSignals.mpr ⟨h0, hk⟩
    rw [hs, Finset.mem_singleton] at this
    exact Or.inr this

/-- Renaming renames the signal of a constant equality; the signal cannot get lost. -/
theorem single_of_rewrites [hp : Fact p.Prime] {subs : List S} (hren : Renames subs)
    (h0 : 0 ∉ replaced subs) {c c' : C} (hc : c.Reduced p) {s : ℕ} (hs : c.takeClonedSignals = {s})
    (hrew : Rewrites p subs c c') : c'.takeClonedSignals = {renameBy subs s} := by
  have hs0 : s ≠ 0 := by
    have : s ∈ c.takeClonedSignals := by rw [hs]; exact Finset.mem_singleton_self s
    exact (Constraint.mem_takeClonedSignals.mp this).1
  have hmem : ∀ k, c'.Mentions k → k = 0 ∨ k = renameBy subs s := by
    intro k hk
    rcases hrew.mentions k hk with rfl | ⟨hck, hnot⟩ | ⟨t, ht, hct, hkt⟩
    · exact Or.inl rfl
    · rcases mentions_of_single hs hck with rfl | rfl
      · exact Or.inl rfl
      · exact Or.inr (renameBy_of_notMem hnot).symm
    · rcases mentions_of_single hs hct with heq | heq
      · exact absurd (mem_replaced.mpr ⟨t, ht, heq⟩) h0
      · rw [← heq]
        exact Or.inr ((hren.renameBy_of_mem ht).mem_iff.mp hkt)
  -- the assignment with the value `t` everywhere
  let ρ : ZMod p → ℕ → ZMod p := fun t k => if k = 0 then 1 else t
  obtain ⟨v, k, hv, hsat⟩ := Constraint.single_spec hc.linear hc.nonzeroCoeffs hs
  have hsubs : ∀ t, ∀ s ∈ subs, s.Holds (ρ t) := by
    intro t
    rw [hren.holds_iff]
    intro k
    by_cases hk : k = 0
    · rw [hk, renameBy_of_notMem h0]
    · simp only [ρ, if_neg hk, if_neg (hren.renameBy_ne_zero hk)]
  have hsat' : ∀ t, c'.Sat (ρ t) ↔ v * t + k = 0 := by
    intro t
    rw [hrew.sat_iff (ρ t) (if_pos rfl) (hsubs t), hsat (ρ t) (if_pos rfl)]
    simp only [ρ, if_neg hs0]
  ext x
  rw [Constraint.mem_takeClonedSignals, Finset.mem_singleton]
  constructor
  · rintro ⟨hx0, hx⟩
    exact (hmem x hx).resolve_left hx0
  · rintro rfl
    refine ⟨hren.renameBy_ne_zero hs0, ?_⟩
    by_contra hnot
    have hconst : ∀ t t', c'.Sat (ρ t) ↔ c'.Sat (ρ t') := by
      intro t t'
      refine Constraint.sat_congr ?_
      intro x hx
      rcases hmem x hx with rfl | rfl
      · rfl
      · exact absurd hx hnot
    have hzero : v * (-(k / v)) + k = 0 := by
      rw [mul_neg, mul_div_cancel₀ k hv]
      exact neg_add_cancel k
    have hone := (hsat' (-(k / v) + 1)).mp ((hconst _ _).mp ((hsat' (-(k / v))).mpr hzero))
    refine hv ?_
    linear_combination hone - hzero

variable [hp : Fact p.Prime] {smp : Simplifier}

theorem Simplifier.WellFormed.solvable (h : smp.WellFormed p) :
    ∀ c ∈ smp.equalities, c.isEquality p ∧ c.NonzeroCoeffs p := fun c hc =>
  ⟨(h.equalities c hc).1, (h.equalities c hc).2.nonzeroCoeffs⟩

/-! ## One phase after the other -/

theorem simplifyEqualities_spec (o : HashOrder) (h : smp.WellFormed p) (relevant : Finset ℕ) :
    ∃ pending frame subs cons, simplifyEqualities o smp relevant = some (pending, frame) ∧
      Eliminates p smp.forbidden smp.equalities subs cons ∧ Renames subs ∧
      Encodes frame (subs.filter fun s => s.fromSignal ∈ relevant) ∧
      (List.Forall₂ (Rewrites p subs) smp.linear pending.linear ∧
        ∀ c ∈ pending.linear, c.Reduced p) ∧
      (List.Forall₂ (Rewrites p subs) smp.consEqualities pending.consEqualities ∧
        ∀ c ∈ pending.consEqualities, c.Reduced p) ∧
      pending.lconst = cons ∧ pending.deleted = replaced subs := by
  have hlt : ∀ k, k ≠ 0 → Occurs smp.equalities k → k < smp.maxSignal := fun k hk hocc =>
    (h.within k hk (Occurs.append.mpr (Or.inl hocc))).1
  obtain ⟨subs, cons, hrun, helim, hren⟩ :=
    eqSimplification_spec (o.sub 0) h.zero_forbidden h.solvable hlt
  have henc := encodes_build helim.nodup
  have hind := helim.independent h.zero_forbidden
  obtain ⟨linear, hlinear, hall⟩ := substituteEach_spec (p := p) (o.sub 1) henc hind smp.linear
  obtain ⟨consEqualities, hcons, hallCons⟩ :=
    substituteEach_spec (p := p) (o.sub 2) henc hind smp.consEqualities
  refine ⟨⟨linear, consEqualities, cons, (buildEncodedFastSubstitutions subs).keys.toFinset⟩, _,
    subs, cons, ?_, helim, helim.renames hren,
    encodes_removeNotRelevant henc relevant, forall₂_of_forall₂_imp hall h.linear,
    forall₂_of_forall₂_imp hallCons fun c hc => (h.consEqualities c hc).2, rfl, keys_build subs⟩
  simp only [simplifyEqualities, h.field_eq, hrun, hlinear, hcons, Option.bind_eq_bind,
    Option.bind_some]

theorem simplifyConsEqualities_spec (o : HashOrder) (h : smp.WellFormed p) {pending : Pending}
    (hlinear : ∀ c ∈ pending.linear, c.Reduced p) (hsingle : ∀ c ∈ pending.consEqualities, IsSingle p c) :
    ∃ pending' frame subs cons, simplifyConsEqualities o smp pending = some (pending', frame) ∧
      Eliminates p smp.forbidden (keptEqualities smp.forbidden pending.consEqualities) subs cons ∧
      Encodes frame subs ∧ (∀ s ∈ subs, ∀ k ∈ s.toExpr, k = 0) ∧
      (List.Forall₂ (Rewrites p subs) pending.linear pending'.linear ∧
        ∀ c ∈ pending'.linear, c.Reduced p) ∧
      pending'.lconst = pending.lconst ++ cons ∧
      pending'.deleted = pending.deleted ∪ replaced subs := by
  obtain ⟨subs, cons, kept, hrun, henc, hreplaced, helim, hzero⟩ :=
    constantEqSimplification_spec h.zero_forbidden hsingle
  obtain ⟨linear, hrunLinear, hall⟩ :=
    substituteEach_spec (p := p) o henc (helim.independent h.zero_forbidden) pending.linear
  refine ⟨⟨linear, [], pending.lconst ++ cons,
    pending.deleted ∪ (buildEncodedFastSubstitutions subs).keys.toFinset⟩, _, kept, cons, ?_, helim,
    henc, hzero, forall₂_of_forall₂_imp hall hlinear, rfl, ?_⟩
  · simp only [simplifyConsEqualities, h.field_eq, hrun, hrunLinear, Option.bind_eq_bind,
      Option.bind_some]
  · rw [keys_build, hreplaced]

theorem foldl_insert_fromSignal (subs : List S) (deleted : Finset ℕ) :
    subs.foldl (fun deleted sub => insert sub.fromSignal deleted) deleted =
      deleted ∪ replaced subs := by
  induction subs generalizing deleted with
  | nil => simp [replaced]
  | cons s subs ih =>
    rw [List.foldl_cons, ih]
    ext k
    simp only [Finset.mem_union, Finset.mem_insert, mem_replaced, List.mem_cons, exists_eq_or_imp]
    rw [eq_comm (a := k)]
    tauto

/-- Either all linear constraints are eliminated, or all are left. -/
theorem simplifyLinear_spec (o : HashOrder) (h : smp.WellFormed p) {pending : Pending}
    (relevant : Finset ℕ) (hlinear : ∀ c ∈ pending.linear, c.Reduced p)
    (hlt : ∀ k, k ≠ 0 → Occurs pending.linear k → k < smp.maxSignal)
    (hlconst : ∀ k, Occurs pending.lconst k → k ∈ smp.forbidden) :
    ∃ pending' frame before left subs cons,
      simplifyLinear o smp pending relevant = some (pending', frame) ∧
      before ++ left = pending.linear ∧ Eliminates p smp.forbidden before subs cons ∧
      Encodes frame (subs.filter fun s => s.fromSignal ∈ relevant) ∧
      List.Forall₂ (Rewrites p subs) (pending.lconst ++ left ++ cons) pending'.lconst ∧
      pending'.deleted = pending.deleted ∪ replaced subs := by
  by_cases hflag : smp.flagS
  · refine ⟨_, ∅, [], pending.linear, [], [], by rw [simplifyLinear, if_neg (by simp [hflag])],
      rfl, Eliminates.nil, ?_, ?_, ?_⟩
    · intro k e
      simp [AList.lookup_empty]
    · rw [List.append_nil]
      exact rewrites_refl fun k _ => by simp [replaced]
    · simp [replaced]
  · obtain ⟨subs, cons, hrun, helim⟩ := linearSimplification_spec (o.sub 0) h.zero_forbidden hlinear
      hlt smp.flagOldHeuristics
    have hnodup : ((subs.filter fun s => s.fromSignal ∈ relevant).map fun s => s.fromSignal).Nodup :=
      helim.nodup.sublist (List.filter_sublist.map _)
    have henc := encodes_build hnodup
    have hind := independent_filter (helim.independent h.zero_forbidden)
      fun s => s.fromSignal ∈ relevant
    obtain ⟨lconst, hrunLconst, hall⟩ :=
      substituteEach_spec (p := p) (o.sub 1) henc hind (pending.lconst ++ cons)
    refine ⟨⟨[], [], lconst, subs.foldl (fun deleted sub => insert sub.fromSignal deleted)
      pending.deleted⟩, _, pending.linear, [], subs, cons, ?_, List.append_nil _, helim, henc, ?_,
      foldl_insert_fromSignal subs pending.deleted⟩
    · simp only [simplifyLinear, hflag, Bool.not_false, if_true, h.field_eq, hrun, hrunLconst,
        Option.bind_eq_bind, Option.bind_some]
    · -- the constraints that are left have forbidden signals only, so no substitution matters
      rw [List.append_nil]
      have hforbidden : ∀ c ∈ pending.lconst ++ cons, ∀ k, c.Mentions k → k ∈ smp.forbidden := by
        intro c hc k hk
        rcases List.mem_append.mp hc with hc | hc
        · exact hlconst k ⟨c, hc, hk⟩
        · exact helim.rest c hc k hk
      refine ((List.forall₂_and_left _ _).mpr ⟨hforbidden, hall⟩).imp ?_
      rintro c c' ⟨hc, hrew, -⟩
      refine rewrites_of_filter ?_ hrew
      intro s hs hm
      exact absurd (hc _ hm) (helim.takeable s hs)

/-! ## The constant equalities that are not lost -/

/-- A later constant equality is about a signal that a chain of equalities connects with the signal of the
`i`-th one, and no forbidden signal is connected with them. -/
def Simplifier.Superseded (smp : Simplifier) (i : ℕ) : Prop :=
  ∃ c s, smp.consEqualities[i]? = some c ∧ s ∈ c.takeClonedSignals ∧
    (∀ f ∈ smp.forbidden, ¬ Connected smp.equalities s f) ∧
    ∃ j d t, i < j ∧ smp.consEqualities[j]? = some d ∧ t ∈ d.takeClonedSignals ∧
      Connected smp.equalities s t

open Classical in
/-- The elements of a list at the positions that satisfy `Q`. -/
noncomputable def atPositions {α : Type} (Q : ℕ → Prop) (l : List α) : List α :=
  (l.zipIdx.filter fun e => Q e.2).map Prod.fst

theorem mem_atPositions {α : Type} {Q : ℕ → Prop} {l : List α} {a : α} :
    a ∈ atPositions Q l ↔ ∃ i, l[i]? = some a ∧ Q i := by
  simp only [atPositions, List.mem_map, List.mem_filter, decide_eq_true_eq, Prod.exists]
  constructor
  · rintro ⟨b, i, ⟨hmem, hQ⟩, rfl⟩
    exact ⟨i, List.mem_zipIdx_iff_getElem?.mp hmem, hQ⟩
  · rintro ⟨i, hi, hQ⟩
    exact ⟨a, i, ⟨List.mem_zipIdx_iff_getElem?.mpr hi, hQ⟩, rfl⟩

theorem forall₂_atPositions {α β : Type} {R : α → β → Prop} (Q : ℕ → Prop) {l : List α}
    {l' : List β} (h : List.Forall₂ R l l') : List.Forall₂ R (atPositions Q l) (atPositions Q l') := by
  classical
  have hgeneral : ∀ n, List.Forall₂ R (((l.zipIdx n).filter fun e => Q e.2).map Prod.fst)
      (((l'.zipIdx n).filter fun e => Q e.2).map Prod.fst) := by
    induction h with
    | nil => exact fun _ => .nil
    | cons hab _ ih =>
      intro n
      rw [List.zipIdx_cons, List.zipIdx_cons]
      by_cases hQ : Q n
      · rw [List.filter_cons_of_pos (by simpa using hQ), List.filter_cons_of_pos (by simpa using hQ)]
        exact .cons hab (ih (n + 1))
      · rw [List.filter_cons_of_neg (by simpa using hQ), List.filter_cons_of_neg (by simpa using hQ)]
        exact ih (n + 1)
  unfold atPositions
  convert hgeneral 0

/-- The constant equalities that no later one supersedes. -/
noncomputable def Simplifier.keptConsEqualities (smp : Simplifier) : List C :=
  atPositions (fun i => ¬ smp.Superseded i) smp.consEqualities

/-- After the renaming the same constant equalities are kept. -/
theorem mem_keptEqualities_iff (h : smp.WellFormed p) {subs : List S} {cons : List C}
    (helim : Eliminates p smp.forbidden smp.equalities subs cons) (hren : Renames subs)
    {consEqualities : List C}
    (hall : List.Forall₂ (Rewrites p subs) smp.consEqualities consEqualities) {c' : C} :
    c' ∈ keptEqualities smp.forbidden consEqualities ↔
      c' ∈ atPositions (fun i => ¬ smp.Superseded i) consEqualities := by
  have hzero : 0 ∉ replaced subs := fun hmem => by
    obtain ⟨s, hs, heq⟩ := mem_replaced.mp hmem
    exact helim.takeable s hs (heq ▸ h.zero_forbidden)
  -- the signals of the `i`-th constant equality before and after the renaming
  have hsignal : ∀ (i : ℕ) (c' : C), consEqualities[i]? = some c' →
      ∃ (c : C) (s : ℕ), smp.consEqualities[i]? = some c ∧
      c.takeClonedSignals = {s} ∧ s ≠ 0 ∧ c'.takeClonedSignals = {renameBy subs s} := by
    intro i c' hi
    obtain ⟨c, hc, hrew⟩ := Lib.getElem?_of_forall₂ hall.flip hi
    have hmem := h.consEqualities c (List.mem_of_getElem? hc)
    obtain ⟨s, hs⟩ := (isSingle_of_isConstantEquality hmem).single
    have hs0 : s ≠ 0 := by
      have : s ∈ c.takeClonedSignals := by rw [hs]; exact Finset.mem_singleton_self s
      exact (Constraint.mem_takeClonedSignals.mp this).1
    exact ⟨c, s, hc, hs, hs0, single_of_rewrites hren hzero hmem.2 hs hrew⟩
  rw [mem_keptEqualities, mem_atPositions]
  refine exists_congr fun i => and_congr_right fun hi => ?_
  obtain ⟨c, s, hc, hs, hs0, hs'⟩ := hsignal i c' hi
  have hforbidden : c'.takeClonedSignals ⊆ smp.forbidden ↔
      ∃ f ∈ smp.forbidden, Connected smp.equalities s f := by
    rw [hs', Finset.singleton_subset_iff]
    exact renameBy_mem_iff h.solvable helim hren h.zero_forbidden hs0
  constructor
  · rintro hkept ⟨c0, s0, hc0, hmem, hnone, j, d, t, hij, hd, ht, hconn⟩
    obtain rfl : c = c0 := Option.some.inj (hc.symm.trans hc0)
    rw [hs, Finset.mem_singleton] at hmem
    subst hmem
    rcases hkept with hsub | hlast
    · obtain ⟨f, hf, hconn⟩ := hforbidden.mp hsub
      exact hnone f hf hconn
    · obtain ⟨d', hd', -⟩ := Lib.getElem?_of_forall₂ hall hd
      obtain ⟨d0, t0, hd0, ht0, -, ht'⟩ := hsignal j d' hd'
      obtain rfl : d = d0 := Option.some.inj (hd.symm.trans hd0)
      rw [ht0, Finset.mem_singleton] at ht
      subst ht
      have hname : renameBy subs s0 ∉ smp.forbidden := by
        rw [renameBy_mem_iff h.solvable helim hren h.zero_forbidden hs0]
        rintro ⟨f, hf, hconn⟩
        exact hnone f hf hconn
      refine hlast j d' hij hd' ?_
      rw [hs', ht', renameBy_eq_of_connected h.solvable helim hren h.zero_forbidden hs0 hname hconn]
  · intro hnot
    by_cases hsub : c'.takeClonedSignals ⊆ smp.forbidden
    · exact Or.inl hsub
    · right
      intro j d' hij hd' heq
      obtain ⟨d, t, hd, ht, ht0, ht'⟩ := hsignal j d' hd'
      refine hnot ⟨c, s, hc, by rw [hs]; exact Finset.mem_singleton_self s, ?_, j, d, t, hij, hd,
        by rw [ht]; exact Finset.mem_singleton_self t, ?_⟩
      · intro f hf hconn
        exact hsub (hforbidden.mpr ⟨f, hf, hconn⟩)
      · rw [hs', ht', Finset.singleton_inj] at heq
        exact connected_of_renameBy_eq h.solvable helim hren hs0 ht0 heq.symm

end Circom.ConstraintList
