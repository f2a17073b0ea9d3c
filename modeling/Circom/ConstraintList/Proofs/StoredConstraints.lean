import Circom.ConstraintList.Proofs.Index

/-!
# Substitutions and the stored constraints

Substitutions are applied to the constraints of the storage one after the other. The constraints that became
linear are taken out of it; what is rewritten and stays has two factors that are not constant.
-/

namespace Circom.ConstraintList

open Circom.Algebra (Constraint ConstraintStorage)
open Circom.Algebra.SimplificationUtils (BlankFactors Independent Rewrites replaced mem_replaced)
open Circom.Lib (HashMap foldlM_invariant)

variable {p : ℕ}
variable {c : C} {storage : ConstraintStorage} {before : List C} {subs : List S} {acc : Mapped × List ℕ}
variable {cId : ℕ}

/-! ## The shape of what stays -/

/-- Both factors have a signal. -/
def NonConstantFactors (c : C) : Prop := (∃ k ∈ c.a, k ≠ 0) ∧ ∃ k ∈ c.b, k ≠ 0

theorem exists_signal_of_not_constant {m : HashMap ℕ ℤ} (hlen : m.len ≠ 0)
    (h : ¬ Algebra.isConstantExpression m) : ∃ k ∈ m, k ≠ 0 := by
  by_contra hnone
  push Not at hnone
  have hall : ∀ k ∈ m.keys, k = 0 := fun k hk => hnone k (AList.mem_keys.mpr hk)
  rw [AList.len_eq_length_keys] at hlen
  obtain ⟨k, hk⟩ := List.exists_mem_of_ne_nil m.keys (List.ne_nil_of_length_pos (by omega))
  have hone : m.keys.length = 1 := by
    have hle := ((AList.keys_nodup m).subperm
      fun k hk => List.mem_singleton.mpr (hall k hk)).length_le
    rw [List.length_singleton] at hle
    omega
  refine h ?_
  rw [Algebra.isConstantExpression, Bool.and_eq_true, decide_eq_true_eq, decide_eq_true_eq,
    AList.len_eq_length_keys]
  refine ⟨AList.mem_keys.mpr ?_, hone⟩
  rwa [hall k hk] at hk

/-- `fix_constraint` leaves a linear constraint, or two factors that are not constant. -/
theorem isLinear_or_nonConstant_fix (c : C) (field : ℤ) :
    (c.fixConstraint field).isLinear ∨ NonConstantFactors (c.fixConstraint field) := by
  obtain ⟨a, b, c⟩ := c
  simp only [Constraint.fixConstraint]
  split_ifs with hempty ha hb
  · exact Or.inl rfl
  · exact Or.inl rfl
  · exact Or.inl rfl
  · right
    simp only [Bool.or_eq_true, decide_eq_true_eq, not_or] at hempty
    exact ⟨exists_signal_of_not_constant hempty.1 ha, exists_signal_of_not_constant hempty.2 hb⟩

/-! ## Applying substitutions to the storage -/

/-- The storage after the substitutions `done`; `acc.2` are the constraints that became linear. -/
structure Processed (p : ℕ) (subs done : List S) (before : List C) (acc : Mapped × List ℕ) :
    Prop where
  length_eq : acc.1.storage.constraints.length = before.length
  indexed : acc.1.Indexed
  stage : ∀ (id : ℕ) c c', before[id]? = some c → acc.1.storage.constraints[id]? = some c' →
    Stage p subs done c c'
  linear : ∀ id ∈ acc.2, ∃ c', acc.1.storage.constraints[id]? = some c' ∧ c'.isLinear ∧
    c'.NoZeroCoeff
  shape : ∀ (id : ℕ) c', acc.1.storage.constraints[id]? = some c' →
    before[id]? = some c' ∨ id ∈ acc.2 ∨ NonConstantFactors c'

theorem lookup_replace {new : C} {id : ℕ} (h : (storage.replace cId new).constraints[id]? = some c) :
    id = cId ∧ c = new ∨ id ≠ cId ∧ storage.constraints[id]? = some c := by
  rw [ConstraintStorage.replace, List.getElem?_set] at h
  by_cases hid : cId = id
  · rw [if_pos hid] at h
    split_ifs at h
    exact Or.inl ⟨hid.symm, (Option.some.inj h).symm⟩
  · rw [if_neg hid] at h
    exact Or.inr ⟨Ne.symm hid, h⟩

section Storage

variable [hp : Fact p.Prime]

/-- One constraint is rewritten; it has the replaced signal no more. -/
theorem substituteInStorage_spec {done : List S} (hi : Independent subs) {s : S} (hs : s ∈ subs)
    (h : Processed p subs done before acc) (hid : cId < before.length) :
    ∃ acc', substituteInStorage s p acc cId = some acc' ∧ Processed p subs done before acc' ∧
      (∀ c, acc'.1.storage.constraints[cId]? = some c → ¬ c.Mentions s.fromSignal) ∧
      ∀ id, id ≠ cId → acc'.1.storage.constraints[id]? = acc.1.storage.constraints[id]? := by
  have hlt : cId < acc.1.storage.constraints.length := by rw [h.length_eq]; exact hid
  obtain ⟨old, hold⟩ : ∃ old, acc.1.storage.constraints[cId]? = some old :=
    ⟨_, List.getElem?_eq_getElem hlt⟩
  obtain ⟨new, hnew⟩ : ∃ new, (old.applySubstitution s p).fixConstraint p = new := ⟨_, rfl⟩
  have hrun : substituteInStorage s p acc cId = some
      (⟨acc.1.storage.replace cId new, s.toExpr.keys.foldl (pushConstraint cId) acc.1.map⟩,
        if new.isLinear then acc.2 ++ [cId] else acc.2) := by
    simp only [substituteInStorage, ConstraintStorage.readConstraint, hold, Option.bind_eq_bind,
      Option.bind_some, hnew]
  have hself : (acc.1.storage.replace cId new).constraints[cId]? = some new := by
    rw [ConstraintStorage.replace, List.getElem?_set_self hlt]
  have hne : ∀ id, id ≠ cId →
      (acc.1.storage.replace cId new).constraints[id]? = acc.1.storage.constraints[id]? := by
    intro id hid
    rw [ConstraintStorage.replace, List.getElem?_set_ne (Ne.symm hid)]
  have hlinearNew : old.isLinear → new.isLinear := by
    intro hlin
    rw [← hnew]
    exact ((BlankFactors.of_isLinear hlin).applySubstitution (hi.from_ne s hs) p).isLinear_fix p
  have hzero : new.NoZeroCoeff := by
    rw [← hnew]
    exact Constraint.noZeroCoeff_fixConstraint _ p
  refine ⟨_, hrun, ⟨?_, ⟨?_, ?_⟩, ?_, ?_, ?_⟩, ?_, hne⟩
  · simp only [ConstraintStorage.replace, List.length_set]
    exact h.length_eq
  · intro id c k hc hk hm
    rw [mem_ids_foldl]
    rcases lookup_replace hc with ⟨rfl, rfl⟩ | ⟨-, hc⟩
    · rw [← hnew] at hm
      rcases Constraint.mentions_fixConstraint hm with h0 | hm
      · exact absurd h0 hk
      · rcases Constraint.mentions_applySubstitution hm with h0 | ⟨hm, -⟩ | ⟨hks, -⟩
        · exact absurd h0 hk
        · exact Or.inl (h.indexed.covers id old k hold hk hm)
        · exact Or.inr ⟨AList.mem_keys.mp hks, rfl⟩
    · exact Or.inl (h.indexed.covers id c k hc hk hm)
  · intro id k hmem
    simp only [ConstraintStorage.replace, List.length_set]
    rcases mem_ids_foldl _ _ |>.mp hmem with hmem | ⟨-, rfl⟩
    · exact h.indexed.valid id k hmem
    · exact hlt
  · intro id c c' hc hc'
    rcases lookup_replace hc' with ⟨rfl, rfl⟩ | ⟨-, hc'⟩
    · rw [← hnew]
      exact ((h.stage id c old hc hold).apply hi hs).fix
    · exact h.stage id c c' hc hc'
  · intro id hmem
    have hcase : id = cId ∧ new.isLinear ∨ id ∈ acc.2 := by
      simp only at hmem
      split_ifs at hmem with hlin
      · rcases List.mem_append.mp hmem with hmem | hmem
        · exact Or.inr hmem
        · exact Or.inl ⟨List.mem_singleton.mp hmem, hlin⟩
      · exact Or.inr hmem
    by_cases heq : id = cId
    · subst heq
      refine ⟨new, hself, ?_, hzero⟩
      rcases hcase with ⟨-, hlin⟩ | hmem
      · exact hlin
      · obtain ⟨c', hc', hlin, -⟩ := h.linear id hmem
        rw [hold, Option.some.injEq] at hc'
        subst hc'
        exact hlinearNew hlin
    · obtain ⟨c', hc', hlin⟩ := h.linear id (hcase.resolve_left fun h => heq h.1)
      exact ⟨c', by rw [hne id heq]; exact hc', hlin⟩
  · intro id c' hc'
    have hsub : id ∈ acc.2 → id ∈ if new.isLinear then acc.2 ++ [cId] else acc.2 := by
      intro hmem
      split_ifs
      · exact List.mem_append_left _ hmem
      · exact hmem
    rcases lookup_replace hc' with ⟨rfl, rfl⟩ | ⟨-, hc'⟩
    · rcases isLinear_or_nonConstant_fix (old.applySubstitution s p) p with hlin | hfactors
      · rw [hnew] at hlin
        right
        left
        rw [if_pos hlin]
        exact List.mem_append_right _ (List.mem_singleton_self id)
      · rw [hnew] at hfactors
        exact Or.inr (Or.inr hfactors)
    · exact (h.shape id c' hc').imp_right (Or.imp_left hsub)
  · intro c hc
    rw [hself, Option.some.injEq] at hc
    rw [← hc, ← hnew]
    intro hm
    rcases Constraint.mentions_fixConstraint hm with h0 | hm
    · exact hi.from_ne s hs h0
    · exact Stage.notMentions_apply hi hs old hm

/-- One substitution is applied to all constraints that contain its signal. -/
theorem constraintProcessing_spec {done : List S} (hi : Independent subs) {s : S} (hs : s ∈ subs)
    (h : Processed p subs done before acc) :
    ∃ acc', constraintProcessing p acc s = some acc' ∧
      Processed p subs (done ++ [s]) before acc' := by
  have hskip : ∀ acc' : Mapped × List ℕ, Processed p subs done before acc' →
      (∀ (id : ℕ) c, acc'.1.storage.constraints[id]? = some c → ¬ c.Mentions s.fromSignal) →
      Processed p subs (done ++ [s]) before acc' := fun acc' h hnone =>
    ⟨h.length_eq, h.indexed, fun id c c' hc hc' => (h.stage id c c' hc hc').skip (hnone id c' hc'),
      h.linear, h.shape⟩
  have hcovers : ∀ (id : ℕ) c, acc.1.storage.constraints[id]? = some c → c.Mentions s.fromSignal →
      id ∈ acc.1.map.ids s.fromSignal := fun id c hc hm =>
    h.indexed.covers id c _ hc (hi.from_ne s hs) hm
  cases hl : acc.1.map.lookup s.fromSignal with
  | none =>
    refine ⟨acc, by simp only [constraintProcessing, hl], hskip acc h ?_⟩
    intro id c hc hm
    have := hcovers id c hc hm
    rw [SignalToConstraints.ids, hl] at this
    cases this
  | some cIds =>
    have hids : ∀ id, id ∈ acc.1.map.ids s.fromSignal ↔ id ∈ cIds := by
      intro id
      rw [SignalToConstraints.ids, hl, Option.getD_some]
    have hloop := foldlM_invariant (f := substituteInStorage s p)
      (fun (l : List ℕ) (acc' : Mapped × List ℕ) => ∃ treated, treated ++ l = cIds ∧
        Processed p subs done before acc' ∧
        (∀ id ∈ treated, ∀ c, acc'.1.storage.constraints[id]? = some c →
          ¬ c.Mentions s.fromSignal) ∧
        ∀ id, id ∉ treated →
          acc'.1.storage.constraints[id]? = acc.1.storage.constraints[id]?) ?_ (l := cIds) (s := acc) ?_
    · obtain ⟨acc', hrun, treated, htreated, hproc, hgone, hsame⟩ := hloop
      rw [List.append_nil] at htreated
      subst htreated
      refine ⟨acc', by simp only [constraintProcessing, hl]; exact hrun, hskip acc' hproc ?_⟩
      intro id c hc hm
      by_cases hid : id ∈ treated
      · exact hgone id hid c hc hm
      · rw [hsame id hid] at hc
        exact hid ((hids id).mp (hcovers id c hc hm))
    · rintro cId l acc' ⟨treated, htreated, hproc, hgone, hsame⟩
      have hlt : cId < before.length := by
        rw [← h.length_eq]
        refine h.indexed.valid cId s.fromSignal ((hids cId).mpr ?_)
        rw [← htreated]
        simp
      obtain ⟨acc'', hrun, hproc', hgone', hsame'⟩ := substituteInStorage_spec hi hs hproc hlt
      refine ⟨acc'', hrun, treated ++ [cId], by rw [List.append_assoc]; exact htreated, hproc', ?_, ?_⟩
      · intro id hid c hc
        by_cases heq : id = cId
        · subst heq
          exact hgone' c hc
        · rw [hsame' id heq] at hc
          rw [List.mem_append, List.mem_singleton] at hid
          exact hgone id (hid.resolve_right heq) c hc
      · intro id hid
        rw [List.mem_append, List.mem_singleton, not_or] at hid
        rw [hsame' id hid.2]
        exact hsame id hid.1
    · exact ⟨[], rfl, h, fun id hid => absurd hid List.not_mem_nil, fun _ _ => rfl⟩

end Storage

/-! ## Taking the linear constraints out -/

/-- The constraints of `before` after the ones of `linearId` have been taken out. -/
structure TakenOut (before : List C) (treated : List ℕ) (acc : ConstraintStorage × List C) :
    Prop where
  length_eq : acc.1.constraints.length = before.length
  gone : ∀ id ∈ treated, ∀ c, acc.1.constraints[id]? = some c → c = Constraint.empty
  same : ∀ id, id ∉ treated → acc.1.constraints[id]? = before[id]?
  origin : ∀ c ∈ acc.2, c = Constraint.empty ∨ ∃ id ∈ treated, before[id]? = some c
  taken : ∀ id ∈ treated, ∀ c, before[id]? = some c → c ∈ acc.2

theorem takeLinear_spec {treated : List ℕ} {acc : ConstraintStorage × List C} (h : TakenOut before treated acc)
    (hid : cId < before.length) : ∃ acc', takeLinear acc cId = some acc' ∧ TakenOut before (treated ++ [cId]) acc' := by
  have hlt : cId < acc.1.constraints.length := by rw [h.length_eq]; exact hid
  obtain ⟨old, hold⟩ : ∃ old, acc.1.constraints[cId]? = some old := ⟨_, List.getElem?_eq_getElem hlt⟩
  refine ⟨(acc.1.replace cId Constraint.empty, acc.2 ++ [old]), ?_, ?_, ?_, ?_, ?_, ?_⟩
  · simp only [takeLinear, ConstraintStorage.readConstraint, hold, Option.bind_eq_bind,
      Option.bind_some]
  · simp only [ConstraintStorage.replace, List.length_set]
    exact h.length_eq
  · intro id hmem c hc
    rcases lookup_replace hc with ⟨-, rfl⟩ | ⟨hne, hc⟩
    · rfl
    · rw [List.mem_append, List.mem_singleton] at hmem
      exact h.gone id (hmem.resolve_right hne) c hc
  · intro id hmem
    rw [List.mem_append, List.mem_singleton, not_or] at hmem
    simp only [ConstraintStorage.replace]
    rw [List.getElem?_set_ne (Ne.symm hmem.2)]
    exact h.same id hmem.1
  · intro c hc
    rcases List.mem_append.mp hc with hc | hc
    · rcases h.origin c hc with rfl | ⟨id, hmem, hid⟩
      · exact Or.inl rfl
      · exact Or.inr ⟨id, List.mem_append_left _ hmem, hid⟩
    · rw [List.mem_singleton] at hc
      subst hc
      by_cases hmem : cId ∈ treated
      · exact Or.inl (h.gone cId hmem c hold)
      · refine Or.inr ⟨cId, by simp, ?_⟩
        rw [← h.same cId hmem]
        exact hold
  · intro id hmem c hc
    rw [List.mem_append]
    by_cases htreated : id ∈ treated
    · exact Or.inl (h.taken id htreated c hc)
    · rw [List.mem_append, List.mem_singleton] at hmem
      obtain rfl := hmem.resolve_left htreated
      rw [← h.same id htreated, hold, Option.some.injEq] at hc
      exact Or.inr (List.mem_singleton.mpr hc.symm)

theorem takeLinear_foldlM {linearId : List ℕ} (h : ∀ id ∈ linearId, id < storage.constraints.length) :
    ∃ acc, linearId.foldlM takeLinear (storage, []) = some acc ∧
      TakenOut storage.constraints linearId acc := by
  have hloop := foldlM_invariant (f := takeLinear)
    (fun (l : List ℕ) acc => ∃ treated, treated ++ l = linearId ∧
      TakenOut storage.constraints treated acc) ?_ (l := linearId) (s := (storage, [])) ?_
  · obtain ⟨acc, hrun, treated, htreated, htaken⟩ := hloop
    rw [List.append_nil] at htreated
    subst htreated
    exact ⟨acc, hrun, htaken⟩
  · rintro id l acc ⟨treated, htreated, htaken⟩
    obtain ⟨acc', hrun, htaken'⟩ := takeLinear_spec htaken (h id (by rw [← htreated]; simp))
    exact ⟨acc', hrun, treated ++ [id], by rw [List.append_assoc]; exact htreated, htaken'⟩
  · exact ⟨[], rfl, rfl, fun id hid => absurd hid List.not_mem_nil, fun _ _ => rfl,
      fun c hc => absurd hc List.not_mem_nil, fun id hid => absurd hid List.not_mem_nil⟩

namespace TakenOut

variable {before : List C} {treated : List ℕ} {acc : ConstraintStorage × List C}

theorem mem_cases (h : TakenOut before treated acc) (hc : c ∈ acc.1.constraints ++ acc.2) :
    c = Constraint.empty ∨ c ∈ before := by
  rcases List.mem_append.mp hc with hc | hc
  · obtain ⟨id, hid⟩ := List.mem_iff_getElem?.mp hc
    by_cases hmem : id ∈ treated
    · exact Or.inl (h.gone id hmem c hid)
    · rw [h.same id hmem] at hid
      exact Or.inr (List.mem_of_getElem? hid)
  · rcases h.origin c hc with heq | ⟨id, -, hid⟩
    · exact Or.inl heq
    · exact Or.inr (List.mem_of_getElem? hid)

theorem mem_of_mem (h : TakenOut before treated acc) (hc : c ∈ before) : c ∈ acc.1.constraints ++ acc.2 := by
  obtain ⟨id, hid⟩ := List.mem_iff_getElem?.mp hc
  by_cases hmem : id ∈ treated
  · exact List.mem_append_right _ (h.taken id hmem c hid)
  · refine List.mem_append_left _ (List.mem_of_getElem? (i := id) ?_)
    rw [h.same id hmem]
    exact hid

theorem not_mentions_empty (k : ℕ) : ¬ (Constraint.empty : C).Mentions k := by
  rintro (h | h | h) <;> cases h

theorem occurs (h : TakenOut before treated acc) {k : ℕ}
    (hk : Occurs (acc.1.constraints ++ acc.2) k) : Occurs before k := by
  obtain ⟨c, hc, hm⟩ := hk
  rcases h.mem_cases hc with rfl | hc
  · exact absurd hm (not_mentions_empty k)
  · exact ⟨c, hc, hm⟩

theorem sat_iff (h : TakenOut before treated acc) (ρ : ℕ → ZMod p) :
    (∀ c ∈ acc.1.constraints ++ acc.2, c.Sat ρ) ↔ ∀ c ∈ before, c.Sat ρ := by
  constructor
  · intro hall c hc
    exact hall c (h.mem_of_mem hc)
  · intro hall c hc
    rcases h.mem_cases hc with rfl | hc
    · exact Constraint.sat_of_isEmpty rfl
    · exact hall c hc

end TakenOut

/-! ## Both together -/

theorem Processed.rewrites (h : Processed p subs subs before acc) :
    List.Forall₂ (Rewrites p subs) before acc.1.storage.constraints := by
  rw [List.forall₂_iff_get]
  refine ⟨h.length_eq.symm, ?_⟩
  intro i hi hi'
  exact (h.stage i _ _ (List.getElem?_eq_getElem hi) (List.getElem?_eq_getElem hi')).rewrites

theorem Processed.indexed_of_takenOut {state : Mapped} {linearId : List ℕ} {linear : List C}
    (h : Processed p subs subs before (state, linearId))
    (htaken : TakenOut state.storage.constraints linearId (storage, linear)) : Mapped.Indexed ⟨storage, state.map⟩ := by
  constructor
  · intro id c k hc hk hm
    by_cases hmem : id ∈ linearId
    · rw [htaken.gone id hmem c hc] at hm
      exact absurd hm (TakenOut.not_mentions_empty k)
    · rw [htaken.same id hmem] at hc
      exact h.indexed.covers id c k hc hk hm
  · intro id k hid
    have := h.indexed.valid id k hid
    have hlen := htaken.length_eq
    simp only at this hlen ⊢
    omega

section Apply

variable [hp : Fact p.Prime] {subs : List S} {mapped : Mapped}

/-- The states of the storage after the substitutions, and after the linear constraints are taken out. -/
theorem applySubstitutionToMap_eq (hi : Independent subs) (h : mapped.Indexed) :
    ∃ state linearId storage linear,
      applySubstitutionToMap mapped subs p = some (⟨storage, state.map⟩, linear) ∧
      Processed p subs subs mapped.storage.constraints (state, linearId) ∧
      TakenOut state.storage.constraints linearId (storage, linear) := by
  have hloop := foldlM_invariant (f := constraintProcessing p)
    (fun (l : List S) acc => ∃ done, done ++ l = subs ∧
      Processed p subs done mapped.storage.constraints acc) ?_ (l := subs) (s := (mapped, [])) ?_
  · obtain ⟨⟨state, linearId⟩, hrun, done, hdone, hproc⟩ := hloop
    rw [List.append_nil] at hdone
    subst hdone
    have hids : ∀ id ∈ linearId, id < state.storage.constraints.length := by
      intro id hid
      obtain ⟨c', hc', -⟩ := hproc.linear id hid
      exact (List.getElem?_eq_some_iff.mp hc').1
    obtain ⟨⟨storage, linear⟩, hrunTake, htaken⟩ := takeLinear_foldlM hids
    refine ⟨state, linearId, storage, linear, ?_, hproc, htaken⟩
    simp only [applySubstitutionToMap, hrun, hrunTake, Option.bind_eq_bind, Option.bind_some]
  · rintro s l acc ⟨done, hdone, hproc⟩
    obtain ⟨acc', hrun, hproc'⟩ := constraintProcessing_spec hi (s := s) (by rw [← hdone]; simp) hproc
    exact ⟨acc', hrun, done ++ [s], by rw [List.append_assoc]; exact hdone, hproc'⟩
  · refine ⟨[], rfl, rfl, h, ?_, fun id hid => absurd hid List.not_mem_nil, fun id c' hc' => Or.inl hc'⟩
    intro id c c' hc hc'
    obtain rfl : c = c' := Option.some.inj (hc.symm.trans hc')
    exact Stage.refl subs c

/-- After all substitutions the storage and the constraints taken out of it are the old storage,
rewritten. -/
theorem applySubstitutionToMap_spec (hi : Independent subs)
    (h : mapped.Indexed) (hcoeffs : ∀ c ∈ mapped.storage.constraints, c.CoeffsInField p) :
    ∃ mapped' linear rewritten, applySubstitutionToMap mapped subs p = some (mapped', linear) ∧
      List.Forall₂ (Rewrites p subs) mapped.storage.constraints rewritten ∧ mapped'.Indexed ∧
      (∀ c ∈ linear, c.Reduced p) ∧ (∀ c ∈ mapped'.storage.constraints, c.CoeffsInField p) ∧
      (∀ k, Occurs (mapped'.storage.constraints ++ linear) k → Occurs rewritten k) ∧
      ∀ ρ : ℕ → ZMod p,
        (∀ c ∈ mapped'.storage.constraints ++ linear, c.Sat ρ) ↔ ∀ c ∈ rewritten, c.Sat ρ := by
  obtain ⟨state, linearId, storage, linear, hrun, hproc, htaken⟩ :=
    applySubstitutionToMap_eq (p := p) hi h
  have hcoeffs' : ∀ c ∈ state.storage.constraints, c.CoeffsInField p := by
    intro c' hc'
    obtain ⟨c, hc, hrew⟩ := Lib.exists_of_forall₂_right hproc.rewrites hc'
    exact hrew.coeffs (hcoeffs c hc)
  refine ⟨⟨storage, state.map⟩, linear, state.storage.constraints, hrun, hproc.rewrites,
    hproc.indexed_of_takenOut htaken, ?_, ?_, fun k => htaken.occurs, htaken.sat_iff⟩
  · intro c hc
    rcases htaken.origin c hc with rfl | ⟨id, hid, hget⟩
    · exact ⟨rfl, ⟨Constraint.coeffsInField_empty _, Constraint.coeffsInField_empty _,
        Constraint.coeffsInField_empty _⟩, Constraint.noZeroCoeff_empty,
        Constraint.noZeroCoeff_empty, Constraint.noZeroCoeff_empty⟩
    · obtain ⟨c', hc', hlin, hzero⟩ := hproc.linear id hid
      obtain rfl : c = c' := Option.some.inj (hget.symm.trans hc')
      exact ⟨hlin, hcoeffs' c (List.mem_of_getElem? hget), hzero⟩
  · intro c hc
    rcases htaken.mem_cases (List.mem_append_left _ hc) with rfl | hc
    · exact ⟨Constraint.coeffsInField_empty _, Constraint.coeffsInField_empty _,
        Constraint.coeffsInField_empty _⟩
    · exact hcoeffs' c hc

/-- The replaced signals are gone, the map still lists at least all constraints of each signal, no equation
is lost, and a constraint in the storage is unchanged, or empty, or has two factors with signals. -/
theorem applySubstitutionToMap_rewrites (hi : Independent subs) (h : mapped.Indexed) :
    ∃ mapped' linear, applySubstitutionToMap mapped subs p = some (mapped', linear) ∧
      (∀ c ∈ mapped'.storage.constraints, ∀ s ∈ subs, ¬ c.Mentions s.fromSignal) ∧
      mapped'.Indexed ∧
      (∀ ρ : ℕ → ZMod p, ρ 0 = 1 → (∀ s ∈ subs, s.Holds ρ) →
        ((∀ c ∈ mapped.storage.constraints, c.Sat ρ) ↔
          (∀ c ∈ mapped'.storage.constraints, c.Sat ρ) ∧ ∀ c ∈ linear, c.Sat ρ)) ∧
      ∀ (id : ℕ) c, mapped'.storage.constraints[id]? = some c →
        mapped.storage.constraints[id]? = some c ∨ c.isEmpty ∨ NonConstantFactors c := by
  obtain ⟨state, linearId, storage, linear, hrun, hproc, htaken⟩ :=
    applySubstitutionToMap_eq (p := p) hi h
  refine ⟨⟨storage, state.map⟩, linear, hrun, ?_, hproc.indexed_of_takenOut htaken, ?_, ?_⟩
  · intro c hc s hs hm
    rcases htaken.mem_cases (List.mem_append_left _ hc) with rfl | hc
    · exact TakenOut.not_mentions_empty _ hm
    · obtain ⟨d, -, hrew⟩ := Lib.exists_of_forall₂_right hproc.rewrites hc
      rcases hrew.mentions _ hm with h0 | ⟨-, hnot⟩ | ⟨t, ht, -, hmem⟩
      · exact hi.from_ne s hs h0
      · exact hnot (mem_replaced.mpr ⟨s, hs, rfl⟩)
      · exact hi.free s hs t ht hmem
  · intro ρ h1 hholds
    rw [← List.forall_mem_append, htaken.sat_iff]
    constructor
    · intro hall c' hc'
      obtain ⟨c, hc, hrew⟩ := Lib.exists_of_forall₂_right hproc.rewrites hc'
      exact (hrew.sat_iff ρ h1 hholds).mpr (hall c hc)
    · intro hall c hc
      obtain ⟨c', hc', hrew⟩ := Lib.exists_of_forall₂_left hproc.rewrites hc
      exact (hrew.sat_iff ρ h1 hholds).mp (hall c' hc')
  · intro id c hc
    by_cases hmem : id ∈ linearId
    · rw [htaken.gone id hmem c hc]
      exact Or.inr (Or.inl rfl)
    · rw [htaken.same id hmem] at hc
      exact (hproc.shape id c hc).imp_right fun hcase => Or.inr (hcase.resolve_left hmem)

/-- `x1 * x2 = x3` with `x3 = 2 * x2` over the field with five elements. -/
theorem applySubstitutionToMap_rewrites_five :
    let storage : ConstraintStorage :=
      ⟨[⟨AList.ofPairs [(1, 1)], AList.ofPairs [(2, 1)], AList.ofPairs [(3, 1)]⟩]⟩
    let subs : List S := [⟨3, AList.ofPairs [(2, 2)]⟩]
    ∃ map mapped' linear, buildNonLinearSignalMap storage = some map ∧
      applySubstitutionToMap ⟨storage, map⟩ subs 5 = some (mapped', linear) ∧
      ∀ c ∈ mapped'.storage.constraints, ∀ s ∈ subs, ¬ c.Mentions s.fromSignal := by
  intro storage subs
  have : Fact (Nat.Prime 5) := ⟨by norm_num⟩
  obtain ⟨map, hmap, hindexed⟩ := buildNonLinearSignalMap_spec storage
  obtain ⟨mapped', linear, hrun, hgone, -⟩ :=
    @applySubstitutionToMap_rewrites 5 _ subs _ ⟨by decide, by decide⟩ hindexed
  exact ⟨map, mapped', linear, hmap, hrun, hgone⟩

end Apply

/-- A linear constraint that is in the storage before stays there when no substitution concerns it; and an
entry of the map for a constraint that does not exist is a panic. -/
theorem applySubstitutionToMap_keeps_linear :
    let storage : ConstraintStorage := ⟨[⟨∅, ∅, AList.ofPairs [(1, 1)]⟩]⟩
    let noConstraint : Mapped := ⟨⟨[]⟩, AList.ofPairs [(1, [0])]⟩
    (∃ map mapped' linear, buildNonLinearSignalMap storage = some map ∧
      applySubstitutionToMap ⟨storage, map⟩ [] 5 = some (mapped', linear) ∧
      ∃ c ∈ mapped'.storage.constraints, ¬ c.isEmpty ∧ ¬ NonConstantFactors c) ∧
    applySubstitutionToMap noConstraint [⟨1, AList.ofPairs [(2, 1)]⟩] 5 = none := by
  intro storage noConstraint
  obtain ⟨map, hmap, -⟩ := buildNonLinearSignalMap_spec storage
  refine ⟨⟨map, ⟨storage, map⟩, [], hmap, rfl, _, List.mem_cons_self, by decide, ?_⟩, by decide⟩
  rintro ⟨⟨k, hk, -⟩, -⟩
  exact absurd hk (AList.notMem_empty k)

end Circom.ConstraintList
