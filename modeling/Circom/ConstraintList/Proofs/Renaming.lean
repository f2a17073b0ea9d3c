import Circom.ConstraintList.Proofs.EqualityClusters

/-!
# Renaming along equalities

The substitutions of the phase of equalities rename signals. Two signals get the same name exactly if a
chain of equalities connects them, unless the chain leads to a forbidden signal.
-/

namespace Circom.ConstraintList

open Circom.Algebra (Constraint)
open Circom.Algebra.SimplificationUtils (find_fromSignal replaced mem_replaced)
open Circom.Lib (HashMap)
open Relation (ReflTransGen)

variable {p : ℕ} {forbidden : Finset ℕ}
variable {cons : List C} {subs : List S} {k s t : ℕ}

/-- The name of a signal after the substitutions. -/
def renameBy (subs : List S) (k : ℕ) : ℕ :=
  match subs.find? fun s => s.fromSignal = k with
  | some s => s.toExpr.keys.headD k
  | none => k

/-- The substitutions are renamings, one for each signal, to signals that keep their name. -/
structure Renames (subs : List S) : Prop where
  nodup : (subs.map fun s => s.fromSignal).Nodup
  free : ∀ s ∈ subs, ∀ t ∈ subs, s.fromSignal ∉ t.toExpr
  isRenaming : ∀ s ∈ subs, ∃ r, IsRenaming s r

theorem renameBy_of_notMem (hk : k ∉ replaced subs) : renameBy subs k = k := by
  have hnone : subs.find? (fun s => s.fromSignal = k) = none := by
    rw [List.find?_eq_none]
    intro s hs heq
    exact hk (mem_replaced.mpr ⟨s, hs, of_decide_eq_true heq⟩)
  simp only [renameBy, hnone]

namespace Renames

variable {subs : List S}

theorem renameBy_of_mem (h : Renames subs) {s : S} (hs : s ∈ subs) :
    IsRenaming s (renameBy subs s.fromSignal) := by
  obtain ⟨r, hr⟩ := h.isRenaming s hs
  have hkeys : s.toExpr.keys = [r] := by
    rw [hr.2]
    rfl
  have hname : renameBy subs s.fromSignal = r := by
    simp only [renameBy, find_fromSignal h.nodup hs, hkeys, List.headD_cons]
  rw [hname]
  exact hr

/-- Every signal has a substitution or keeps its name. -/
theorem cases (h : Renames subs) (k : ℕ) : (k ∉ replaced subs ∧ renameBy subs k = k) ∨
    ∃ s ∈ subs, s.fromSignal = k ∧ IsRenaming s (renameBy subs k) := by
  by_cases hk : k ∈ replaced subs
  · obtain ⟨s, hs, rfl⟩ := mem_replaced.mp hk
    exact Or.inr ⟨s, hs, rfl, h.renameBy_of_mem hs⟩
  · exact Or.inl ⟨hk, renameBy_of_notMem hk⟩

theorem renameBy_notMem (h : Renames subs) (k : ℕ) : renameBy subs k ∉ replaced subs := by
  rcases h.cases k with ⟨hk, heq⟩ | ⟨s, hs, rfl, hren⟩
  · rw [heq]
    exact hk
  · intro hmem
    obtain ⟨t, ht, heq⟩ := mem_replaced.mp hmem
    refine h.free t ht s hs ?_
    rw [hren.mem_iff]
    exact heq

theorem renameBy_renameBy (h : Renames subs) (k : ℕ) :
    renameBy subs (renameBy subs k) = renameBy subs k :=
  renameBy_of_notMem (h.renameBy_notMem k)

theorem renameBy_ne_zero (h : Renames subs) (hk : k ≠ 0) : renameBy subs k ≠ 0 := by
  rcases h.cases k with ⟨-, heq⟩ | ⟨s, -, -, hren⟩
  · rw [heq]
    exact hk
  · exact hren.1

theorem holds_iff (h : Renames subs) (ρ : ℕ → ZMod p) :
    (∀ s ∈ subs, s.Holds ρ) ↔ ∀ k, ρ k = ρ (renameBy subs k) := by
  constructor
  · intro hsubs k
    rcases h.cases k with ⟨-, heq⟩ | ⟨s, hs, rfl, hren⟩
    · rw [heq]
    · exact (hren.holds_iff ρ).mp (hsubs s hs)
  · intro hall s hs
    rw [(h.renameBy_of_mem hs).holds_iff]
    exact hall _

end Renames

theorem Eliminates.renames {before : List C} (h : Eliminates p forbidden before subs cons)
    (hren : ∀ s ∈ subs, ∃ r, IsRenaming s r) :
    Renames subs := ⟨h.nodup, h.free, hren⟩

/-! ## Chains of equalities -/

/-- Two signals of one equality. -/
def Equated (equalities : List C) (s t : ℕ) : Prop :=
  ∃ c ∈ equalities, s ∈ c.takeClonedSignals ∧ t ∈ c.takeClonedSignals

/-- A chain of equalities connects the signals. -/
def Connected (equalities : List C) : ℕ → ℕ → Prop := ReflTransGen (Equated equalities)

theorem Connected.ne_zero {equalities : List C} (h : Connected equalities s t) (hs : s ≠ 0) : t ≠ 0 := by
  cases h with
  | refl => exact hs
  | tail _ hstep =>
    obtain ⟨c, -, -, ht⟩ := hstep
    exact (Constraint.mem_takeClonedSignals.mp ht).1

/-! ## Indicators -/

open Classical in
/-- The assignment that is one on a set of signals and zero on the others. -/
noncomputable def indicator (p : ℕ) (P : ℕ → Prop) (k : ℕ) : ZMod p :=
  if k = 0 then 1 else if P k then 1 else 0

@[simp] theorem indicator_zero (P : ℕ → Prop) : indicator p P 0 = 1 := by
  rw [indicator, if_pos rfl]

theorem indicator_congr {P Q : ℕ → Prop} {l : ℕ} (hk : k = 0 ↔ l = 0) (h : P k ↔ Q l) :
    indicator p P k = indicator p Q l := by
  unfold indicator
  by_cases h0 : l = 0
  · rw [if_pos h0, if_pos (hk.mpr h0)]
  · rw [if_neg h0, if_neg fun h => h0 (hk.mp h)]
    by_cases hQ : Q l
    · rw [if_pos hQ, if_pos (h.mpr hQ)]
    · rw [if_neg hQ, if_neg fun hP => hQ (h.mp hP)]

/-! ## What the equalities say -/

variable [hp : Fact p.Prime] {equalities : List C}

theorem sat_iff_of_equated (heq : ∀ c ∈ equalities, c.isEquality p ∧ c.NonzeroCoeffs p)
    (ρ : ℕ → ZMod p) :
    (∀ c ∈ equalities, c.Sat ρ) ↔ ∀ s t, Equated equalities s t → ρ s = ρ t := by
  constructor
  · rintro hsat s t ⟨c, hc, hs, ht⟩
    exact equal_of_linked heq hsat hc .refl (Finset.mem_ascending.mpr hs)
      (Finset.mem_ascending.mpr ht)
  · intro hall c hc
    obtain ⟨x, y, hxy, -, -, -, -, hiff⟩ := ordered_of_isEquality (heq c hc).1 (heq c hc).2
    refine (hiff ρ).mpr (hall x y ⟨c, hc, ?_, ?_⟩)
    · exact Finset.mem_ascending.mp (show x ∈ c.takeClonedSignalsOrdered by simp [hxy])
    · exact Finset.mem_ascending.mp (show y ∈ c.takeClonedSignalsOrdered by simp [hxy])

theorem eq_of_connected (heq : ∀ c ∈ equalities, c.isEquality p ∧ c.NonzeroCoeffs p) {ρ : ℕ → ZMod p}
    (hsat : ∀ c ∈ equalities, c.Sat ρ) (h : Connected equalities s t) : ρ s = ρ t := by
  induction h with
  | refl => rfl
  | tail _ hstep ih => exact ih.trans ((sat_iff_of_equated heq ρ).mp hsat _ _ hstep)

theorem indicator_eq_one {P : ℕ → Prop} (hk : k ≠ 0) : indicator p P k = 1 ↔ P k := by
  rw [indicator, if_neg hk]
  by_cases h : P k <;> simp [h]

/-- The indicator of a chain satisfies the equalities. -/
theorem sat_connected (heq : ∀ c ∈ equalities, c.isEquality p ∧ c.NonzeroCoeffs p) (s : ℕ) :
    ∀ c ∈ equalities, c.Sat (indicator p (Connected equalities s)) := by
  rw [sat_iff_of_equated heq]
  rintro x y ⟨c, hc, hx, hy⟩
  refine indicator_congr ?_ ?_
  · exact iff_of_false (Constraint.mem_takeClonedSignals.mp hx).1
      (Constraint.mem_takeClonedSignals.mp hy).1
  · exact ⟨fun h => ReflTransGen.tail h ⟨c, hc, hx, hy⟩, fun h => ReflTransGen.tail h ⟨c, hc, hy, hx⟩⟩

/-- Signals with the same name are connected. -/
theorem connected_of_renameBy_eq (heq : ∀ c ∈ equalities, c.isEquality p ∧ c.NonzeroCoeffs p)
    (helim : Eliminates p forbidden equalities subs cons) (hren : Renames subs) (hs : s ≠ 0) (ht : t ≠ 0)
    (hname : renameBy subs s = renameBy subs t) : Connected equalities s t := by
  have hsubs := ((helim.sat_iff _ (indicator_zero _)).mpr (sat_connected heq s)).1
  rw [hren.holds_iff] at hsubs
  have hone : indicator p (Connected equalities s) s = 1 := (indicator_eq_one hs).mpr .refl
  rw [hsubs s, hname, ← hsubs t] at hone
  exact (indicator_eq_one ht).mp hone

/-- Connected signals have the same name when it is not forbidden. -/
theorem renameBy_eq_of_connected (heq : ∀ c ∈ equalities, c.isEquality p ∧ c.NonzeroCoeffs p)
    (helim : Eliminates p forbidden equalities subs cons) (hren : Renames subs) (h0 : 0 ∈ forbidden) (hs : s ≠ 0)
    (hname : renameBy subs s ∉ forbidden) (h : Connected equalities s t) : renameBy subs t = renameBy subs s := by
  have hnotMem : ∀ k ∈ forbidden, k ∉ replaced subs := by
    intro k hk hmem
    obtain ⟨u, hu, rfl⟩ := mem_replaced.mp hmem
    exact helim.takeable u hu hk
  have hzero : renameBy subs 0 = 0 := renameBy_of_notMem (hnotMem 0 h0)
  let ρ : ℕ → ZMod p := indicator p fun k => renameBy subs k = renameBy subs s
  have hsubs : ∀ u ∈ subs, u.Holds ρ := by
    rw [hren.holds_iff]
    intro k
    refine indicator_congr ?_ (by rw [hren.renameBy_renameBy])
    constructor
    · rintro rfl
      exact hzero
    · intro hk
      by_contra hne
      exact hren.renameBy_ne_zero hne hk
  -- on the forbidden signals `ρ` is the assignment that is zero everywhere
  have hcons : ∀ c ∈ cons, c.Sat ρ := by
    have hall : ∀ c ∈ equalities, c.Sat (indicator p fun _ => False) := by
      rw [sat_iff_of_equated heq]
      rintro x y ⟨c, -, hx, hy⟩
      exact indicator_congr (iff_of_false (Constraint.mem_takeClonedSignals.mp hx).1
        (Constraint.mem_takeClonedSignals.mp hy).1) Iff.rfl
    intro c hc
    refine (Constraint.sat_congr ?_).mp
      (((helim.sat_iff _ (indicator_zero _)).mpr hall).2 c hc)
    intro k hk
    have hkf := helim.rest c hc k hk
    refine indicator_congr Iff.rfl (iff_of_false id ?_)
    intro hks
    rw [renameBy_of_notMem (hnotMem k hkf)] at hks
    exact hname (hks ▸ hkf)
  have hsat := (helim.sat_iff ρ (indicator_zero _)).mp ⟨hsubs, hcons⟩
  have hone : ρ s = 1 := (indicator_eq_one hs).mpr rfl
  rw [eq_of_connected heq hsat h] at hone
  exact (indicator_eq_one (h.ne_zero hs)).mp hone

/-- The name of a signal is forbidden exactly if the signal is connected with a forbidden one. -/
theorem renameBy_mem_iff (heq : ∀ c ∈ equalities, c.isEquality p ∧ c.NonzeroCoeffs p)
    (helim : Eliminates p forbidden equalities subs cons) (hren : Renames subs) (h0 : 0 ∈ forbidden) (hs : s ≠ 0) :
    renameBy subs s ∈ forbidden ↔ ∃ f ∈ forbidden, Connected equalities s f := by
  constructor
  · intro hmem
    exact ⟨renameBy subs s, hmem, connected_of_renameBy_eq heq helim hren hs
      (hren.renameBy_ne_zero hs) (hren.renameBy_renameBy s).symm⟩
  · rintro ⟨f, hf, hconn⟩
    by_contra hname
    have hfs := renameBy_eq_of_connected heq helim hren h0 hs hname hconn
    have hfname : renameBy subs f = f := by
      refine renameBy_of_notMem ?_
      intro hmem
      obtain ⟨u, hu, rfl⟩ := mem_replaced.mp hmem
      exact helim.takeable u hu hf
    rw [hfname] at hfs
    exact hname (hfs ▸ hf)

end Circom.ConstraintList
