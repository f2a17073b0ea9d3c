import Circom.Algebra.Proofs.Equalities
import Circom.ConstraintList.Proofs.Components
import Circom.ConstraintList.Proofs.Eliminations
import Mathlib.Order.Bounds.Basic

/-!
# Clusters of equalities

In a cluster of equalities all signals have one value. One of them represents the others: those that are
not forbidden are renamed to it, and each further forbidden one is left with an equality.
-/

namespace Circom.ConstraintList

open Circom.Algebra (Constraint constantCoefficient initializeHashmapForExpression)
open Circom.Algebra.ArithmeticExpression (singleSymbol)
open Circom.Lib (HashMap HashOrder exists_mapM exists_of_forall₂_left exists_of_forall₂_right)
open Relation (ReflTransGen)

variable {p : ℕ} {forbidden signals : Finset ℕ}
variable {c : C} {constraints : List C} {r s : ℕ}

/-- The substitution replaces a signal by another one. -/
def IsRenaming (s : S) (r : ℕ) : Prop := r ≠ 0 ∧ s.toExpr = (∅ : HashMap ℕ ℤ).insert r 1

theorem IsRenaming.mem_iff {s : S} {k : ℕ} (h : IsRenaming s r) : k ∈ s.toExpr ↔ k = r := by
  rw [h.2, AList.mem_insert]
  exact or_iff_left (by simp)

theorem IsRenaming.holds_iff {s : S} (h : IsRenaming s r) (ρ : ℕ → ZMod p) : s.Holds ρ ↔ ρ s.fromSignal = ρ r := by
  rw [Algebra.Substitution.Holds, h.2, AList.eval_insert_sub]
  simp [AList.lookup_empty]

theorem new_signal (s r : ℕ) :
    Algebra.Substitution.new s (.signal r) = some ⟨s, (∅ : HashMap ℕ ℤ).insert r 1⟩ := rfl

/-! ## The representative of a cluster -/

/-- The smallest forbidden signal, or the smallest signal if none is forbidden. -/
structure IsRepresentative (forbidden signals : Finset ℕ) (r : ℕ) : Prop where
  mem : r ∈ signals
  of_forbidden : ∀ s ∈ signals, s ∈ forbidden → r ∈ forbidden ∧ r ≤ s
  of_not_forbidden : r ∉ forbidden → ∀ s ∈ signals, r ≤ s

theorem IsRepresentative.unique {r' : ℕ} (h : IsRepresentative forbidden signals r)
    (h' : IsRepresentative forbidden signals r') : r = r' := by
  by_cases hr : r ∈ forbidden
  · obtain ⟨hr', hle⟩ := h'.of_forbidden r h.mem hr
    exact le_antisymm (h.of_forbidden r' h'.mem hr').2 hle
  · have hr' : r' ∉ forbidden := fun hr' => hr (h.of_forbidden r' h'.mem hr').1
    exact le_antisymm (h.of_not_forbidden hr r' h'.mem) (h'.of_not_forbidden hr' r h.mem)

/-- The smallest element, if there is one. -/
def Smallest (smallest : Option ℕ) (set : Finset ℕ) : Prop :=
  match smallest with
  | none => set = ∅
  | some m => IsLeast (set : Set ℕ) m

theorem Smallest.insert {smallest : Option ℕ} {set : Finset ℕ} (h : Smallest smallest set) (a : ℕ) :
    Smallest (some (smallest.elim a fun s => min s a)) (insert a set) := by
  simp only [Smallest, Finset.coe_insert]
  cases smallest with
  | none =>
    rw [show set = ∅ from h, Finset.coe_empty, insert_empty_eq]
    exact isLeast_singleton
  | some m =>
    rw [Option.elim_some, min_comm]
    exact IsLeast.insert a h

/-- The fields after the signals in `pushed`. -/
structure Pushed (forbidden : Finset ℕ) (pushed : List ℕ) (signals : EqSignals) : Prop where
  remains_iff : ∀ s, s ∈ signals.remains ↔ s ∈ pushed ∧ s ∈ forbidden
  remove_iff : ∀ s, s ∈ signals.remove ↔ s ∈ pushed ∧ s ∉ forbidden
  minRemains : Smallest signals.minRemains signals.remains
  minRemove : Smallest signals.minRemove signals.remove

theorem Pushed.push {pushed : List ℕ} {signals : EqSignals} (h : Pushed forbidden pushed signals)
    (signal : ℕ) : Pushed forbidden (pushed ++ [signal]) (signals.push forbidden signal) := by
  have hmem : ∀ s, s ∈ pushed ++ [signal] ↔ s = signal ∨ s ∈ pushed := by
    intro s
    rw [List.mem_append, List.mem_singleton, or_comm]
  unfold EqSignals.push
  by_cases hf : signal ∈ forbidden
  · rw [if_pos hf]
    refine ⟨?_, ?_, h.minRemains.insert signal, h.minRemove⟩
    · intro s
      rw [Finset.mem_insert, h.remains_iff, hmem, or_and_right]
      refine or_congr_left (and_iff_left_of_imp ?_).symm
      rintro rfl
      exact hf
    · intro s
      rw [h.remove_iff, hmem, or_and_right]
      refine (or_iff_right ?_).symm
      rintro ⟨rfl, hs⟩
      exact hs hf
  · rw [if_neg hf]
    refine ⟨?_, ?_, h.minRemains, h.minRemove.insert signal⟩
    · intro s
      rw [h.remains_iff, hmem, or_and_right]
      refine (or_iff_right ?_).symm
      rintro ⟨rfl, hs⟩
      exact hf hs
    · intro s
      rw [Finset.mem_insert, h.remove_iff, hmem, or_and_right]
      refine or_congr_left (and_iff_left_of_imp ?_).symm
      rintro rfl
      exact hf

theorem pushed_foldl (forbidden : Finset ℕ) (l : List ℕ) :
    Pushed forbidden l (l.foldl (EqSignals.push forbidden) {}) := by
  induction l using List.reverseRecOn with
  | nil => exact ⟨by simp, by simp, rfl, rfl⟩
  | append_singleton l signal ih =>
    rw [List.foldl_concat]
    exact ih.push signal

theorem takeRhSignal_spec {l : List ℕ} {pushed : EqSignals} (hmem : ∀ s, s ∈ l ↔ s ∈ signals)
    (hne : signals.Nonempty) (h : Pushed forbidden l pushed) :
    ∃ r remains remove, pushed.takeRhSignal = some (r, remains, remove) ∧
      IsRepresentative forbidden signals r ∧
      (∀ s, s ∈ remains ↔ s ∈ signals ∧ s ∈ forbidden ∧ s ≠ r) ∧
      ∀ s, s ∈ remove ↔ s ∈ signals ∧ s ∉ forbidden ∧ s ≠ r := by
  have hremains : ∀ s, s ∈ pushed.remains ↔ s ∈ signals ∧ s ∈ forbidden := by
    intro s
    rw [h.remains_iff, hmem]
  have hremove : ∀ s, s ∈ pushed.remove ↔ s ∈ signals ∧ s ∉ forbidden := by
    intro s
    rw [h.remove_iff, hmem]
  have hminRemains := h.minRemains
  have hminRemove := h.minRemove
  cases hmin : pushed.minRemains with
  | some r =>
    rw [hmin] at hminRemains
    obtain ⟨hr, hle⟩ := hminRemains
    obtain ⟨hrs, hrf⟩ := (hremains r).mp hr
    refine ⟨r, pushed.remains.erase r, pushed.remove, ?_, ⟨hrs, ?_, ?_⟩, ?_, ?_⟩
    · simp only [EqSignals.takeRhSignal, hmin]
    · intro s hs hsf
      exact ⟨hrf, hle ((hremains s).mpr ⟨hs, hsf⟩)⟩
    · intro hrf'
      exact absurd hrf hrf'
    · intro s
      rw [Finset.mem_erase, hremains, and_comm, and_assoc]
    · intro s
      rw [hremove]
      refine and_congr_right fun _ => (and_iff_left_of_imp ?_).symm
      rintro hs rfl
      exact hs hrf
  | none =>
    rw [hmin] at hminRemains
    -- without a forbidden signal, all signals are in `remove`
    have hfree : ∀ s ∈ signals, s ∉ forbidden := by
      intro s hs hsf
      have := (hremains s).mpr ⟨hs, hsf⟩
      rw [show pushed.remains = ∅ from hminRemains] at this
      exact Finset.notMem_empty s this
    cases hmin' : pushed.minRemove with
    | none =>
      rw [hmin'] at hminRemove
      obtain ⟨s, hs⟩ := hne
      have := (hremove s).mpr ⟨hs, hfree s hs⟩
      rw [show pushed.remove = ∅ from hminRemove] at this
      exact absurd this (Finset.notMem_empty s)
    | some r =>
      rw [hmin'] at hminRemove
      obtain ⟨hr, hle⟩ := hminRemove
      obtain ⟨hrs, -⟩ := (hremove r).mp hr
      refine ⟨r, pushed.remains, pushed.remove.erase r, ?_, ⟨hrs, ?_, ?_⟩, ?_, ?_⟩
      · simp only [EqSignals.takeRhSignal, hmin, hmin', Option.bind_eq_bind, Option.bind_some]
      · intro s hs hsf
        exact absurd hsf (hfree s hs)
      · intro _ s hs
        exact hle ((hremove s).mpr ⟨hs, hfree s hs⟩)
      · intro s
        rw [hremains]
        refine and_congr_right fun hs => (and_iff_left_of_imp ?_).symm
        intro hsf
        exact absurd hsf (hfree s hs)
      · intro s
        rw [Finset.mem_erase, hremove, and_comm, and_assoc]

/-! ## The constraint that is left for two forbidden signals -/

theorem equate_spec [NeZero p] (s r : ℕ) :
    ∃ c : C, (do
        let expr ← Algebra.ArithmeticExpression.sub (.signal s) (.signal r) p
        Algebra.ArithmeticExpression.transformExpressionToConstraintForm expr p) = some c ∧
      (∀ k, c.Mentions k → k = 0 ∨ k = s ∨ k = r) ∧
      ∀ ρ : ℕ → ZMod p, c.Sat ρ ↔ ρ s = ρ r := by
  refine ⟨⟨initializeHashmapForExpression ∅, initializeHashmapForExpression ∅,
    Algebra.multiplyCoefficientsByConstant (-1)
      (Algebra.addSymbolToCoefficients s 1 (singleSymbol r (-1) p) p) p⟩, rfl, ?_, ?_⟩
  · intro k hk
    have hz : k ∈ (initializeHashmapForExpression ∅ : HashMap ℕ ℤ) → k = 0 := by
      intro hk
      rcases Algebra.mem_initialized.mp hk with h | h
      · exact h
      · cases h
    rcases hk with hk | hk | hk
    · exact Or.inl (hz hk)
    · exact Or.inl (hz hk)
    · rw [Algebra.multiplyCoefficientsByConstant, AList.mem_mapValues, Algebra.mem_addSymbol,
        singleSymbol, Algebra.mem_addSymbol] at hk
      rcases hk with rfl | rfl | hk
      · exact Or.inr (Or.inl rfl)
      · exact Or.inr (Or.inr rfl)
      · exact Or.inl (hz hk)
  · intro ρ
    have hz : (initializeHashmapForExpression ∅ : HashMap ℕ ℤ).eval ρ = 0 := by
      rw [Algebra.eval_initialized, AList.eval_empty]
    simp only [Constraint.Sat, Algebra.eval_multiplyCoefficients, singleSymbol,
      Algebra.eval_addSymbol, hz]
    push_cast
    constructor
    · intro h
      linear_combination h
    · intro h
      linear_combination h

/-! ## Solved clusters -/

/-- The signals of a cluster are renamed to `r`, or equal to it by a constraint that is left. -/
structure Solution (p : ℕ) (forbidden signals : Finset ℕ) (r : ℕ) (subs : List S) (cons : List C) :
    Prop where
  representative : IsRepresentative forbidden signals r
  nodup : (subs.map fun s => s.fromSignal).Nodup
  mem_subs : ∀ t, t ∈ subs ↔ (t.fromSignal ∈ signals ∧ t.fromSignal ∉ forbidden ∧ t.fromSignal ≠ r) ∧
    t.toExpr = (∅ : HashMap ℕ ℤ).insert r 1
  equates : ∀ c ∈ cons, ∃ s ∈ signals, (s ∈ forbidden ∧ s ≠ r) ∧
    (∀ k, c.Mentions k → k = 0 ∨ k = s ∨ k = r) ∧ ∀ ρ : ℕ → ZMod p, c.Sat ρ ↔ ρ s = ρ r
  equated : ∀ s ∈ signals, s ∈ forbidden → s ≠ r →
    ∃ c ∈ cons, ∀ ρ : ℕ → ZMod p, c.Sat ρ ↔ ρ s = ρ r

namespace Solution

variable {r : ℕ} {subs : List S} {cons : List C}

theorem isRenaming (h : Solution p forbidden signals r subs cons) (hr : r ≠ 0) {t : S} (ht : t ∈ subs) :
    IsRenaming t r := ⟨hr, ((h.mem_subs t).mp ht).2⟩

/-- The solution says that all signals are equal. -/
theorem holds_iff (h : Solution p forbidden signals r subs cons) (hr : r ≠ 0) (ρ : ℕ → ZMod p) :
    (∀ t ∈ subs, t.Holds ρ) ∧ (∀ c ∈ cons, c.Sat ρ) ↔ ∀ s ∈ signals, ρ s = ρ r := by
  constructor
  · rintro ⟨hsubs, hcons⟩ s hs
    by_cases heq : s = r
    · rw [heq]
    by_cases hsf : s ∈ forbidden
    · obtain ⟨c, hc, hiff⟩ := h.equated s hs hsf heq
      exact (hiff ρ).mp (hcons c hc)
    · have hmem := (h.mem_subs ⟨s, (∅ : HashMap ℕ ℤ).insert r 1⟩).mpr ⟨⟨hs, hsf, heq⟩, rfl⟩
      exact ((h.isRenaming hr hmem).holds_iff ρ).mp (hsubs _ hmem)
  · intro hval
    constructor
    · intro t ht
      rw [(h.isRenaming hr ht).holds_iff]
      exact hval _ ((h.mem_subs t).mp ht).1.1
    · intro c hc
      obtain ⟨s, hs, -, -, hiff⟩ := h.equates c hc
      exact (hiff ρ).mpr (hval s hs)

end Solution

/-- An equality of two signals, one of which represents the other. -/
theorem solution_pair {x y l : ℕ} (hpair : ({x, y} : Finset ℕ) = {l, r}) (hne : l ≠ r) (hl : l ∉ forbidden)
    (hr : IsRepresentative forbidden {x, y} r) :
    Solution p forbidden {x, y} r [⟨l, (∅ : HashMap ℕ ℤ).insert r 1⟩] [] := by
  refine ⟨hr, List.nodup_singleton _, ?_, ?_, ?_⟩
  · intro t
    rw [List.mem_singleton, hpair, Finset.mem_insert, Finset.mem_singleton]
    constructor
    · rintro rfl
      exact ⟨⟨Or.inl rfl, hl, hne⟩, rfl⟩
    · rintro ⟨⟨hfrom, -, hner⟩, hto⟩
      obtain ⟨fromSignal, toExpr⟩ := t
      obtain rfl : toExpr = _ := hto
      rcases hfrom with rfl | hfrom
      · rfl
      · exact absurd hfrom hner
  · intro c hc
    cases hc
  · intro s hs hsf hner
    rw [hpair, Finset.mem_insert, Finset.mem_singleton] at hs
    rcases hs with rfl | rfl
    · exact absurd hsf hl
    · exact absurd rfl hner

variable [hp : Fact p.Prime]

/-- The two signals of an equality in increasing order. -/
theorem ordered_of_isEquality (h : c.isEquality p) (hc : c.NonzeroCoeffs p) :
    ∃ x y, c.takeClonedSignalsOrdered = [x, y] ∧ x < y ∧ x ≠ 0 ∧ y ≠ 0 ∧
      (∀ k, c.Mentions k ↔ k = x ∨ k = y) ∧ ∀ ρ : ℕ → ZMod p, c.Sat ρ ↔ ρ x = ρ y := by
  obtain ⟨s, s', hne, hs0, hs0', hsignals, hmem, hsat⟩ := Constraint.equality_spec h hc
  have hlen : c.takeClonedSignalsOrdered.length = 2 := by
    rw [Constraint.takeClonedSignalsOrdered, Finset.length_ascending, hsignals,
      Finset.card_pair hne]
  have hlt : c.takeClonedSignalsOrdered.Pairwise (· < ·) := Finset.pairwise_lt_ascending _
  obtain ⟨x, y, hxy⟩ := List.length_eq_two.mp hlen
  rw [hxy] at hlt
  have hxylt : x < y := List.pairwise_pair.mp hlt
  have hboth : ∀ k, (k = x ∨ k = y) ↔ k = s ∨ k = s' := by
    intro k
    rw [← hmem k]
    have := Constraint.mem_takeClonedSignalsOrdered (c := c) (k := k)
    rw [hxy] at this
    simp only [List.mem_cons, List.not_mem_nil, or_false] at this
    rw [this]
    refine and_iff_right_of_imp ?_
    intro hk h0
    rcases (hmem k).mp hk with h | h
    · exact hs0 (h.symm.trans h0)
    · exact hs0' (h.symm.trans h0)
  refine ⟨x, y, hxy, hxylt, ?_, ?_, fun k => (hmem k).trans (hboth k).symm, ?_⟩
  · rcases (hboth x).mp (Or.inl rfl) with rfl | rfl
    · exact hs0
    · exact hs0'
  · rcases (hboth y).mp (Or.inr rfl) with rfl | rfl
    · exact hs0
    · exact hs0'
  · intro ρ
    rw [hsat]
    rcases (hboth x).mp (Or.inl rfl) with rfl | rfl <;> rcases (hboth y).mp (Or.inr rfl) with rfl | rfl
    · exact absurd hxylt (lt_irrefl _)
    · exact Iff.rfl
    · exact eq_comm
    · exact absurd hxylt (lt_irrefl _)

theorem signals_nonempty_of_isEquality (h : c.isEquality p) (hc : c.NonzeroCoeffs p) :
    c.takeClonedSignals.Nonempty := by
  obtain ⟨x, y, hxy, -⟩ := ordered_of_isEquality h hc
  refine ⟨x, Finset.mem_ascending.mp ?_⟩
  rw [← Constraint.takeClonedSignalsOrdered, hxy]
  exact List.mem_cons_self

/-! ## A single equality -/

theorem eqSingleSimplification_spec (forbidden : Finset ℕ) (h : c.isEquality p) (hc : c.NonzeroCoeffs p) :
    ∃ r subs cons, eqSingleSimplification c forbidden = some (subs, cons) ∧
      Solution p forbidden c.takeClonedSignals r subs cons := by
  obtain ⟨x, y, hxy, hlt, hx0, hy0, hmem, hsat⟩ := ordered_of_isEquality h hc
  have hsignals : c.takeClonedSignals = {x, y} := by
    rw [← Finset.toFinset_ascending c.takeClonedSignals, ← Constraint.takeClonedSignalsOrdered, hxy]
    simp
  have h0 : c.takeClonedSignalsOrdered[0]? = some x := by rw [hxy]; rfl
  have h1 : c.takeClonedSignalsOrdered[1]? = some y := by rw [hxy]; rfl
  have hx : ∀ s ∈ ({x, y} : Finset ℕ), x ≤ s := by
    intro s hs
    rw [Finset.mem_insert, Finset.mem_singleton] at hs
    omega
  have hxmem : x ∈ ({x, y} : Finset ℕ) := Finset.mem_insert_self x {y}
  have hymem : y ∈ ({x, y} : Finset ℕ) := Finset.mem_insert_of_mem (Finset.mem_singleton_self y)
  rw [hsignals]
  simp only [eqSingleSimplification, h0, h1, Option.bind_eq_bind, Option.bind_some, new_signal]
  by_cases hxf : x ∈ forbidden
  · have hrep : IsRepresentative forbidden {x, y} x :=
      ⟨hxmem, fun s hs _ => ⟨hxf, hx s hs⟩, fun hnot => absurd hxf hnot⟩
    by_cases hyf : y ∈ forbidden
    · -- the equality stays, for two forbidden signals
      refine ⟨x, [], [c], by rw [if_pos ⟨hxf, hyf⟩], hrep, List.nodup_nil, ?_, ?_, ?_⟩
      · intro t
        refine iff_of_false List.not_mem_nil ?_
        rintro ⟨⟨hs, hsf, -⟩, -⟩
        rw [Finset.mem_insert, Finset.mem_singleton] at hs
        rcases hs with hs | hs
        · exact hsf (hs ▸ hxf)
        · exact hsf (hs ▸ hyf)
      · intro d hd
        obtain rfl := List.mem_singleton.mp hd
        exact ⟨y, hymem, ⟨hyf, hlt.ne'⟩, fun k hk => Or.inr ((hmem k).mp hk).symm,
          fun ρ => (hsat ρ).trans eq_comm⟩
      · intro s hs _ hne
        rw [Finset.mem_insert, Finset.mem_singleton] at hs
        obtain rfl := hs.resolve_left hne
        exact ⟨c, List.mem_singleton_self c, fun ρ => (hsat ρ).trans eq_comm⟩
    · refine ⟨x, _, _, by rw [if_neg fun h => hyf h.2, if_pos hxf], ?_⟩
      exact solution_pair (Finset.pair_comm x y) hlt.ne' hyf hrep
  · by_cases hyf : y ∈ forbidden
    · refine ⟨y, _, _, by rw [if_neg fun h => hxf h.1, if_neg hxf, if_pos hyf], ?_⟩
      refine solution_pair rfl hlt.ne hxf ⟨hymem, ?_, fun hnot => absurd hyf hnot⟩
      intro s hs hsf
      rw [Finset.mem_insert, Finset.mem_singleton] at hs
      rcases hs with rfl | rfl
      · exact absurd hsf hxf
      · exact ⟨hyf, le_refl _⟩
    · rw [if_neg fun h => hxf h.1, if_neg hxf, if_neg hyf]
      refine ⟨x, _, _, by rw [if_neg (not_lt.mpr hlt.le)], ?_⟩
      refine solution_pair (Finset.pair_comm x y) hlt.ne' hyf ⟨hxmem, ?_, fun _ => hx⟩
      intro s hs hsf
      rw [Finset.mem_insert, Finset.mem_singleton] at hs
      rcases hs with rfl | rfl
      · exact absurd hsf hxf
      · exact absurd hsf hyf

/-! ## A cluster of equalities -/

/-- In a cluster that hangs together all signals are equal. -/
theorem equal_of_linked (heq : ∀ c ∈ constraints, c.isEquality p ∧ c.NonzeroCoeffs p) {ρ : ℕ → ZMod p}
    (hsat : ∀ c ∈ constraints, c.Sat ρ) {c' : C} (hc : c ∈ constraints) (h : ReflTransGen (Shares constraints) c c')
    {s' : ℕ} (hs : s ∈ c.takeClonedSignalsOrdered) (hs' : s' ∈ c'.takeClonedSignalsOrdered) : ρ s = ρ s' := by
  have hone : ∀ c ∈ constraints, ∀ s ∈ c.takeClonedSignalsOrdered,
      ∀ t ∈ c.takeClonedSignalsOrdered, ρ s = ρ t := by
    intro c hc s hs t ht
    obtain ⟨x, y, hxy, -, -, -, -, hiff⟩ := ordered_of_isEquality (heq c hc).1 (heq c hc).2
    have hval := (hiff ρ).mp (hsat c hc)
    rw [hxy] at hs ht
    simp only [List.mem_cons, List.not_mem_nil, or_false] at hs ht
    rcases hs with rfl | rfl <;> rcases ht with rfl | rfl
    · rfl
    · exact hval
    · exact hval.symm
    · rfl
  induction h generalizing s' with
  | refl => exact hone c hc s hs s' hs'
  | @tail d e _ hde ih =>
    obtain ⟨_, he, t, htd, hte⟩ := hde
    refine (ih ?_).trans (hone e he t ?_ s' hs')
    · exact Finset.mem_ascending.mpr htd
    · exact Finset.mem_ascending.mpr hte

theorem mem_signalsOf_ordered :
    s ∈ (constraints.flatMap fun c => c.takeClonedSignalsOrdered) ↔ s ∈ signalsOf constraints := by
  simp only [List.mem_flatMap, mem_signalsOf, Constraint.takeClonedSignalsOrdered,
    Finset.mem_ascending]

/-- All constraints of a cluster hold exactly if all its signals have the value of one of them. -/
theorem sat_iff_of_linked (heq : ∀ c ∈ constraints, c.isEquality p ∧ c.NonzeroCoeffs p)
    (hlinked : ∀ c ∈ constraints, ∀ c' ∈ constraints, ReflTransGen (Shares constraints) c c')
    (hr : r ∈ signalsOf constraints) (ρ : ℕ → ZMod p) :
    (∀ c ∈ constraints, c.Sat ρ) ↔ ∀ s ∈ signalsOf constraints, ρ s = ρ r := by
  constructor
  · intro hsat s hs
    obtain ⟨c, hc, hs⟩ := mem_signalsOf.mp hs
    obtain ⟨c', hc', hr⟩ := mem_signalsOf.mp hr
    exact equal_of_linked heq hsat hc (hlinked c hc c' hc') (Finset.mem_ascending.mpr hs)
      (Finset.mem_ascending.mpr hr)
  · intro hval c hc
    obtain ⟨x, y, hxy, -, -, -, -, hiff⟩ := ordered_of_isEquality (heq c hc).1 (heq c hc).2
    have hmem : ∀ s ∈ c.takeClonedSignalsOrdered, ρ s = ρ r := by
      intro s hs
      exact hval s (mem_signalsOf.mpr ⟨c, hc, Finset.mem_ascending.mp hs⟩)
    rw [hxy] at hmem
    rw [hiff, hmem x List.mem_cons_self, hmem y (List.mem_cons_of_mem _ List.mem_cons_self)]

theorem signalsOf_nonempty (hne : constraints ≠ []) (heq : ∀ c ∈ constraints, c.isEquality p ∧ c.NonzeroCoeffs p) :
    (signalsOf constraints).Nonempty := by
  obtain ⟨c, hc⟩ := List.exists_mem_of_ne_nil _ hne
  obtain ⟨x, hx⟩ := signals_nonempty_of_isEquality (heq c hc).1 (heq c hc).2
  exact ⟨x, mem_signalsOf.mpr ⟨c, hc, hx⟩⟩

theorem eqClusterSimplification_solution (o : HashOrder) {cluster : Cluster} (forbidden : Finset ℕ)
    (hne : cluster.constraints ≠ [])
    (heq : ∀ c ∈ cluster.constraints, c.isEquality p ∧ c.NonzeroCoeffs p) :
    ∃ r subs cons, eqClusterSimplification o cluster forbidden p = some (subs, cons) ∧
      Solution p forbidden (signalsOf cluster.constraints) r subs cons := by
  by_cases hsize : cluster.size = 1
  · obtain ⟨c, hc⟩ := List.length_eq_one_iff.mp hsize
    obtain ⟨hceq, hcred⟩ := heq c (by rw [hc]; exact List.mem_singleton_self c)
    obtain ⟨r, subs, cons, hrun, hsolution⟩ := eqSingleSimplification_spec forbidden hceq hcred
    have hsignals : signalsOf cluster.constraints = c.takeClonedSignals := by
      rw [hc]
      simp [signalsOf]
    refine ⟨r, subs, cons, ?_, by rw [hsignals]; exact hsolution⟩
    rw [eqClusterSimplification, if_pos hsize, hc]
    exact hrun
  obtain ⟨r, remains, remove, htake, hrep, hremains, hremove⟩ :=
    takeRhSignal_spec (fun _ => mem_signalsOf_ordered) (signalsOf_nonempty hne heq)
      (pushed_foldl forbidden (cluster.constraints.flatMap fun c => c.takeClonedSignalsOrdered))
  obtain ⟨cons, hcons, hall⟩ := exists_mapM (l := remains.ascending)
    (P := fun s c => (∀ k, Constraint.Mentions c k → k = 0 ∨ k = s ∨ k = r) ∧
      ∀ ρ : ℕ → ZMod p, c.Sat ρ ↔ ρ s = ρ r) fun s _ => equate_spec (p := p) s r
  have hsubs : (o.walk remove.ascending).mapM (fun signal =>
      Algebra.Substitution.new signal (.signal r)) =
      some ((o.walk remove.ascending).map fun signal => ⟨signal, (∅ : HashMap ℕ ℤ).insert r 1⟩) := by
    induction o.walk remove.ascending with
    | nil => rfl
    | cons a t ih =>
      rw [List.mapM_cons, ih, new_signal]
      rfl
  refine ⟨r, (o.walk remove.ascending).map fun signal => ⟨signal, (∅ : HashMap ℕ ℤ).insert r 1⟩,
    cons, ?_, ⟨hrep, ?_, ?_, ?_, ?_⟩⟩
  · rw [eqClusterSimplification, if_neg hsize]
    simp only [htake, Option.bind_eq_bind, Option.bind_some]
    simp only [Option.bind_eq_bind] at hcons
    simp only [hcons, hsubs, Option.bind_some]
  · rw [List.map_map]
    have : ((fun s : S => s.fromSignal) ∘ fun signal =>
        (⟨signal, (∅ : HashMap ℕ ℤ).insert r 1⟩ : S)) = id := rfl
    rw [this, List.map_id, HashOrder.nodup_walk]
    exact Finset.nodup_ascending _
  · intro t
    simp only [List.mem_map, HashOrder.mem_walk, Finset.mem_ascending, ← hremove]
    constructor
    · rintro ⟨s, hs, rfl⟩
      exact ⟨hs, rfl⟩
    · rintro ⟨hs, ht⟩
      exact ⟨t.fromSignal, hs, by rw [← ht]⟩
  · intro c hc
    obtain ⟨s, hs, hmem, hiff⟩ := exists_of_forall₂_right hall hc
    obtain ⟨hsignals, hs⟩ := (hremains s).mp (Finset.mem_ascending.mp hs)
    exact ⟨s, hsignals, hs, hmem, hiff⟩
  · intro s hs hsf hsr
    obtain ⟨c, hc, -, hiff⟩ :=
      exists_of_forall₂_left hall (Finset.mem_ascending.mpr ((hremains s).mpr ⟨hs, hsf, hsr⟩))
    exact ⟨c, hc, hiff⟩

theorem ne_zero_of_mem_signalsOf (hs : s ∈ signalsOf constraints) : s ≠ 0 := by
  obtain ⟨c, -, hs⟩ := mem_signalsOf.mp hs
  exact (Constraint.mem_takeClonedSignals.mp hs).1

/-- What a cluster is replaced by is equivalent to it, and its substitutions rename signals to a signal that
no cluster substitutes: to the smallest forbidden one, if there is one. -/
theorem eqClusterSimplification_equivalent (o : HashOrder) (forbidden : Finset ℕ) {equalities : List C}
    (heq : ∀ c ∈ equalities, c.isEquality p ∧ c.NonzeroCoeffs p) {noVars : ℕ}
    (hlt : ∀ c ∈ equalities, ∀ s ∈ c.takeClonedSignals, s < noVars) :
    ∃ clusters, buildClusters o equalities noVars = some clusters ∧
      (∀ ρ : ℕ → ZMod p, (∀ c ∈ equalities, c.Sat ρ) ↔
        ∀ cluster ∈ clusters, ∀ c ∈ cluster.constraints, c.Sat ρ) ∧
      ∀ cluster ∈ clusters, ∀ o', ∃ subs cons,
        eqClusterSimplification o' cluster forbidden p = some (subs, cons) ∧
        (∀ ρ : ℕ → ZMod p, (∀ c ∈ cluster.constraints, c.Sat ρ) ↔
          (∀ s ∈ subs, s.Holds ρ) ∧ ∀ c ∈ cons, c.Sat ρ) ∧
        (∀ s ∈ subs, s.fromSignal ∉ forbidden ∧ ∃ r, IsRenaming s r ∧
          ∀ cluster' ∈ clusters, ∀ o'' subs' cons',
            eqClusterSimplification o'' cluster' forbidden p = some (subs', cons') →
              ∀ t ∈ subs', t.fromSignal ≠ r) ∧
        ∀ r, IsLeast {s | s ∈ signalsOf cluster.constraints ∧ s ∈ forbidden} r →
          ∀ s ∈ subs, IsRenaming s r := by
  obtain ⟨clusters, hrun, h⟩ := buildClusters_spec o hlt
  have hmem : ∀ c, (∃ cluster ∈ clusters, c ∈ cluster.constraints) ↔ c ∈ equalities := by
    intro c
    rw [← List.mem_flatMap, h.perm.mem_iff, List.mem_filter]
    refine and_iff_left_of_imp ?_
    intro hc
    obtain ⟨x, hx⟩ := signals_nonempty_of_isEquality (heq c hc).1 (heq c hc).2
    rw [isEmpty_eq_false hx]
    rfl
  have hsolve : ∀ cluster ∈ clusters, ∀ o', ∃ r subs cons,
      eqClusterSimplification o' cluster forbidden p = some (subs, cons) ∧
        Solution p forbidden (signalsOf cluster.constraints) r subs cons := fun cluster hcluster o' =>
    eqClusterSimplification_solution o' forbidden (h.nonempty cluster hcluster)
      fun c hc => heq c ((hmem c).mp ⟨cluster, hcluster, hc⟩)
  refine ⟨clusters, hrun, ?_, ?_⟩
  · intro ρ
    constructor
    · intro hsat cluster hcluster c hc
      exact hsat c ((hmem c).mp ⟨cluster, hcluster, hc⟩)
    · intro hsat c hc
      obtain ⟨cluster, hcluster, hc⟩ := (hmem c).mpr hc
      exact hsat cluster hcluster c hc
  intro cluster hcluster o'
  obtain ⟨r, subs, cons, hsimp, hsolution⟩ := hsolve cluster hcluster o'
  have hrep := hsolution.representative
  have hr0 := ne_zero_of_mem_signalsOf hrep.mem
  refine ⟨subs, cons, hsimp, ?_, ?_, ?_⟩
  · intro ρ
    rw [hsolution.holds_iff hr0]
    exact sat_iff_of_linked (fun c hc => heq c ((hmem c).mp ⟨cluster, hcluster, hc⟩))
      (h.linked cluster hcluster) hrep.mem ρ
  · intro s hs
    refine ⟨((hsolution.mem_subs s).mp hs).1.2.1, r, hsolution.isRenaming hr0 hs, ?_⟩
    rintro cluster' hcluster' o'' subs' cons' hsimp' t ht rfl
    obtain ⟨r', subs'', cons'', hsimp'', hsolution'⟩ := hsolve cluster' hcluster' o''
    obtain ⟨rfl, -⟩ := Prod.mk.inj (Option.some.inj (hsimp'.symm.trans hsimp''))
    obtain ⟨⟨hmem', -, hne⟩, -⟩ := (hsolution'.mem_subs t).mp ht
    -- the two clusters share the signal, so they are one cluster
    obtain rfl := h.eq_of_mem_signalsOf hcluster' hcluster hmem' hrep.mem
    exact hne (hrep.unique hsolution'.representative)
  · rintro r' ⟨⟨hr', hrf'⟩, hle⟩ s hs
    obtain ⟨hrf, hle'⟩ := hrep.of_forbidden r' hr' hrf'
    rw [le_antisymm (hle ⟨hrep.mem, hrf⟩) hle']
    exact hsolution.isRenaming hr0 hs

/-- `x1 = x2` and `x2 = x3` over the field with five elements, with the forbidden signals 2 and 3. -/
theorem eqClusterSimplification_equivalent_five :
    let equalities : List C :=
      [⟨∅, ∅, AList.ofPairs [(1, 1), (2, 4)]⟩, ⟨∅, ∅, AList.ofPairs [(2, 1), (3, 4)]⟩]
    ∃ clusters, buildClusters HashOrder.listOrder equalities 4 = some clusters ∧
      ∀ cluster ∈ clusters, ∃ subs cons,
        eqClusterSimplification HashOrder.listOrder cluster {2, 3} 5 = some (subs, cons) ∧
        ∀ ρ : ℕ → ZMod 5, (∀ c ∈ cluster.constraints, c.Sat ρ) ↔
          (∀ s ∈ subs, s.Holds ρ) ∧ ∀ c ∈ cons, c.Sat ρ := by
  intro equalities
  have : Fact (Nat.Prime 5) := ⟨by norm_num⟩
  obtain ⟨clusters, hrun, -, hclusters⟩ :=
    @eqClusterSimplification_equivalent 5 _ HashOrder.listOrder {2, 3} equalities (by decide) 4 (by decide)
  refine ⟨clusters, hrun, fun cluster hcluster => ?_⟩
  obtain ⟨subs, cons, hsimp, hiff, -⟩ := hclusters cluster hcluster HashOrder.listOrder
  exact ⟨subs, cons, hsimp, hiff⟩

/-!
## The phase of equalities

Every cluster of equalities is replaced by renamings to one of its signals, with an equality for each
further forbidden signal.
-/

variable {p : ℕ} {forbidden : Finset ℕ}

theorem occurs_of_mem_signalsOf (hs : s ∈ signalsOf constraints) : Occurs constraints s := by
  obtain ⟨c, hc, hs⟩ := mem_signalsOf.mp hs
  exact ⟨c, hc, (Constraint.mem_takeClonedSignals.mp hs).2⟩

theorem Solution.eliminates {subs : List S} {cons : List C}
    (h : Solution p forbidden (signalsOf constraints) r subs cons) (h0 : 0 ∈ forbidden)
    (hequal : ∀ ρ : ℕ → ZMod p, (∀ c ∈ constraints, c.Sat ρ) ↔ ∀ s ∈ signalsOf constraints, ρ s = ρ r) :
    Eliminates p forbidden constraints subs cons := by
  have hr := h.representative.mem
  have hr0 := ne_zero_of_mem_signalsOf hr
  refine ⟨h.nodup, ?_, ?_, ?_, ?_, ?_, ?_, ?_⟩
  · intro t ht
    exact ((h.mem_subs t).mp ht).1.2.1
  · intro t ht u hu
    rw [(h.isRenaming hr0 hu).mem_iff]
    exact ((h.mem_subs t).mp ht).1.2.2
  · intro c hc k hk
    obtain ⟨s, hs, ⟨hsf, -⟩, hmem, -⟩ := h.equates c hc
    rcases hmem k hk with rfl | rfl | rfl
    · exact h0
    · exact hsf
    · exact (h.representative.of_forbidden s hs hsf).1
  · intro t ht
    exact occurs_of_mem_signalsOf ((h.mem_subs t).mp ht).1.1
  · intro t ht k hk
    rw [(h.isRenaming hr0 ht).mem_iff.mp hk]
    exact Or.inr (occurs_of_mem_signalsOf hr)
  · rintro k ⟨c, hc, hk⟩
    obtain ⟨s, hs, -, hmem, -⟩ := h.equates c hc
    rcases hmem k hk with rfl | rfl | rfl
    · exact Or.inl rfl
    · exact Or.inr (occurs_of_mem_signalsOf hs)
    · exact Or.inr (occurs_of_mem_signalsOf hr)
  · intro ρ _
    rw [hequal ρ]
    exact h.holds_iff hr0 ρ

variable [hp : Fact p.Prime]

theorem eqClusterSimplification_spec (o : HashOrder) {cluster : Cluster} (h0 : 0 ∈ forbidden)
    (hne : cluster.constraints ≠ [])
    (heq : ∀ c ∈ cluster.constraints, c.isEquality p ∧ c.NonzeroCoeffs p)
    (hlinked : ∀ c ∈ cluster.constraints, ∀ c' ∈ cluster.constraints,
      ReflTransGen (Shares cluster.constraints) c c') :
    ∃ subs cons, eqClusterSimplification o cluster forbidden p = some (subs, cons) ∧
      Eliminates p forbidden cluster.constraints subs cons ∧ ∀ s ∈ subs, ∃ r, IsRenaming s r := by
  obtain ⟨r, subs, cons, hrun, h⟩ := eqClusterSimplification_solution o forbidden hne heq
  have hr := h.representative.mem
  refine ⟨subs, cons, hrun, h.eliminates h0 (sat_iff_of_linked heq hlinked hr), fun s hs => ?_⟩
  exact ⟨r, h.isRenaming (ne_zero_of_mem_signalsOf hr) hs⟩

theorem eqSimplification_spec (o : HashOrder) {equalities : List C} (h0 : 0 ∈ forbidden)
    (heq : ∀ c ∈ equalities, c.isEquality p ∧ c.NonzeroCoeffs p) {noVars : ℕ}
    (hlt : ∀ k, k ≠ 0 → Occurs equalities k → k < noVars) :
    ∃ subs cons, eqSimplification o equalities forbidden noVars p = some (subs, cons) ∧
      Eliminates p forbidden equalities subs cons ∧ ∀ s ∈ subs, ∃ r, IsRenaming s r := by
  have hsignals : ∀ c ∈ equalities, ∀ s ∈ c.takeClonedSignals, s < noVars := by
    intro c hc s hs
    obtain ⟨hs0, hm⟩ := Constraint.mem_takeClonedSignals.mp hs
    exact hlt s hs0 ⟨c, hc, hm⟩
  obtain ⟨clusters, hclusters, hclustering⟩ := buildClusters_spec (o.sub 0) hsignals
  have hmem : ∀ cl ∈ clusters, ∀ c ∈ cl.constraints, c ∈ equalities := by
    intro cl hcl c hc
    have := hclustering.perm.mem_iff.mp (List.mem_flatMap.mpr ⟨cl, hcl, hc⟩)
    exact (List.mem_filter.mp this).1
  obtain ⟨results, hrun, hall⟩ := exists_mapM (l := clusters.zipIdx)
    (f := fun e => do
      let result ← eqClusterSimplification ((o.sub 1).sub e.2) e.1 forbidden p
      some (e.1, result))
    (P := fun e (result : Cluster × List S × List C) =>
      Eliminates p forbidden e.1.constraints result.2.1 result.2.2 ∧
        ∀ s ∈ result.2.1, ∃ r, IsRenaming s r) (by
      rintro ⟨cl, i⟩ he
      have hcl := List.fst_mem_of_mem_zipIdx he
      obtain ⟨subs, cons, hcluster, helim, hren⟩ := eqClusterSimplification_spec (p := p)
        ((o.sub 1).sub i) h0 (hclustering.nonempty cl hcl)
        (fun c hc => heq c (hmem cl hcl c hc)) (hclustering.linked cl hcl)
      refine ⟨(cl, subs, cons), ?_, helim, hren⟩
      simp only [hcluster, Option.bind_eq_bind, Option.bind_some])
  have hparts := (List.forall₂_map_left_iff (f := Prod.fst)
    (R := fun (cl : Cluster) (result : Cluster × List S × List C) =>
      Eliminates p forbidden cl.constraints result.2.1 result.2.2)).mpr (hall.imp fun _ _ h => h.1)
  rw [List.zipIdx_map_fst] at hparts
  have hresults : List.Forall₂ (fun (cl : Cluster) result =>
      Eliminates p forbidden cl.constraints result.1 result.2) clusters
      (results.map fun result => result.2) := List.forall₂_map_right_iff.mpr hparts
  -- the substitutions of the single equalities come first
  have hperm : ((results.filter fun e => e.1.size = 1) ++
      (o.sub 2).walk (results.filter fun e => e.1.size ≠ 1)).Perm results := by
    refine (((o.sub 2).walk_perm _).append_left _).trans ?_
    have := List.filter_append_perm (fun e : Cluster × List S × List C => decide (e.1.size = 1)) results
    simpa only [decide_not] using this
  have hsubs : ((((results.filter fun e => e.1.size = 1) ++
      (o.sub 2).walk (results.filter fun e => e.1.size ≠ 1)).flatMap fun e => e.2.1)).Perm
      ((results.map fun result => result.2).flatMap fun r => r.1) := by
    rw [List.flatMap_map]
    exact hperm.flatMap_right _
  have hcons : (results.flatMap fun e => e.2.2).Perm
      ((results.map fun result => result.2).flatMap fun r => r.2) := by
    rw [List.flatMap_map]
  refine ⟨_, _, ?_, hclustering.eliminates h0 hresults hsubs hcons, ?_⟩
  · simp only [eqSimplification, hclusters, Option.bind_eq_bind, Option.bind_some]
    simp only [Option.bind_eq_bind] at hrun
    simp only [hrun, Option.bind_some]
  · intro s hs
    obtain ⟨result, hresult, hs⟩ := List.mem_flatMap.mp hs
    obtain ⟨e, -, -, hren⟩ := exists_of_forall₂_right hall (hperm.mem_iff.mp hresult)
    exact hren s hs

end Circom.ConstraintList
