import Circom.Algebra.Proofs.Substitution

/-!
# The fast path substitutes simultaneously

`fast_encoded_constraint_substitution` takes the signals of the constraint once and replaces those
that have a right-hand side, one after the other. When no right-hand side contains a key of the map
this is the simultaneous substitution, for every order of the signals.
-/

set_option linter.unusedSectionVars false

namespace Circom.Algebra

open Circom.Lib (HashMap HashOrder)

variable {enc : HashMap ℕ A} {signals : List ℕ} {k : ℕ}

/-! ## Right-hand sides -/

namespace ArithmeticExpression

variable {K : Type} [DecidableEq K] [Inhabited K]

/-- The linear form that `Substitution::new` makes of an expression. -/
def rightHandSide : ArithmeticExpression K → Option (HashMap K ℤ)
  | .number value => some ((∅ : HashMap K ℤ).insert constantCoefficient value)
  | .signal symbol => some ((∅ : HashMap K ℤ).insert symbol 1)
  | .linear coefficients => some coefficients
  | _ => none

/-- A key of one of the maps of the expression, or its signal. -/
def Contains : ArithmeticExpression K → K → Prop
  | .number _, k => k = constantCoefficient
  | .signal symbol, k => k = symbol
  | .linear coefficients, k => k ∈ coefficients
  | .quadratic a b c, k => k ∈ a ∨ k ∈ b ∨ k ∈ c
  | .nonQuadratic, _ => False

/-- A number, a signal or a linear expression. -/
def IsLinear : ArithmeticExpression K → Prop
  | .number _ | .signal _ | .linear _ => True
  | _ => False

theorem rightHandSide_spec {e : ArithmeticExpression K} (h : e.IsLinear) :
    ∃ m, e.rightHandSide = some m ∧ ∀ k, k ∈ m ↔ e.Contains k := by
  cases e with
  | number value => exact ⟨_, rfl, fun k => by rw [AList.mem_insert]; simp [Contains]⟩
  | signal symbol => exact ⟨_, rfl, fun k => by rw [AList.mem_insert]; simp [Contains]⟩
  | linear m => exact ⟨m, rfl, fun k => Iff.rfl⟩
  | quadratic a b c => exact h.elim
  | nonQuadratic => exact h.elim

theorem eval_rightHandSide {p : ℕ} {e : ArithmeticExpression K} {m : HashMap K ℤ}
    (h : e.rightHandSide = some m) {ρ : K → ZMod p} (h1 : ρ constantCoefficient = 1) :
    m.eval ρ = e.eval ρ := by
  cases e with
  | number value =>
    cases h
    rw [AList.eval_insert_of_notMem ρ (AList.notMem_empty _), h1, AList.eval_empty]
    simp [eval]
  | signal symbol =>
    cases h
    rw [AList.eval_insert_of_notMem ρ (AList.notMem_empty _), AList.eval_empty]
    simp [eval]
  | linear m' =>
    cases h
    rfl
  | quadratic a b c => cases h
  | nonQuadratic => cases h

theorem new_of_rightHandSide {e : ArithmeticExpression K} {m : HashMap K ℤ}
    (h : e.rightHandSide = some m) {k : K} (hk : k ∉ m) :
    Substitution.new k e = some ⟨k, m⟩ := by
  cases e with
  | number value => cases h; rfl
  | signal symbol => cases h; rfl
  | linear m' =>
    cases h
    exact if_neg hk
  | quadratic a b c => cases h
  | nonQuadratic => cases h

end ArithmeticExpression

namespace SimplificationUtils

open ArithmeticExpression (rightHandSide)

/-- A map from signals to linear right-hand sides that contain no key of the map. -/
structure SelfContained (enc : HashMap ℕ A) : Prop where
  ne_zero : ∀ k ∈ enc, k ≠ 0
  linear : ∀ k e, enc.lookup k = some e → e.IsLinear
  free : ∀ k e, enc.lookup k = some e → ∀ y ∈ enc, ¬ e.Contains y

/-- The assignment in which every key of the map has the value of its right-hand side. -/
def simultaneous {p : ℕ} (enc : HashMap ℕ A) (ρ : ℕ → ZMod p) (k : ℕ) : ZMod p :=
  match enc.lookup k with
  | none => ρ k
  | some e => e.eval ρ

/-- The substitution that the map holds for a signal. -/
def substitutionOf (enc : HashMap ℕ A) (k : ℕ) : Option S :=
  (enc.lookup k).bind fun e => e.rightHandSide.map fun m => ⟨k, m⟩

theorem substitutionOf_eq_some {t : S} (h : substitutionOf enc k = some t) :
    t.fromSignal = k ∧ ∃ e, enc.lookup k = some e ∧ e.rightHandSide = some t.toExpr := by
  obtain ⟨e, he, hm⟩ := Option.bind_eq_some_iff.mp h
  obtain ⟨m, hm', rfl⟩ := Option.map_eq_some_iff.mp hm
  exact ⟨rfl, e, he, hm'⟩

/-- A signal without a right-hand side is left alone, the others are replaced. -/
theorem new_substitution (henc : SelfContained enc) {e : A} (h : enc.lookup k = some e) :
    ∃ t, substitutionOf enc k = some t ∧ Substitution.new k e = some t := by
  obtain ⟨m, hm, hkeys⟩ := ArithmeticExpression.rightHandSide_spec (henc.linear k e h)
  have hk : k ∉ m := by
    rw [hkeys]
    exact henc.free k e h k (AList.mem_iff_exists_lookup.mpr ⟨e, h⟩)
  refine ⟨⟨k, m⟩, ?_, ArithmeticExpression.new_of_rightHandSide hm hk⟩
  simp [substitutionOf, h, hm]

/-! ## The loop -/

/-- The constraint after a list of substitutions. -/
def applyAll (field : ℤ) (c : C) (l : List S) : C :=
  l.foldl (fun c t => c.applySubstitution t field) c

theorem applyAll_eq (field : ℤ) (c : C) (l : List S) :
    applyAll field c l =
      ⟨l.foldl (fun m t => rawSubstitution m t field) c.a,
        l.foldl (fun m t => rawSubstitution m t field) c.b,
        l.foldl (fun m t => rawSubstitution m t field) c.c⟩ := by
  induction l generalizing c with
  | nil => rfl
  | cons t l ih => exact ih (c.applySubstitution t field)

/-- One turn of the loop. -/
def encodedTurn (enc : HashMap ℕ A) (field : ℤ) (acc : C × Bool) (signal : ℕ) : Option (C × Bool) :=
  match enc.lookup signal with
  | none => some acc
  | some expr => do
    let sub ← Substitution.new signal expr
    some (acc.1.applySubstitution sub field, true)

theorem encodedTurn_of_none (h : enc.lookup k = none) (field : ℤ)
    (acc : C × Bool) : encodedTurn enc field acc k = some acc := by
  unfold encodedTurn
  rw [h]

theorem encodedTurn_of_some {e : A} (h : enc.lookup k = some e) {t : S} (ht : Substitution.new k e = some t) (field : ℤ)
    (acc : C × Bool) : encodedTurn enc field acc k = some (acc.1.applySubstitution t field, true) := by
  unfold encodedTurn
  rw [h]
  simp only [ht, Option.bind_eq_bind, Option.bind_some]

theorem foldlM_encodedTurn (henc : SelfContained enc) (field : ℤ) (signals : List ℕ) (c : C) (changed : Bool) :
    signals.foldlM (encodedTurn enc field) (c, changed) =
      some (applyAll field c (signals.filterMap (substitutionOf enc)),
        changed || !(signals.filterMap (substitutionOf enc)).isEmpty) := by
  induction signals generalizing c changed with
  | nil => simp [applyAll]
  | cons k signals ih =>
    rw [List.foldlM_cons]
    cases h : enc.lookup k with
    | none =>
      have hnone : substitutionOf enc k = none := by simp [substitutionOf, h]
      rw [encodedTurn_of_none h, List.filterMap_cons_none hnone]
      exact ih c changed
    | some e =>
      obtain ⟨t, ht, hnew⟩ := new_substitution henc h
      rw [encodedTurn_of_some h hnew, List.filterMap_cons_some ht]
      refine (ih _ _).trans ?_
      simp [applyAll]

theorem fastEncodedConstraintSubstitution_eq (henc : SelfContained enc) (o : HashOrder) (c : C) (field : ℤ) :
    fastEncodedConstraintSubstitution o c enc field =
      some (applyAll field c ((o.walk c.takeClonedSignals.ascending).filterMap (substitutionOf enc)),
        !((o.walk c.takeClonedSignals.ascending).filterMap (substitutionOf enc)).isEmpty) := by
  have hloop : fastEncodedConstraintSubstitution o c enc field =
      (o.walk c.takeClonedSignals.ascending).foldlM (encodedTurn enc field) (c, false) := rfl
  rw [hloop, foldlM_encodedTurn henc, Bool.false_or]

/-- The substitutions met on a walk over different signals do not interfere. -/
theorem separated_filterMap (henc : SelfContained enc)
    (hnd : signals.Nodup) : Separated (signals.filterMap (substitutionOf enc)) := by
  have hmem : ∀ t ∈ signals.filterMap (substitutionOf enc),
      t.fromSignal ∈ enc ∧ ∀ y ∈ enc, y ∉ t.toExpr := by
    intro t ht
    obtain ⟨k, -, hk⟩ := List.mem_filterMap.mp ht
    obtain ⟨rfl, e, he, hm⟩ := substitutionOf_eq_some hk
    refine ⟨AList.mem_iff_exists_lookup.mpr ⟨e, he⟩, fun y hy => ?_⟩
    obtain ⟨m, hm', hkeys⟩ := ArithmeticExpression.rightHandSide_spec (henc.linear _ e he)
    rw [hm] at hm'
    cases hm'
    rw [hkeys]
    exact henc.free _ e he y hy
  refine ⟨?_, fun t ht => henc.ne_zero _ (hmem t ht).1, fun t ht u hu => (hmem u hu).2 _ (hmem t ht).1⟩
  have hsub : ((signals.filterMap (substitutionOf enc)).map fun t => t.fromSignal).Sublist signals := by
    clear hnd hmem
    induction signals with
    | nil => exact List.Sublist.refl _
    | cons k signals ih =>
      cases hk : substitutionOf enc k with
      | none =>
        rw [List.filterMap_cons_none hk]
        exact ih.cons k
      | some t =>
        rw [List.filterMap_cons_some hk, List.map_cons, (substitutionOf_eq_some hk).1]
        exact ih.cons_cons k
  exact hnd.sublist hsub

/-! ## The result -/

variable {p : ℕ} [NeZero p]

/-- Every signal of the constraint that has a right-hand side is among the substitutions. -/
theorem overwrite_filterMap (henc : SelfContained enc) {ρ : ℕ → ZMod p} (h1 : ρ 0 = 1) (hk : k ∈ enc → k ∈ signals) :
    overwrite (signals.filterMap (substitutionOf enc)) ρ k = simultaneous enc ρ k := by
  cases h : enc.lookup k with
  | none =>
    have hnot : ∀ t ∈ signals.filterMap (substitutionOf enc), t.fromSignal ≠ k := by
      rintro t ht rfl
      obtain ⟨x, -, hx⟩ := List.mem_filterMap.mp ht
      obtain ⟨rfl, e, he, -⟩ := substitutionOf_eq_some hx
      rw [h] at he
      cases he
    rw [overwrite_of_notMem hnot]
    simp only [simultaneous, h]
  | some e =>
    obtain ⟨t, ht, -⟩ := new_substitution henc h
    have hmem : t ∈ signals.filterMap (substitutionOf enc) :=
      List.mem_filterMap.mpr ⟨k, hk (AList.mem_iff_exists_lookup.mpr ⟨e, h⟩), ht⟩
    obtain ⟨hfrom, e', he', hm⟩ := substitutionOf_eq_some ht
    rw [h, Option.some.injEq] at he'
    subst he'
    cases hfind : (signals.filterMap (substitutionOf enc)).find? fun t => t.fromSignal = k with
    | none =>
      rw [List.find?_eq_none] at hfind
      exact absurd (decide_eq_true hfrom) (hfind t hmem)
    | some u =>
      obtain ⟨x, -, hx⟩ := List.mem_filterMap.mp (List.mem_of_find?_eq_some hfind)
      have hux : u.fromSignal = k := by simpa using List.find?_some hfind
      obtain ⟨hfrom', -⟩ := substitutionOf_eq_some hx
      rw [← hfrom', hux, ht, Option.some.injEq] at hx
      subst hx
      simp only [overwrite, hfind, simultaneous, h]
      exact ArithmeticExpression.eval_rightHandSide hm h1

/-- The constraint `c'` is `c` with all keys of the map replaced at once. -/
structure Substituted (p : ℕ) (enc : HashMap ℕ A) (c c' : C) : Prop where
  /-- Each of the three expressions has the value that it had with all keys replaced. -/
  eval : ∀ ρ : ℕ → ZMod p, ρ 0 = 1 → c'.a.eval ρ = c.a.eval (simultaneous enc ρ) ∧
    c'.b.eval ρ = c.b.eval (simultaneous enc ρ) ∧ c'.c.eval ρ = c.c.eval (simultaneous enc ρ)
  /-- No key is left. -/
  gone : ∀ k ∈ enc, ¬ c'.Mentions k

theorem substituted_applyAll (henc : SelfContained enc) {c : C} (hnd : signals.Nodup)
    (hsignals : ∀ k, k ≠ 0 → c.Mentions k → k ∈ signals) :
    Substituted p enc c (applyAll p c (signals.filterMap (substitutionOf enc))) := by
  have hsep := separated_filterMap henc hnd
  have heval : ∀ (m : HashMap ℕ ℤ), (∀ k ∈ m, c.Mentions k) → ∀ ρ : ℕ → ZMod p, ρ 0 = 1 →
      ((signals.filterMap (substitutionOf enc)).foldl (fun m t => rawSubstitution m t p) m).eval ρ =
        m.eval (simultaneous enc ρ) := by
    intro m hm ρ h1
    rw [eval_foldl_rawSubstitution hsep]
    exact AList.eval_congr fun k hk =>
      overwrite_filterMap henc h1 fun hke => hsignals k (henc.ne_zero k hke) (hm k hk)
  have hgone : ∀ (m : HashMap ℕ ℤ), (∀ k ∈ m, c.Mentions k) → ∀ k ∈ enc,
      k ∉ (signals.filterMap (substitutionOf enc)).foldl (fun m t => rawSubstitution m t p) m := by
    intro m hm k hke hk
    have h0 := henc.ne_zero k hke
    rcases mem_foldl_rawSubstitution hk with h | ⟨hkm, hne⟩ | ⟨t, ht, hkt⟩
    · exact h0 h
    · obtain ⟨e, he⟩ := AList.mem_iff_exists_lookup.mp hke
      obtain ⟨t, ht, -⟩ := new_substitution henc he
      refine hne t (List.mem_filterMap.mpr ⟨k, hsignals k h0 (hm k hkm), ht⟩) ?_
      exact (substitutionOf_eq_some ht).1.symm
    · obtain ⟨x, -, hx⟩ := List.mem_filterMap.mp ht
      obtain ⟨-, e, he, hrhs⟩ := substitutionOf_eq_some hx
      obtain ⟨m', hm', hkeys⟩ := ArithmeticExpression.rightHandSide_spec (henc.linear x e he)
      rw [hrhs, Option.some.injEq] at hm'
      subst hm'
      exact henc.free x e he k hke ((hkeys k).mp hkt)
  have ha : ∀ k ∈ c.a, c.Mentions k := fun k hk => Or.inl hk
  have hb : ∀ k ∈ c.b, c.Mentions k := fun k hk => Or.inr (Or.inl hk)
  have hc : ∀ k ∈ c.c, c.Mentions k := fun k hk => Or.inr (Or.inr hk)
  rw [applyAll_eq]
  refine ⟨fun ρ h1 => ⟨heval c.a ha ρ h1, heval c.b hb ρ h1, heval c.c hc ρ h1⟩, ?_⟩
  rintro k hk (h | h | h)
  · exact hgone c.a ha k hk h
  · exact hgone c.b hb k hk h
  · exact hgone c.c hc k hk h

theorem sameMaps_applyAll {l l' : List S} (h : Separated l) (hp : l.Perm l') (c : C) :
    (applyAll p c l).SameMaps (applyAll p c l') := by
  rw [applyAll_eq, applyAll_eq]
  exact ⟨lookup_foldl_of_perm h hp c.a, lookup_foldl_of_perm h hp c.b, lookup_foldl_of_perm h hp c.c⟩

/-- Every order of the signals gives the same three finite maps. -/
theorem fastEncodedConstraintSubstitution_simultaneous (henc : SelfContained enc)
    (c : C) : ∃ c' changed, Substituted p enc c c' ∧ ∀ o : HashOrder, ∃ c'',
      fastEncodedConstraintSubstitution o c enc p = some (c'', changed) ∧ c''.SameMaps c' := by
  have hnd : c.takeClonedSignals.ascending.Nodup := Finset.nodup_ascending _
  have hsignals : ∀ k, k ≠ 0 → c.Mentions k → k ∈ c.takeClonedSignals.ascending := by
    intro k h0 hk
    rw [Finset.mem_ascending]
    exact Constraint.mem_takeClonedSignals.mpr ⟨h0, hk⟩
  refine ⟨_, !(c.takeClonedSignals.ascending.filterMap (substitutionOf enc)).isEmpty,
    substituted_applyAll henc hnd hsignals, fun o => ?_⟩
  have hperm := (o.walk_perm c.takeClonedSignals.ascending).filterMap (substitutionOf enc)
  have hwalk := (o.nodup_walk (l := c.takeClonedSignals.ascending)).mpr hnd
  refine ⟨applyAll p c ((o.walk c.takeClonedSignals.ascending).filterMap (substitutionOf enc)), ?_,
    sameMaps_applyAll (separated_filterMap henc hwalk) hperm c⟩
  rw [fastEncodedConstraintSubstitution_eq henc, hperm.isEmpty_eq]

end SimplificationUtils

/-! ## Substitution and evaluation -/

open SimplificationUtils (SelfContained Substituted fastEncodedConstraintSubstitution)

/-- A single substitution, for every type of signals, and the map of substitutions of the fast path. The
constant key stays a key when it is itself the replaced one, with coefficient zero. -/
theorem substitution_evaluates {p : ℕ} (hp : p.Prime) :
    (∀ (K : Type) [DecidableEq K] [Inhabited K] (c : Constraint K) (s : Substitution K),
      s.fromSignal ∉ s.toExpr →
      (∀ ρ : K → ZMod p,
        let ρ' := Function.update ρ s.fromSignal (s.toExpr.eval ρ)
        (c.applySubstitution s p).a.eval ρ = c.a.eval ρ' ∧
        (c.applySubstitution s p).b.eval ρ = c.b.eval ρ' ∧
        (c.applySubstitution s p).c.eval ρ = c.c.eval ρ') ∧
      (s.fromSignal ≠ constantCoefficient → ¬ (c.applySubstitution s p).Mentions s.fromSignal) ∧
      ∀ m ∈ [(c.applySubstitution s p).a, (c.applySubstitution s p).b, (c.applySubstitution s p).c],
        (m.lookup s.fromSignal).getD 0 = 0) ∧
    ∀ (enc : HashMap ℕ (ArithmeticExpression ℕ)), SelfContained enc → ∀ c : Constraint ℕ,
      ∃ c' changed, Substituted p enc c c' ∧ ∀ o : HashOrder, ∃ c'',
        fastEncodedConstraintSubstitution o c enc p = some (c'', changed) ∧ c''.SameMaps c' := by
  have : NeZero p := ⟨hp.ne_zero⟩
  refine ⟨fun K _ _ c s hs => ⟨fun ρ => ?_, fun hne => ?_, ?_⟩, fun enc henc c => ?_⟩
  · exact ⟨eval_rawSubstitution_update ρ c.a s, eval_rawSubstitution_update ρ c.b s,
      eval_rawSubstitution_update ρ c.c s⟩
  · have hgone : ∀ m : HashMap K ℤ, s.fromSignal ∉ rawSubstitution m s p := by
      intro m hm
      obtain ⟨v, hv⟩ := AList.mem_iff_exists_lookup.mp hm
      exact hne (lookup_rawSubstitution_from hs hv).1
    rintro (h | h | h)
    · exact hgone c.a h
    · exact hgone c.b h
    · exact hgone c.c h
  · have hzero : ∀ m : HashMap K ℤ, ((rawSubstitution m s p).lookup s.fromSignal).getD 0 = 0 := by
      intro m
      cases h : (rawSubstitution m s p).lookup s.fromSignal with
      | none => rfl
      | some v => exact (lookup_rawSubstitution_from hs h).2
    intro m hm
    simp only [List.mem_cons, List.not_mem_nil, or_false] at hm
    rcases hm with rfl | rfl | rfl
    · exact hzero c.a
    · exact hzero c.b
    · exact hzero c.c
  · exact SimplificationUtils.fastEncodedConstraintSubstitution_simultaneous henc c

/-- `x₁ -> 2 * x₃ + 1` and `x₂ -> x₃` in `x₁ * x₂ = x₁`. -/
theorem substitution_evaluates_seven :
    let c : Constraint ℕ := ⟨AList.ofPairs [(1, 1)], AList.ofPairs [(2, 1)], AList.ofPairs [(1, 1)]⟩
    ¬ (c.applySubstitution ⟨1, AList.ofPairs [(0, 1), (3, 2)]⟩ (7 : ℕ)).Mentions 1 ∧
    ∃ c' changed, Substituted 7 (AList.ofPairs [(1, .linear (AList.ofPairs [(0, 1), (3, 2)])),
        (2, .signal 3)]) c c' ∧
      ∀ o : HashOrder, ∃ c'', fastEncodedConstraintSubstitution o c
        (AList.ofPairs [(1, .linear (AList.ofPairs [(0, 1), (3, 2)])), (2, .signal 3)]) (7 : ℕ) =
          some (c'', changed) ∧ c''.SameMaps c' := by
  obtain ⟨hone, hall⟩ := substitution_evaluates (p := 7) (by decide)
  refine ⟨((hone ℕ _ ⟨1, AList.ofPairs [(0, 1), (3, 2)]⟩ (by decide)).2.1 (by decide)),
    hall _ ⟨fun k hk => ?_, fun k e he => ?_, fun k e he y hy => ?_⟩ _⟩
  · rw [AList.mem_ofPairs] at hk
    rintro rfl
    revert hk
    decide
  · have hmem := AList.mem_of_lookup_ofPairs he
    simp only [List.mem_cons, List.not_mem_nil, or_false, Prod.mk.injEq] at hmem
    rcases hmem with ⟨-, rfl⟩ | ⟨-, rfl⟩ <;> trivial
  · have hmem := AList.mem_of_lookup_ofPairs he
    simp only [List.mem_cons, List.not_mem_nil, or_false, Prod.mk.injEq] at hmem
    rw [AList.mem_ofPairs] at hy
    simp only [List.map_cons, List.map_nil, List.mem_cons, List.not_mem_nil, or_false] at hy
    rcases hmem with ⟨-, rfl⟩ | ⟨-, rfl⟩ <;> rcases hy with rfl | rfl <;>
      simp only [ArithmeticExpression.Contains] <;> decide

/-- A substitution of the constant key leaves it in the maps, and an expression that is not linear has
no substitution: the fast path panics on it. -/
theorem not_substitution_evaluates :
    (¬ ∀ p : ℕ, p.Prime → ∀ (c : Constraint ℕ) (s : Substitution ℕ), s.fromSignal ∉ s.toExpr →
      ¬ (c.applySubstitution s p).Mentions s.fromSignal) ∧
    ¬ ∀ p : ℕ, p.Prime → ∀ (enc : HashMap ℕ (ArithmeticExpression ℕ)),
      (∀ k e, enc.lookup k = some e → ∀ y ∈ enc, ¬ e.Contains y) → ∀ (o : HashOrder) (c : Constraint ℕ),
        ∃ r, fastEncodedConstraintSubstitution o c enc p = some r := by
  constructor
  · intro h
    refine h 7 (by decide) ⟨∅, ∅, ∅⟩ ⟨0, AList.ofPairs [(1, 1)]⟩ (by decide) ?_
    decide +kernel
  · intro h
    obtain ⟨r, hr⟩ := h 7 (by decide) (AList.ofPairs [(1, .nonQuadratic)]) (fun k e he y _ hy => by
      have hmem := AList.mem_of_lookup_ofPairs he
      rw [List.mem_singleton] at hmem
      cases hmem
      exact hy) HashOrder.listOrder ⟨∅, ∅, AList.ofPairs [(1, 1)]⟩
    have hnone : fastEncodedConstraintSubstitution HashOrder.listOrder
        ⟨∅, ∅, AList.ofPairs [(1, 1)]⟩ (AList.ofPairs [(1, .nonQuadratic)]) (7 : ℕ) = none := by rfl
    rw [hnone] at hr
    cases hr

end Circom.Algebra
