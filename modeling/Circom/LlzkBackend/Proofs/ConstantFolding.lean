import Circom.Lib.Outcomes
import Circom.LlzkBackend.Proofs.Operators
import Mathlib.Tactic.NormNum.Prime

/-!
# Constant folding

`tryComputeBiguint` against the evaluation with the operators of `modular_arithmetic`. The folder visits
both branches of an inline switch and stops at the first zero divisor, so what it returns depends on the
divisors of the whole expression, in the order of the visit.
-/

namespace Circom.LlzkBackend

open Circom.Algebra.ModularArithmetic (asBool)
open Circom.Ast
open Circom.Lib (bind_eq_ok bind_eq_error)

variable {p : ℕ}
variable {e : Expression} {op : ExpressionInfixOpcode} {b : ℕ}

/-! ## Closed expressions -/

/-- Induction over closed expressions. -/
theorem closed_induction {motive : (e : Expression) → e.Closed → Prop}
    (number : ∀ info value (h : 0 ≤ value), motive (.number info value) h)
    (infixOp : ∀ info lhe op rhe hl hr, motive lhe hl → motive rhe hr →
      motive (.infixOp info lhe op rhe) ⟨hl, hr⟩)
    (prefixOp : ∀ info op rhe h, motive rhe h → motive (.prefixOp info op rhe) h)
    (inlineSwitchOp : ∀ info cond ifTrue ifFalse hc ht hf, motive cond hc → motive ifTrue ht →
      motive ifFalse hf → motive (.inlineSwitchOp info cond ifTrue ifFalse) ⟨hc, ht, hf⟩) :
    ∀ (e : Expression) (h : e.Closed), motive e h
  | .number info value, h => number info value h
  | .infixOp info lhe op rhe, h =>
    infixOp info lhe op rhe h.1 h.2
      (closed_induction number infixOp prefixOp inlineSwitchOp lhe h.1)
      (closed_induction number infixOp prefixOp inlineSwitchOp rhe h.2)
  | .prefixOp info op rhe, h =>
    prefixOp info op rhe h (closed_induction number infixOp prefixOp inlineSwitchOp rhe h)
  | .inlineSwitchOp info cond ifTrue ifFalse, h =>
    inlineSwitchOp info cond ifTrue ifFalse h.1 h.2.1 h.2.2
      (closed_induction number infixOp prefixOp inlineSwitchOp cond h.1)
      (closed_induction number infixOp prefixOp inlineSwitchOp ifTrue h.2.1)
      (closed_induction number infixOp prefixOp inlineSwitchOp ifFalse h.2.2)
  | .parallelOp .., h => h.elim
  | .var .., h => h.elim
  | .call .., h => h.elim
  | .busCall .., h => h.elim
  | .anonymousComp .., h => h.elim
  | .arrayInLine .., h => h.elim
  | .tuple .., h => h.elim
  | .uniformArray .., h => h.elim

/-- The value of a closed expression, 0 where an operator has none. -/
def denote (p : ℕ) : Expression → ℤ
  | .number _ value => Algebra.ModularArithmetic.modulus value p
  | .infixOp _ lhe op rhe => (op.value (denote p lhe) (denote p rhe) p).getD 0
  | .prefixOp _ op rhe => op.value (denote p rhe) p
  | .inlineSwitchOp _ cond ifTrue ifFalse =>
    if asBool (denote p cond) p then denote p ifTrue else denote p ifFalse
  | _ => 0

/-- No division, integer division or remainder by zero, in either branch of an inline switch. -/
def AllDefined (p : ℕ) : Expression → Prop
  | .infixOp _ lhe op rhe =>
    AllDefined p lhe ∧ AllDefined p rhe ∧ (op.isDivision = true → denote p rhe ≠ 0)
  | .prefixOp _ _ rhe => AllDefined p rhe
  | .inlineSwitchOp _ cond ifTrue ifFalse =>
    AllDefined p cond ∧ AllDefined p ifTrue ∧ AllDefined p ifFalse
  | _ => True

/-- The first zero divisor from the left, if there is one, belongs to a division in the field. -/
def PanicFree (p : ℕ) : Expression → Prop
  | .infixOp _ lhe op rhe =>
    PanicFree p lhe ∧ (AllDefined p lhe → PanicFree p rhe) ∧
      (AllDefined p lhe → AllDefined p rhe → op = .intDiv ∨ op = .mod → denote p rhe ≠ 0)
  | .prefixOp _ _ rhe => PanicFree p rhe
  | .inlineSwitchOp _ cond ifTrue ifFalse =>
    PanicFree p cond ∧ (AllDefined p cond → PanicFree p ifTrue) ∧
      (AllDefined p cond → AllDefined p ifTrue → PanicFree p ifFalse)
  | _ => True

theorem AllDefined.panicFree : ∀ {e : Expression}, AllDefined p e → PanicFree p e
  | .infixOp _ _ op _, ⟨hl, hr, hdiv⟩ => by
    refine ⟨hl.panicFree, fun _ => hr.panicFree, ?_⟩
    intro _ _ hop
    apply hdiv
    rcases hop with rfl | rfl
    · rfl
    · rfl
  | .prefixOp _ _ rhe, h => AllDefined.panicFree (e := rhe) h
  | .inlineSwitchOp .., ⟨hc, ht, hf⟩ =>
    ⟨hc.panicFree, fun _ => ht.panicFree, fun _ _ => hf.panicFree⟩
  | .number .., _ => trivial
  | .parallelOp .., _ => trivial
  | .var .., _ => trivial
  | .call .., _ => trivial
  | .busCall .., _ => trivial
  | .anonymousComp .., _ => trivial
  | .arrayInLine .., _ => trivial
  | .tuple .., _ => trivial
  | .uniformArray .., _ => trivial

/-! ## One operator -/

theorem boolToBiguint_lt (hp : 1 < p) (b : Bool) : boolToBiguint b < p := by
  cases b
  all_goals simp only [boolToBiguint]
  · exact Nat.lt_of_succ_lt hp
  · exact hp

/-- With a divisor that is not zero every operator of the backend returns the canonical value. -/
theorem computeInfix_eq (hp : p.Prime) (hodd : Odd p) {a : ℕ} (ha : a < p) (hb : b < p) (op : ExpressionInfixOpcode)
    (h : op.isDivision = true → b ≠ 0) :
    ∃ n < p, computeInfix op a b p = .ok n ∧ (op.value a b p).getD 0 = (n : ℤ) := by
  have hpos : 0 < p := hp.pos
  have hone : 1 < p := hp.one_lt
  have hmod : ∀ n, n % p < p := fun n => Nat.mod_lt n hpos
  have hbool := boolToBiguint_lt hone
  cases op with
  | mul => exact ⟨_, hmod _, rfl, mul_eq hpos a b⟩
  | div =>
    obtain ⟨inverse, hunsigned, hsigned⟩ := modInverse_eq hp hb (h rfl)
    refine ⟨a * inverse % p, hmod _, ?_, ?_⟩
    · simp only [computeInfix, hunsigned]
    · have hdiv : Algebra.ModularArithmetic.div a b p = .ok ((a * inverse % p : ℕ) : ℤ) := by
        rw [Algebra.ModularArithmetic.div, hsigned]
        exact congrArg Except.ok (mul_eq hpos a inverse)
      simp only [ExpressionInfixOpcode.value, hdiv]
      rfl
  | add => exact ⟨_, hmod _, rfl, add_eq hpos a b⟩
  | sub => exact ⟨_, hmod _, rfl, sub_eq hpos hb a⟩
  | pow =>
    refine ⟨_, hmod _, rfl, ?_⟩
    simp only [ExpressionInfixOpcode.value, pow_eq hpos, Option.getD_some]
  | intDiv =>
    refine ⟨_, hmod (a / b), ?_, ?_⟩
    · simp only [computeInfix, if_neg (h rfl)]
    · simp only [ExpressionInfixOpcode.value, idiv_eq ha hb (h rfl)]
      rfl
  | mod =>
    refine ⟨a % b, (Nat.mod_le a b).trans_lt ha, ?_, ?_⟩
    · simp only [computeInfix, if_neg (h rfl)]
    · simp only [ExpressionInfixOpcode.value, modOp_eq ha hb (h rfl)]
      rfl
  | shiftL => exact ⟨_, computeShift_lt ha hb true, rfl, shiftL_eq hodd ha hb⟩
  | shiftR => exact ⟨_, computeShift_lt ha hb false, rfl, shiftR_eq hodd ha hb⟩
  | lesserEq => exact ⟨_, hbool _, rfl, lesserEq_eq hone ha hb⟩
  | greaterEq => exact ⟨_, hbool _, rfl, greaterEq_eq hone ha hb⟩
  | lesser => exact ⟨_, hbool _, rfl, lesser_eq ha hb⟩
  | greater => exact ⟨_, hbool _, rfl, greater_eq hone ha hb⟩
  | eq => exact ⟨_, hbool _, rfl, eq_eq ha hb⟩
  | notEq => exact ⟨_, hbool _, rfl, notEq_eq hone ha hb⟩
  | boolOr => exact ⟨_, hbool _, rfl, boolOr_eq ha hb⟩
  | boolAnd => exact ⟨_, hbool _, rfl, boolAnd_eq ha hb⟩
  | bitOr => exact ⟨_, hmod _, rfl, bitOr_eq hpos a b⟩
  | bitAnd => exact ⟨_, Nat.and_le_left.trans_lt ha, rfl, bitAnd_eq ha⟩
  | bitXor => exact ⟨_, hmod _, rfl, bitXor_eq hpos a b⟩

/-- A zero divisor is an error for a division and a panic for the other two. -/
theorem computeInfix_zero (hp : 1 < p) (a : ℕ) (h : op.isDivision = true) :
    ∃ f, computeInfix op a 0 p = .error f ∧ (f = .panicked ↔ op = .intDiv ∨ op = .mod) := by
  have hop : op = .div ∨ op = .intDiv ∨ op = .mod := of_decide_eq_true h
  rcases hop with rfl | rfl | rfl
  · refine ⟨.error "failed to compute inverse", ?_, by simp⟩
    simp only [computeInfix, modInverse_zero hp]
  · exact ⟨.panicked, rfl, by simp⟩
  · exact ⟨.panicked, rfl, by simp⟩

theorem computePrefix_eq (hp : 1 < p) (hb : b < p) (op : ExpressionPrefixOpcode) :
    computePrefix op b p < p ∧ op.value b p = (computePrefix op b p : ℤ) := by
  have hpos : 0 < p := Nat.lt_of_succ_lt hp
  cases op with
  | sub =>
    refine ⟨?_, prefixSub_eq hb⟩
    simp only [computePrefix]
    split_ifs
    · exact hb
    · omega
  | boolNot =>
    have hnot : computePrefix .boolNot b p = boolToBiguint !decide (b ≠ 0) := by
      by_cases h : b = 0
      · simp [computePrefix, boolToBiguint, h]
      · simp [computePrefix, boolToBiguint, h]
    have hnormal := normalize_eq_boolToBiguint hb
    refine ⟨hnot ▸ boolToBiguint_lt hp _, ?_⟩
    rw [hnot, ← not_boolToBiguint hp]
    show (Algebra.ModularArithmetic.normalize b p + 1).tmod 2 =
      (Algebra.ModularArithmetic.normalize (boolToBiguint _) p + 1).tmod 2
    rw [normalize_boolToBiguint hp, hnormal]
  | complement => exact ⟨Nat.mod_lt _ hpos, complement_eq hpos hb⟩

/-! ## Whole expressions -/

/-- What the folder does with an expression: its value if all divisors are good, else an error, which is
a panic if the divisor it stops at is one of an integer division or a remainder. -/
def Outcome (p : ℕ) (e : Expression) : Prop :=
  (AllDefined p e ∧ ∃ n < p, tryComputeBiguint p e = .ok (some n) ∧ denote p e = (n : ℤ)) ∨
    (¬ AllDefined p e ∧ ∃ f, tryComputeBiguint p e = .error f ∧ (f = .panicked ↔ ¬ PanicFree p e))

theorem outcome_infixOp (hp : p.Prime) (hodd : Odd p) (info : Meta) (lhe : Expression)
    (op : ExpressionInfixOpcode) (rhe : Expression) (hl : Outcome p lhe) (hr : Outcome p rhe) :
    Outcome p (.infixOp info lhe op rhe) := by
  rcases hl with ⟨hdl, a, ha, hal, hval⟩ | ⟨hdl, f, hf, hpanic⟩
  · rcases hr with ⟨hdr, b, hb, hbr, hvbr⟩ | ⟨hdr, f, hf, hpanic⟩
    · by_cases hdiv : op.isDivision = true → b ≠ 0
      · -- both operands have a value and so has the operator
        obtain ⟨n, hn, hres, hval'⟩ := computeInfix_eq hp hodd ha hb op hdiv
        left
        refine ⟨⟨hdl, hdr, ?_⟩, n, hn, ?_, ?_⟩
        · rw [hvbr]
          exact fun h => Nat.cast_ne_zero.mpr (hdiv h)
        · simp only [tryComputeBiguint, hal, hbr, hres, bind, Except.bind]
        · simp only [denote, hval, hvbr]
          exact hval'
      · -- the divisor of this operator is zero
        obtain ⟨hop, hzero⟩ : op.isDivision = true ∧ b = 0 := by
          by_contra hcon
          exact hdiv fun h h0 => hcon ⟨h, h0⟩
        subst hzero
        obtain ⟨f, hf, hpanic⟩ := computeInfix_zero hp.one_lt a hop
        right
        refine ⟨fun h => h.2.2 hop hvbr, f, ?_, ?_⟩
        · simp only [tryComputeBiguint, hal, hbr, hf, bind, Except.bind]
        · rw [hpanic]
          constructor
          · exact fun h hfree => hfree.2.2 hdl hdr h hvbr
          · intro h
            by_contra hcon
            exact h ⟨hdl.panicFree, fun _ => hdr.panicFree, fun _ _ h' => absurd h' hcon⟩
    · right
      refine ⟨fun h => hdr h.2.1, f, ?_, ?_⟩
      · simp only [tryComputeBiguint, hal, hf, bind, Except.bind]
      · rw [hpanic]
        constructor
        · exact fun h hfree => h (hfree.2.1 hdl)
        · exact fun h hfree => h ⟨hdl.panicFree, fun _ => hfree, fun _ h' => absurd h' hdr⟩
  · right
    refine ⟨fun h => hdl h.1, f, ?_, ?_⟩
    · simp only [tryComputeBiguint, hf, bind, Except.bind]
    · rw [hpanic]
      constructor
      · exact fun h hfree => h hfree.1
      · exact fun h hfree => h ⟨hfree, fun h' => absurd h' hdl, fun h' => absurd h' hdl⟩

theorem outcome_prefixOp (hp : 1 < p) (info : Meta) (op : ExpressionPrefixOpcode) (rhe : Expression)
    (hr : Outcome p rhe) : Outcome p (.prefixOp info op rhe) := by
  rcases hr with ⟨hdr, b, hb, hbr, hval⟩ | ⟨hdr, f, hf, hpanic⟩
  · obtain ⟨hlt, heq⟩ := computePrefix_eq hp hb op
    left
    refine ⟨hdr, computePrefix op b p, hlt, ?_, ?_⟩
    · simp only [tryComputeBiguint, hbr, bind, Except.bind]
    · simp only [denote, hval, heq]
  · right
    refine ⟨hdr, f, ?_, hpanic⟩
    simp only [tryComputeBiguint, hf, bind, Except.bind]

theorem outcome_inlineSwitchOp (info : Meta) (cond ifTrue ifFalse : Expression)
    (hc : Outcome p cond) (ht : Outcome p ifTrue) (hf : Outcome p ifFalse) :
    Outcome p (.inlineSwitchOp info cond ifTrue ifFalse) := by
  rcases hc with ⟨hdc, a, ha, hac, hvc⟩ | ⟨hdc, f, hfc, hpanic⟩
  · rcases ht with ⟨hdt, b, hb, hbt, hvt⟩ | ⟨hdt, f, hft, hpanic⟩
    · rcases hf with ⟨hdf, c, hlt, hcf, hvf⟩ | ⟨hdf, f, hff, hpanic⟩
      · left
        refine ⟨⟨hdc, hdt, hdf⟩, if a ≠ 0 then b else c, ?_, ?_, ?_⟩
        · split_ifs
          · exact hb
          · exact hlt
        · simp only [tryComputeBiguint, hac, hbt, hcf, bind, Except.bind]
        · simp only [denote, hvc, hvt, hvf, asBool_eq ha, decide_eq_true_eq]
          split_ifs
          · rfl
          · rfl
      · right
        refine ⟨fun h => hdf h.2.2, f, ?_, ?_⟩
        · simp only [tryComputeBiguint, hac, hbt, hff, bind, Except.bind]
        · rw [hpanic]
          constructor
          · exact fun h hfree => h (hfree.2.2 hdc hdt)
          · exact fun h hfree => h ⟨hdc.panicFree, fun _ => hdt.panicFree, fun _ _ => hfree⟩
    · right
      refine ⟨fun h => hdt h.2.1, f, ?_, ?_⟩
      · simp only [tryComputeBiguint, hac, hft, bind, Except.bind]
      · rw [hpanic]
        constructor
        · exact fun h hfree => h (hfree.2.1 hdc)
        · exact fun h hfree => h ⟨hdc.panicFree, fun _ => hfree, fun _ h' => absurd h' hdt⟩
  · right
    refine ⟨fun h => hdc h.1, f, ?_, ?_⟩
    · simp only [tryComputeBiguint, hfc, bind, Except.bind]
    · rw [hpanic]
      constructor
      · exact fun h hfree => h hfree.1
      · exact fun h hfree => h ⟨hfree, fun h' => absurd h' hdc, fun h' => absurd h' hdc⟩

theorem outcome (hp : p.Prime) (hodd : Odd p) (he : e.Closed) : Outcome p e := by
  induction e, he using closed_induction with
  | number info value h =>
    left
    refine ⟨trivial, value.toNat % p, Nat.mod_lt _ hp.pos, ?_, ?_⟩
    · simp only [tryComputeBiguint, if_pos h]
    · rw [denote, ← modulus_natCast hp.pos, Int.toNat_of_nonneg h]
  | infixOp info lhe op rhe _ _ ihl ihr => exact outcome_infixOp hp hodd info lhe op rhe ihl ihr
  | prefixOp info op rhe _ ih => exact outcome_prefixOp hp.one_lt info op rhe ih
  | inlineSwitchOp info cond ifTrue ifFalse _ _ _ ihc iht ihf =>
    exact outcome_inlineSwitchOp info cond ifTrue ifFalse ihc iht ihf

/-! ## Evaluation -/

theorem apply_eq_ok {a b v : ℤ} (h : op.apply a b p = .ok v) : op.value a b p = some v := by
  rw [ExpressionInfixOpcode.apply] at h
  split at h
  · rename_i w hw
    cases h
    exact hw
  · cases h

theorem apply_eq_zeroDivisor {a b : ℤ}
    (h : op.apply a b p = .error .zeroDivisor) : op.value a b p = none ∧ op.isDivision = true := by
  rw [ExpressionInfixOpcode.apply] at h
  split at h
  · cases h
  · rename_i hnone
    refine ⟨hnone, ?_⟩
    by_contra hcon
    rw [if_neg hcon] at h
    cases h

/-- Where the evaluation returns, it returns the value of the expression. -/
theorem evaluate_eq_denote (he : e.Closed) : ∀ {v : ℤ}, e.evaluate p = .ok v → v = denote p e := by
  induction e, he using closed_induction with
  | number info value h =>
    intro v hv
    cases hv
    rfl
  | infixOp info lhe op rhe _ _ ihl ihr =>
    intro v hv
    obtain ⟨a, hl, hv⟩ := bind_eq_ok hv
    obtain ⟨b, hr, hv⟩ := bind_eq_ok hv
    rw [denote, ← ihl hl, ← ihr hr, apply_eq_ok hv, Option.getD_some]
  | prefixOp info op rhe _ ih =>
    intro v hv
    obtain ⟨b, hr, hv⟩ := bind_eq_ok hv
    cases hv
    rw [denote, ← ih hr]
  | inlineSwitchOp info cond ifTrue ifFalse _ _ _ ihc iht ihf =>
    intro v hv
    obtain ⟨c, hc, hv⟩ := bind_eq_ok hv
    rw [denote, ← ihc hc]
    split_ifs at hv ⊢
    · exact iht hv
    · exact ihf hv

/-- A division has a value unless the divisor is zero. -/
theorem value_isSome (hp : p.Prime) {a : ℕ} (ha : a < p) (hb : b < p) (h0 : b ≠ 0)
    (hop : op.isDivision = true) : op.value a b p ≠ none := by
  have hcases : op = .div ∨ op = .intDiv ∨ op = .mod := of_decide_eq_true hop
  rcases hcases with rfl | rfl | rfl
  · obtain ⟨inverse, -, hsigned⟩ := modInverse_eq hp hb h0
    simp [ExpressionInfixOpcode.value, Algebra.ModularArithmetic.div, hsigned, Except.toOption]
  · simp [ExpressionInfixOpcode.value, idiv_eq ha hb h0, Except.toOption]
  · simp [ExpressionInfixOpcode.value, modOp_eq ha hb h0, Except.toOption]

/-- A zero divisor that the evaluation meets is one of the whole expression. -/
theorem not_allDefined_of_zeroDivisor (hp : p.Prime) (hodd : Odd p)
    (he : e.Closed) : e.evaluate p = .error .zeroDivisor → ¬ AllDefined p e := by
  induction e, he using closed_induction with
  | number info value h =>
    intro hv
    cases hv
  | infixOp info lhe op rhe hcl hcr ihl ihr =>
    intro hv hdef
    rcases bind_eq_error hv with hl | ⟨a, hl, hv⟩
    · exact ihl hl hdef.1
    rcases bind_eq_error hv with hr | ⟨b, hr, hv⟩
    · exact ihr hr hdef.2.1
    obtain ⟨hnone, hop⟩ := apply_eq_zeroDivisor hv
    have hzero := hdef.2.2 hop
    rcases outcome hp hodd hcl with ⟨-, m, hm, -, hdl⟩ | ⟨hdl, -⟩
    · rcases outcome hp hodd hcr with ⟨-, n, hn, -, hdr⟩ | ⟨hdr, -⟩
      · rw [evaluate_eq_denote hcl hl, evaluate_eq_denote hcr hr, hdl, hdr] at hnone
        rw [hdr] at hzero
        exact value_isSome hp hm hn (fun h => hzero (congrArg Nat.cast h)) hop hnone
      · exact hdr hdef.2.1
    · exact hdl hdef.1
  | prefixOp info op rhe _ ih =>
    intro hv
    rcases bind_eq_error hv with hr | ⟨b, -, hv⟩
    · exact ih hr
    · cases hv
  | inlineSwitchOp info cond ifTrue ifFalse _ _ _ ihc iht ihf =>
    intro hv hdef
    rcases bind_eq_error hv with hc | ⟨c, -, hv⟩
    · exact ihc hc hdef.1
    · split_ifs at hv
      · exact iht hv hdef.2.1
      · exact ihf hv hdef.2.2

/-! ## The folder and the evaluation -/

/-- The folder does not panic, returns every value the evaluation returns, and no value where the
evaluation divides by zero. -/
def Agrees (p : ℕ) (e : Expression) : Prop :=
  tryComputeBiguint p e ≠ .error .panicked ∧
    (∀ v, e.evaluate p = .ok v → ∃ n < p, tryComputeBiguint p e = .ok (some n) ∧ v = (n : ℤ)) ∧
    (e.evaluate p = .error .zeroDivisor → ∀ n, tryComputeBiguint p e ≠ .ok (some n))

/-- The folding of a closed expression agrees with its evaluation if and only if it does not panic at the first zero
divisor from the left, and no branch that is not taken has a zero divisor when the expression has a value. -/
theorem tryComputeBiguint_agrees_iff (hp : p.Prime) (hodd : Odd p) {e : Expression} (he : e.Closed) :
    Agrees p e ↔ PanicFree p e ∧ (∀ v, e.evaluate p = .ok v → AllDefined p e) := by
  rcases outcome hp hodd he with ⟨hdef, n, hn, hres, hval⟩ | ⟨hdef, f, hf, hpanic⟩
  · refine iff_of_true ⟨?_, ?_, ?_⟩ ⟨hdef.panicFree, fun _ _ => hdef⟩
    · rw [hres]
      exact fun h => by cases h
    · intro v hv
      exact ⟨n, hn, hres, by rw [evaluate_eq_denote he hv, hval]⟩
    · exact fun hzero => absurd hdef (not_allDefined_of_zeroDivisor hp hodd he hzero)
  · have hnone : ∀ n, tryComputeBiguint p e ≠ .ok (some n) := by
      intro n hn
      rw [hf] at hn
      cases hn
    constructor
    · rintro ⟨hfree, hvalue, -⟩
      refine ⟨?_, ?_⟩
      · by_contra hcon
        rw [hf, hpanic.mpr hcon] at hfree
        exact hfree rfl
      · intro v hv
        obtain ⟨n, -, hres, -⟩ := hvalue v hv
        exact absurd hres (hnone n)
    · rintro ⟨hfree, hvalue⟩
      refine ⟨?_, ?_, fun _ => hnone⟩
      · intro h
        rw [hf, Except.error.injEq] at h
        exact hpanic.mp h hfree
      · exact fun v hv => absurd (hvalue v hv) hdef

/-- The literals 3, 0 and 2 with `3 / 2` for a condition that holds. -/
example : tryComputeBiguint 7
    (.inlineSwitchOp ⟨0, 0, none⟩ (.number ⟨1, 0, none⟩ 1)
      (.infixOp ⟨2, 0, none⟩ (.number ⟨3, 0, none⟩ 3) .intDiv (.number ⟨4, 0, none⟩ 2))
      (.number ⟨5, 0, none⟩ 0)) = .ok (some 1) := rfl

theorem tryComputeBiguint_agrees_iff_seven :
    Agrees 7 (.infixOp ⟨0, 0, none⟩ (.number ⟨1, 0, none⟩ 9) .intDiv (.number ⟨2, 0, none⟩ 5)) := by
  have hclosed : Expression.Closed
      (.infixOp ⟨0, 0, none⟩ (.number ⟨1, 0, none⟩ 9) .intDiv (.number ⟨2, 0, none⟩ 5)) := by
    constructor
    all_goals simp only [Expression.Closed]
    all_goals omega
  have hdivisor : denote 7 (.number ⟨2, 0, none⟩ 5) ≠ 0 := by decide
  have hdefined : AllDefined 7
      (.infixOp ⟨0, 0, none⟩ (.number ⟨1, 0, none⟩ 9) .intDiv (.number ⟨2, 0, none⟩ 5)) :=
    ⟨trivial, trivial, fun _ => hdivisor⟩
  exact (tryComputeBiguint_agrees_iff (by norm_num) (by decide) hclosed).mpr
    ⟨hdefined.panicFree, fun _ _ => hdefined⟩

/-- The folder panics on `1 \ 0`, and refuses a switch whose other branch divides by zero. -/
theorem tryComputeBiguint_not_agrees :
    ¬ Agrees 7 (.infixOp ⟨0, 0, none⟩ (.number ⟨1, 0, none⟩ 1) .intDiv (.number ⟨2, 0, none⟩ 0)) ∧
    ¬ Agrees 7 (.inlineSwitchOp ⟨0, 0, none⟩ (.number ⟨1, 0, none⟩ 1) (.number ⟨2, 0, none⟩ 3)
      (.infixOp ⟨3, 0, none⟩ (.number ⟨4, 0, none⟩ 1) .div (.number ⟨5, 0, none⟩ 0))) := by
  refine ⟨fun h => h.1 rfl, fun h => ?_⟩
  obtain ⟨n, -, hres, -⟩ := h.2.1 3 rfl
  have herror : tryComputeBiguint 7
      (.inlineSwitchOp ⟨0, 0, none⟩ (.number ⟨1, 0, none⟩ 1) (.number ⟨2, 0, none⟩ 3)
        (.infixOp ⟨3, 0, none⟩ (.number ⟨4, 0, none⟩ 1) .div (.number ⟨5, 0, none⟩ 0))) =
      .error (.error "failed to compute inverse") := rfl
  rw [herror] at hres
  cases hres

end Circom.LlzkBackend
