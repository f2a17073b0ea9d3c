import Circom.Algebra.Proofs.Expression

/-!
# The representation rule of coefficient maps

The source states in a banner comment that every map inside an expression contains the constant key.
A run is a sequence of operator calls on a pool of expressions and substitutions, started empty. All
operators restore the rule except `apply_substitutions`, which drops a constant coefficient that
becomes zero and copies a right-hand side as it is.
-/

set_option linter.unusedSectionVars false

namespace Circom.Algebra

open Circom.Lib (HashMap)
open ModularArithmetic (InField ArithmeticError)

variable {K : Type} [DecidableEq K] [Inhabited K]
variable {e l r : ArithmeticExpression K} {m : HashMap K ℤ} {field : ℤ}

/-! ## Runs -/

/-- The binary operators. -/
inductive BinaryOp where
  | add | sub | mul | div | idiv | modOp | pow | shiftL | shiftR | bitOr | bitAnd | bitXor
  | boolOr | boolAnd | eq | notEq | lesser | lesserEq | greater | greaterEq

/-- The unary operators. -/
inductive UnaryOp where
  | prefixSub | complement | not

/-- Calls a binary operator. The outer `none` is a panic. -/
def BinaryOp.apply (op : BinaryOp) (l r : ArithmeticExpression K) (field : ℤ) :
    Option (Except ArithmeticError (ArithmeticExpression K)) :=
  match op with
  | .add => (l.add r field).map .ok
  | .sub => (l.sub r field).map .ok
  | .mul => some (.ok (l.mul r field))
  | .div => some (l.div r field)
  | .idiv => some (l.idiv r field)
  | .modOp => l.modOp r field
  | .pow => (l.pow r field).map .ok
  | .shiftL => some (l.shiftL r field)
  | .shiftR => some (l.shiftR r field)
  | .bitOr => some (.ok (l.bitOr r field))
  | .bitAnd => some (.ok (l.bitAnd r field))
  | .bitXor => some (.ok (l.bitXor r field))
  | .boolOr => some (.ok (l.boolOr r field))
  | .boolAnd => some (.ok (l.boolAnd r field))
  | .eq => some (.ok (l.eq r field))
  | .notEq => some (.ok (l.notEq r field))
  | .lesser => some (.ok (l.lesser r field))
  | .lesserEq => some (.ok (l.lesserEq r field))
  | .greater => some (.ok (l.greater r field))
  | .greaterEq => some (.ok (l.greaterEq r field))

/-- Calls a unary operator. -/
def UnaryOp.apply (op : UnaryOp) (e : ArithmeticExpression K) (field : ℤ) :
    ArithmeticExpression K :=
  match op with
  | .prefixSub => e.prefixSub field
  | .complement => e.complement field
  | .not => e.not field

/-- The values built so far. -/
structure Pool (K : Type) where
  exprs : List (ArithmeticExpression K)
  subs : List (Substitution K)

/-- One call; operands are positions in the pool. -/
inductive Operation (K : Type) where
  | number (value : ℤ)
  | signal (symbol : K)
  | binary (op : BinaryOp) (l r : ℕ)
  | unary (op : UnaryOp) (e : ℕ)
  | newSubstitution (fromSignal : K) (e : ℕ)
  | applySubstitutions (e s : ℕ)
  | hashmapIntoArith (s : ℕ)
  | decompose (s : ℕ)

def Pool.pushExpr (pool : Pool K) (e : ArithmeticExpression K) : Pool K :=
  { pool with exprs := pool.exprs ++ [e] }

/-- Executes a call and stores its result. A call that returns an error leaves the pool as it is; a
call that panics, or names a value that does not exist, ends the run. -/
def Pool.step (field : ℤ) (pool : Pool K) : Operation K → Option (Pool K)
  | .number value => some (pool.pushExpr (.number value))
  | .signal symbol => some (pool.pushExpr (.signal symbol))
  | .binary op l r => do
    match ← op.apply (← pool.exprs[l]?) (← pool.exprs[r]?) field with
    | .error _ => some pool
    | .ok e => some (pool.pushExpr e)
  | .unary op e => do some (pool.pushExpr (op.apply (← pool.exprs[e]?) field))
  | .newSubstitution fromSignal e => do
    match Substitution.new fromSignal (← pool.exprs[e]?) with
    | none => some pool
    | some s => some { pool with subs := pool.subs ++ [s] }
  | .applySubstitutions e s => do
    some (pool.pushExpr ((← pool.exprs[e]?).applySubstitutions (← pool.subs[s]?) field))
  | .hashmapIntoArith s => do
    some (pool.pushExpr (ArithmeticExpression.hashmapIntoArith (← pool.subs[s]?).toExpr))
  | .decompose s => do some (pool.pushExpr (← pool.subs[s]?).decompose.2)

def Pool.run (field : ℤ) (pool : Pool K) (ops : List (Operation K)) : Option (Pool K) :=
  ops.foldlM (Pool.step field) pool

/-! ## The rule and the condition under which it is kept -/

/-- A map obeys the rule: it has the constant key and canonical coefficients. -/
def ValidMap (field : ℤ) (m : HashMap K ℤ) : Prop :=
  constantCoefficient ∈ m ∧ CoeffsInField field m

/-- Every map inside the expression obeys the rule. -/
def ArithmeticExpression.Valid (field : ℤ) : ArithmeticExpression K → Prop
  | .linear m => ValidMap field m
  | .quadratic a b c => ValidMap field a ∧ ValidMap field b ∧ ValidMap field c
  | _ => True

def coefficient (m : HashMap K ℤ) (k : K) : ℤ := (m.lookup k).getD 0

/-- The constant coefficient after the substitution, before it is reduced. -/
def constantAfter (m : HashMap K ℤ) (s : Substitution K) : ℤ :=
  (if s.fromSignal = constantCoefficient then 0 else coefficient m constantCoefficient) +
    coefficient m s.fromSignal * coefficient s.toExpr constantCoefficient

/-- The constant coefficient of `m` does not vanish under the substitution. -/
def KeepsConstant (field : ℤ) (m : HashMap K ℤ) (s : Substitution K) : Prop :=
  ¬ field ∣ constantAfter m s

/-- When `apply_substitutions` keeps the rule: no constant coefficient vanishes, and a right-hand side
that replaces a whole expression obeys the rule itself. -/
def SubstitutionKeepsRule (field : ℤ) (s : Substitution K) : ArithmeticExpression K → Prop
  | .linear m => KeepsConstant field m s
  | .signal symbol => symbol = s.fromSignal → ValidMap field s.toExpr
  | .quadratic a b c => KeepsConstant field a s ∧ KeepsConstant field b s ∧ KeepsConstant field c s
  | _ => True

/-- The condition on one step of a run. -/
def Pool.StepOk (field : ℤ) (pool : Pool K) : Operation K → Prop
  | .applySubstitutions e s => ∀ expr sub, pool.exprs[e]? = some expr → pool.subs[s]? = some sub →
      SubstitutionKeepsRule field sub expr
  | _ => True

/-- The condition on all steps of a run. -/
def Pool.RunOk (field : ℤ) : Pool K → List (Operation K) → Prop
  | _, [] => True
  | pool, op :: ops =>
    pool.StepOk field op ∧ ∀ pool', pool.step field op = some pool' → RunOk field pool' ops

/-- What the operators can rely on in a pool that obeys the rule. -/
structure Pool.Valid (field : ℤ) (pool : Pool K) : Prop where
  exprs : ∀ e ∈ pool.exprs, e.Valid field
  subs : ∀ s ∈ pool.subs,
    (∃ v, s.toExpr.pairs = [(constantCoefficient, v)]) ∨ CoeffsInField field s.toExpr

/-! ## Maps -/

section Maps

variable {p : ℕ} [NeZero p]

/-- `rawSubstitution` keeps the constant key, with a coefficient congruent to `constantAfter`, unless
the constant itself is replaced and does not come back. -/
theorem lookup_constant_rawSubstitution (hm : ValidMap p m) (s : Substitution K) :
    ∃ v, (rawSubstitution m s p).lookup constantCoefficient = some v ∧ InField p v ∧
      (v : ZMod p) = constantAfter m s := by
  obtain ⟨c, hc⟩ := AList.mem_iff_exists_lookup.mp hm.1
  have hcm : coefficient m constantCoefficient = c := by rw [coefficient, hc]; rfl
  simp only [rawSubstitution, initialize_of_mem hm.1]
  cases hl : m.lookup s.fromSignal with
  | none =>
    have hne : s.fromSignal ≠ constantCoefficient := fun e => by rw [e, hc] at hl; cases hl
    refine ⟨c, hc, hm.2 _ _ hc, ?_⟩
    simp [constantAfter, hne, coefficient, hl, hc]
  | some v =>
    have hto : ∃ w, (multiplyCoefficientsByConstant v (initializeHashmapForExpression s.toExpr)
        p).lookup constantCoefficient = some w ∧
          (w : ZMod p) = coefficient s.toExpr constantCoefficient * v := by
      obtain ⟨w, hw⟩ := AList.mem_iff_exists_lookup.mp
        (ArithmeticExpression.mem_initialize_self s.toExpr)
      refine ⟨ModularArithmetic.mul w v p, ?_, ?_⟩
      · rw [multiplyCoefficientsByConstant, AList.lookup_mapValues, hw]; rfl
      · have := getD_initialized s.toExpr constantCoefficient
        rw [hw, Option.getD_some] at this
        rw [ModularArithmetic.cast_mul, coefficient, ← this]
    obtain ⟨w, hw, hwv⟩ := hto
    refine ⟨_, by simp only; rw [lookup_addCoefficients, hw], ModularArithmetic.add_inField _ _, ?_⟩
    rw [ModularArithmetic.cast_add, hwv, constantAfter]
    by_cases hne : s.fromSignal = constantCoefficient
    · rw [hne, AList.lookup_erase, if_pos rfl, hcm]
      rw [hne, hc] at hl
      cases hl
      push_cast
      simp [mul_comm]
    · have hv : coefficient m s.fromSignal = v := by rw [coefficient, hl]; rfl
      rw [AList.lookup_erase_ne (Ne.symm hne), hc, if_neg hne, hcm, hv]
      push_cast
      simp [mul_comm]

/-- Substituting into a valid map and dropping the zeros keeps the rule exactly when the constant
coefficient does not vanish. -/
theorem validMap_substitution_iff (hm : ValidMap p m) (s : Substitution K) :
    ValidMap p (removeZeroValueCoefficients (rawSubstitution m s p)) ↔ KeepsConstant p m s := by
  obtain ⟨v, hv, hvf, hvc⟩ := lookup_constant_rawSubstitution hm s
  have hz : constantCoefficient ∈ removeZeroValueCoefficients (rawSubstitution m s p) ↔ v ≠ 0 := by
    rw [AList.mem_iff_exists_lookup]
    constructor
    · rintro ⟨w, hw⟩
      obtain ⟨h1, h2⟩ := (lookup_removeZero _ _ _).mp hw
      rw [hv] at h1
      cases h1
      exact h2
    · exact fun h => ⟨v, (lookup_removeZero _ _ _).mpr ⟨hv, h⟩⟩
  have hd : (p : ℤ) ∣ constantAfter m s ↔ v = 0 := by
    rw [← ZMod.intCast_zmod_eq_zero_iff_dvd, ← hvc, ModularArithmetic.cast_eq_zero_iff hvf]
  unfold ValidMap KeepsConstant
  rw [hz, hd]
  exact ⟨fun h => h.1, fun h => ⟨h, coeffsInField_removeZero (coeffsInField_rawSubstitution hm.2 s)⟩⟩

theorem validMap_addSymbol (hm : ValidMap p m) (s : K) (c : ℤ) : ValidMap p (addSymbolToCoefficients s c m p) :=
  ⟨mem_addSymbol.mpr (Or.inr hm.1), coeffsInField_addSymbol hm.2 s c⟩

theorem validMap_initialized (hm : CoeffsInField p m) : ValidMap p (initializeHashmapForExpression m) :=
  ⟨ArithmeticExpression.mem_initialize_self m, coeffsInField_initialized hm⟩

theorem validMap_initialize_empty :
    ValidMap p (initializeHashmapForExpression (∅ : HashMap K ℤ)) :=
  validMap_initialized (Constraint.coeffsInField_empty _)

theorem validMap_singleSymbol (s : K) (c : ℤ) :
    ValidMap p (ArithmeticExpression.singleSymbol s c p) :=
  validMap_addSymbol validMap_initialize_empty s c

theorem validMap_addCoefficients {m1 : HashMap K ℤ} (h1 : ValidMap p m1) (m0 : HashMap K ℤ) :
    ValidMap p (addCoefficientsToCoefficients m0 m1 p) :=
  ⟨mem_addCoefficients.mpr (Or.inr h1.1), coeffsInField_addCoefficients h1.2 m0⟩

theorem validMap_addConstant {m' : HashMap K ℤ} (hm : ValidMap p m) {v : ℤ}
    (h : addConstantToCoefficients v m p = some m') : ValidMap p m' := by
  rw [addConstant_eq_some hm.1] at h
  cases h
  exact validMap_addSymbol hm _ _

theorem validMap_multiply (hm : ValidMap p m) (c : ℤ) : ValidMap p (multiplyCoefficientsByConstant c m p) :=
  ⟨mem_multiplyCoefficients.mpr hm.1, coeffsInField_multiply c m⟩

theorem validMap_divide {m' : HashMap K ℤ} (hm : ValidMap p m) {c : ℤ}
    (h : divideCoefficientsByConstant c m p = .ok m') : ValidMap p m' := by
  unfold divideCoefficientsByConstant at h
  cases hd : ModularArithmetic.div 1 c p with
  | error e => rw [hd] at h; cases h
  | ok v => rw [hd] at h; cases h; exact validMap_multiply hm v

end Maps

/-! ## Operators -/

section Operators

variable {p : ℕ} [hp : Fact p.Prime]

namespace ArithmeticExpression

/-- A valid expression has the constant key in all its maps. -/
theorem Valid.hasConstant (h : e.Valid field) : e.HasConstant := by
  cases e
  case linear m => exact h.1
  case quadratic a b c => exact ⟨h.1.1, h.2.1.1, h.2.2.1⟩
  all_goals trivial

theorem add_valid (hl : l.Valid p) (hr : r.Valid p) (h : add l r p = some e) : e.Valid p := by
  have hz := validMap_initialize_empty (p := p) (K := K)
  cases l <;> cases r
  case number.signal | signal.number =>
    obtain ⟨m, hm, rfl⟩ := Option.map_eq_some_iff.mp (by simpa [add, Option.map_eq_bind] using h)
    exact validMap_addSymbol (validMap_addConstant hz hm) _ _
  case number.linear =>
    obtain ⟨m, hm, rfl⟩ := Option.map_eq_some_iff.mp (by simpa [add, Option.map_eq_bind] using h)
    exact validMap_addConstant hr hm
  case linear.number =>
    obtain ⟨m, hm, rfl⟩ := Option.map_eq_some_iff.mp (by simpa [add, Option.map_eq_bind] using h)
    exact validMap_addConstant hl hm
  case number.quadratic =>
    obtain ⟨m, hm, rfl⟩ := Option.map_eq_some_iff.mp (by simpa [add, Option.map_eq_bind] using h)
    exact ⟨hr.1, hr.2.1, validMap_addConstant hr.2.2 hm⟩
  case quadratic.number =>
    obtain ⟨m, hm, rfl⟩ := Option.map_eq_some_iff.mp (by simpa [add, Option.map_eq_bind] using h)
    exact ⟨hl.1, hl.2.1, validMap_addConstant hl.2.2 hm⟩
  all_goals
    simp only [add, Option.some.injEq] at h
    subst h
  case signal.signal => exact validMap_addSymbol (validMap_singleSymbol _ _) _ _
  case signal.linear => exact validMap_addSymbol hr _ _
  case linear.signal => exact validMap_addSymbol hl _ _
  case signal.quadratic => exact ⟨hr.1, hr.2.1, validMap_addSymbol hr.2.2 _ _⟩
  case quadratic.signal => exact ⟨hl.1, hl.2.1, validMap_addSymbol hl.2.2 _ _⟩
  case linear.linear => exact validMap_addCoefficients hr _
  case linear.quadratic => exact ⟨hr.1, hr.2.1, validMap_addCoefficients hr.2.2 _⟩
  case quadratic.linear => exact ⟨hl.1, hl.2.1, validMap_addCoefficients hl.2.2 _⟩
  all_goals trivial

theorem mul_valid (hl : l.Valid p) (hr : r.Valid p) : (mul l r p).Valid p := by
  have hz := validMap_initialize_empty (p := p) (K := K)
  have hs := fun s c => validMap_singleSymbol (p := p) (K := K) s c
  cases l <;> cases r
  case number.signal | signal.number => exact hs _ _
  case number.linear => exact validMap_multiply hr _
  case linear.number => exact validMap_multiply hl _
  case number.quadratic => exact ⟨validMap_multiply hr.1 _, hr.2.1, validMap_multiply hr.2.2 _⟩
  case quadratic.number => exact ⟨validMap_multiply hl.1 _, hl.2.1, validMap_multiply hl.2.2 _⟩
  case signal.signal => exact ⟨hs _ _, hs _ _, hz⟩
  case signal.linear => exact ⟨hr, hs _ _, hz⟩
  case linear.signal => exact ⟨hl, hs _ _, hz⟩
  case linear.linear => exact ⟨hl, hr, hz⟩
  all_goals trivial

theorem div_valid (hl : l.Valid p) (h : div l r p = .ok e) : e.Valid p := by
  cases l <;> cases r
  case number.number v0 v1 =>
    cases hd : ModularArithmetic.div v0 v1 p with
    | error e => simp only [div, hd] at h; cases h
    | ok v => simp only [div, hd] at h; cases h; trivial
  case signal.number s v =>
    cases hd : divideCoefficientsByConstant v (singleSymbol s 1 p) p with
    | error e => simp only [div, hd] at h; cases h
    | ok m => simp only [div, hd] at h; cases h; exact validMap_divide (validMap_singleSymbol _ _) hd
  case linear.number m v =>
    cases hd : divideCoefficientsByConstant v m p with
    | error e => simp only [div, hd] at h; cases h
    | ok m' => simp only [div, hd] at h; cases h; exact validMap_divide hl hd
  case quadratic.number a b c v =>
    cases hda : divideCoefficientsByConstant v a p with
    | error e => simp only [div, hda] at h; cases h
    | ok a' =>
      cases hdc : divideCoefficientsByConstant v c p with
      | error e => simp only [div, hda, hdc] at h; cases h
      | ok c' =>
        simp only [div, hda, hdc] at h
        cases h
        exact ⟨validMap_divide hl.1 hda, hl.2.1, validMap_divide hl.2.2 hdc⟩
  all_goals
    simp only [div, Except.ok.injEq] at h
    subst h
    trivial

theorem pow_valid (hl : l.Valid p) (h : pow l r p = some e) : e.Valid p := by
  cases l <;> cases r
  case number.number v0 v1 =>
    cases hd : ModularArithmetic.pow v0 v1 p with
    | none => simp only [pow, hd] at h; cases h
    | some v => simp only [pow, hd] at h; cases h; trivial
  case signal.number =>
    simp only [pow] at h
    split_ifs at h
    · cases h; exact mul_valid trivial trivial
    · cases h; trivial
  case linear.number m v =>
    simp only [pow] at h
    split_ifs at h
    · cases h; exact mul_valid (l := .linear m) (r := .linear m) hl hl
    · cases h; trivial
  all_goals
    simp only [pow, Option.some.injEq] at h
    subst h
    trivial

/-- The operators on numbers build no map. -/
theorem numberOp2_valid (f : ℤ → ℤ → ℤ → ℤ) (l r : ArithmeticExpression K) (field : ℤ) :
    (numberOp2 f l r field).Valid field := by
  unfold numberOp2; split <;> trivial

theorem numberOp1_valid (f : ℤ → ℤ → ℤ) (e : ArithmeticExpression K) (field : ℤ) :
    (numberOp1 f e field).Valid field := by
  unfold numberOp1; split <;> trivial

theorem numberResult2_valid {f : ℤ → ℤ → ℤ → Except ArithmeticError ℤ} (h : numberResult2 f l r field = .ok e) :
    e.Valid field := by
  unfold numberResult2 at h
  split at h
  · rename_i v0 v1
    cases hf : f v0 v1 field with
    | error e => rw [hf] at h; cases h
    | ok v => rw [hf] at h; cases h; trivial
  · cases h; trivial

theorem modOp_valid (h : modOp l r field = some (.ok e)) : e.Valid field := by
  unfold modOp at h
  split at h
  · rename_i v0 v1
    cases hf : ModularArithmetic.modOp v0 v1 field with
    | none => rw [hf] at h; cases h
    | some w =>
      cases w with
      | error e => rw [hf] at h; cases h
      | ok v => rw [hf] at h; cases h; trivial
  · cases h; trivial

theorem sub_valid (hl : l.Valid p) (hr : r.Valid p) (h : sub l r p = some e) : e.Valid p :=
  add_valid hl (mul_valid (l := .number (-1)) trivial hr) h

end ArithmeticExpression

open ArithmeticExpression

theorem BinaryOp.apply_valid {op : BinaryOp} (hl : l.Valid p)
    (hr : r.Valid p) (h : op.apply l r p = some (.ok e)) : e.Valid p := by
  cases op
  case add =>
    obtain ⟨e', he, heq⟩ := Option.map_eq_some_iff.mp h
    cases heq; exact add_valid hl hr he
  case sub =>
    obtain ⟨e', he, heq⟩ := Option.map_eq_some_iff.mp h
    cases heq; exact sub_valid hl hr he
  case pow =>
    obtain ⟨e', he, heq⟩ := Option.map_eq_some_iff.mp h
    cases heq; exact pow_valid hl he
  case mul => cases h; exact mul_valid hl hr
  case div => exact div_valid hl (Option.some.inj h)
  case modOp => exact modOp_valid h
  case idiv | shiftL | shiftR => exact numberResult2_valid (Option.some.inj h)
  all_goals
    cases h
    exact numberOp2_valid _ _ _ _

theorem UnaryOp.apply_valid (op : UnaryOp) (he : e.Valid p) : (op.apply e p).Valid p := by
  cases op
  case prefixSub => exact mul_valid (r := .number (-1)) he trivial
  all_goals exact numberOp1_valid _ _ _

/-! ## Substitutions -/

theorem hashmapIntoArith_valid (h : (∃ v, m.pairs = [(constantCoefficient, v)]) ∨ CoeffsInField p m) :
    (hashmapIntoArith m).Valid p := by
  rcases h with ⟨v, hv⟩ | h
  · simp only [hashmapIntoArith, hv, if_true]; trivial
  · have hi := validMap_initialized h
    unfold hashmapIntoArith
    split
    · split_ifs
      · trivial
      · trivial
      · exact hi
    · exact hi

theorem Substitution.new_valid {k : K} (he : e.Valid p) {s : Substitution K} (h : Substitution.new k e = some s) :
    (∃ v, s.toExpr.pairs = [(constantCoefficient, v)]) ∨ CoeffsInField p s.toExpr := by
  cases e
  case number v => cases h; exact Or.inl ⟨v, rfl⟩
  case signal symbol =>
    cases h
    right
    intro k' v' hv
    by_cases hk : k' = symbol
    · subst hk
      rw [AList.lookup_insert] at hv
      cases hv
      exact ModularArithmetic.one_inField
    · rw [AList.lookup_insert_ne hk, AList.lookup_empty] at hv
      cases hv
  case linear m =>
    simp only [Substitution.new] at h
    split_ifs at h
    cases h
    exact Or.inr he.2
  all_goals cases h

/-- `apply_substitutions` keeps the rule exactly under `SubstitutionKeepsRule`. -/
theorem applySubstitutions_valid_iff (he : e.Valid p)
    (s : Substitution K) : (e.applySubstitutions s p).Valid p ↔ SubstitutionKeepsRule p s e := by
  cases e
  case signal symbol =>
    simp only [applySubstitutions, SubstitutionKeepsRule]
    split_ifs with hs
    · simp [hs, Valid]
    · simp [hs, Valid]
  case linear m => exact validMap_substitution_iff he s
  case quadratic a b c =>
    exact and_congr (validMap_substitution_iff he.1 s)
      (and_congr (validMap_substitution_iff he.2.1 s) (validMap_substitution_iff he.2.2 s))
  all_goals exact Iff.rfl

/-! ## Runs keep the rule -/

variable {pool : Pool K}

theorem Pool.Valid.pushExpr (h : pool.Valid p) (he : e.Valid p) : (pool.pushExpr e).Valid p := by
  refine ⟨fun x hx => ?_, h.subs⟩
  rcases List.mem_append.mp hx with hx | hx
  · exact h.exprs x hx
  · rw [List.mem_singleton.mp hx]; exact he

/-- One call keeps the rule, provided a substitution call meets its condition. -/
theorem Pool.step_valid {pool' : Pool K} {op : Operation K} (hv : pool.Valid p) (hok : pool.StepOk p op)
    (h : pool.step p op = some pool') : pool'.Valid p := by
  have hex : ∀ {i : ℕ} {e}, pool.exprs[i]? = some e → e.Valid p := fun h =>
    hv.exprs _ (List.mem_of_getElem? h)
  have hsub : ∀ {i : ℕ} {s}, pool.subs[i]? = some s → _ := fun {i s} h =>
    hv.subs s (List.mem_of_getElem? h)
  cases op
  case number | signal => cases h; exact hv.pushExpr trivial
  case binary op l r =>
    simp only [Pool.step, Option.bind_eq_bind, Option.bind_eq_some_iff] at h
    obtain ⟨a, ha, b, hb, x, hx, h⟩ := h
    cases x with
    | error e => cases h; exact hv
    | ok e => cases h; exact hv.pushExpr (BinaryOp.apply_valid (hex ha) (hex hb) hx)
  case unary op e =>
    simp only [Pool.step, Option.bind_eq_bind, Option.bind_eq_some_iff] at h
    obtain ⟨a, ha, h⟩ := h
    cases h; exact hv.pushExpr (UnaryOp.apply_valid op (hex ha))
  case newSubstitution k e =>
    simp only [Pool.step, Option.bind_eq_bind, Option.bind_eq_some_iff] at h
    obtain ⟨a, ha, h⟩ := h
    cases hn : Substitution.new k a with
    | none => rw [hn] at h; cases h; exact hv
    | some s =>
      rw [hn] at h
      cases h
      refine ⟨hv.exprs, fun x hx => ?_⟩
      rcases List.mem_append.mp hx with hx | hx
      · exact hv.subs x hx
      · rw [List.mem_singleton.mp hx]; exact Substitution.new_valid (hex ha) hn
  case applySubstitutions e s =>
    simp only [Pool.step, Option.bind_eq_bind, Option.bind_eq_some_iff] at h
    obtain ⟨a, ha, b, hb, h⟩ := h
    cases h
    exact hv.pushExpr ((applySubstitutions_valid_iff (hex ha) b).mpr (hok a b ha hb))
  case hashmapIntoArith s =>
    simp only [Pool.step, Option.bind_eq_bind, Option.bind_eq_some_iff] at h
    obtain ⟨a, ha, h⟩ := h
    cases h; exact hv.pushExpr (hashmapIntoArith_valid (hsub ha))
  case decompose s =>
    simp only [Pool.step, Option.bind_eq_bind, Option.bind_eq_some_iff] at h
    obtain ⟨a, ha, h⟩ := h
    cases h; exact hv.pushExpr (hashmapIntoArith_valid (hsub ha))

theorem Pool.run_valid {ops : List (Operation K)} {pool' : Pool K} (hv : pool.Valid p) (hok : pool.RunOk p ops)
    (h : pool.run p ops = some pool') : pool'.Valid p := by
  induction ops generalizing pool with
  | nil => cases h; exact hv
  | cons op ops ih =>
    simp only [Pool.run, List.foldlM_cons, Option.bind_eq_bind, Option.bind_eq_some_iff] at h
    obtain ⟨pool1, h1, h2⟩ := h
    exact ih (Pool.step_valid hv hok.1 h1) (hok.2 pool1 h1) h2

/-- In every run whose substitution calls meet their condition, all expressions built obey the rule,
and no addition or subtraction of them panics on a missing constant coefficient. -/
theorem Pool.run_keeps_rule {ops : List (Operation K)} {pool : Pool K}
    (hok : Pool.RunOk p ⟨[], []⟩ ops) (h : Pool.run p ⟨[], []⟩ ops = some pool) :
    (∀ e ∈ pool.exprs, e.Valid p) ∧
      ∀ l ∈ pool.exprs, ∀ r ∈ pool.exprs,
        (∃ e, l.add r p = some e) ∧ ∃ e, l.sub r p = some e := by
  have hv : pool.Valid p :=
    Pool.run_valid ⟨by simp, by simp⟩ hok h
  refine ⟨hv.exprs, fun l hl r hr => ?_⟩
  have hlc := (hv.exprs l hl).hasConstant
  have hrc := (hv.exprs r hr).hasConstant
  obtain ⟨e, he, -⟩ := add_spec (ρ := fun _ => (1 : ZMod p)) rfl hlc hrc
  obtain ⟨e', he', -⟩ := sub_spec (ρ := fun _ => (1 : ZMod p)) rfl hlc hrc
  exact ⟨⟨e, he⟩, ⟨e', he'⟩⟩

end Operators

/-- The calls `s1`, `s2`, `s1 + s2`, the substitution `s2 := s1` and its application. -/
def dropConstantRun : List (Operation ℕ) :=
  [.signal 1, .signal 2, .binary .add 0 1, .newSubstitution 2 0, .applySubstitutions 2 0, .number 3]

theorem Pool.RunOk.cons {pool pool' : Pool K} {op : Operation K}
    {ops : List (Operation K)} (h : pool.StepOk field op) (hstep : pool.step field op = some pool')
    (hrest : Pool.RunOk field pool' ops) : Pool.RunOk field pool (op :: ops) := by
  refine ⟨h, fun pool'' h'' => ?_⟩
  obtain rfl : pool' = pool'' := Option.some.inj (hstep.symm.trans h'')
  exact hrest

/-- The same substitution applied to `s1 + s2 + 3`, whose constant coefficient does not vanish. -/
def keepConstantRun : List (Operation ℕ) :=
  [.signal 1, .signal 2, .binary .add 0 1, .number 3, .binary .add 2 3, .newSubstitution 2 0,
    .applySubstitutions 4 0]

theorem Pool.run_keeps_rule_five :
    ∃ pool, Pool.run (5 : ℕ) ⟨[], []⟩ keepConstantRun = some pool ∧
      ∀ e ∈ pool.exprs, e.Valid (5 : ℕ) := by
  have : Fact (Nat.Prime 5) := ⟨by norm_num⟩
  have hrun : Pool.run (5 : ℕ) ⟨[], []⟩ keepConstantRun = some _ := rfl
  refine ⟨_, hrun, (Pool.run_keeps_rule (p := 5) ?_ hrun).1⟩
  refine .cons trivial rfl (.cons trivial rfl (.cons trivial rfl (.cons trivial rfl
    (.cons trivial rfl (.cons trivial rfl (.cons ?_ rfl trivial))))))
  intro expr sub hexpr hsub
  obtain rfl := Option.some.inj hexpr
  obtain rfl := Option.some.inj hsub
  show KeepsConstant _ _ _
  unfold KeepsConstant
  decide

/-- Replacing `s2` by `s1` in `s1 + s2` drops the constant coefficient, and the next addition of a
number panics. -/
theorem Pool.run_drops_constant :
    ¬ ∀ (ops : List (Operation ℕ)) (pool : Pool ℕ), Pool.run (5 : ℕ) ⟨[], []⟩ ops = some pool →
      (∀ e ∈ pool.exprs, e.Valid (5 : ℕ)) ∧
        ∀ l ∈ pool.exprs, ∀ r ∈ pool.exprs, l.add r (5 : ℕ) ≠ none := by
  intro h
  obtain ⟨pool, hrun, l, hl, r, hr, hpanic⟩ :
      ∃ pool, Pool.run (5 : ℕ) ⟨[], []⟩ dropConstantRun = some pool ∧
        ∃ l ∈ pool.exprs, ∃ r ∈ pool.exprs, l.add r (5 : ℕ) = none := by
    refine ⟨_, rfl, .linear ((∅ : HashMap ℕ ℤ).insert 1 2), ?_, .number 3, ?_, rfl⟩
    · exact List.mem_of_getElem? (i := 3) rfl
    · exact List.mem_of_getElem? (i := 4) rfl
  exact (h _ pool hrun).2 l hl r hr hpanic

end Circom.Algebra
