import Circom.Algebra.ModularArithmetic
import Circom.Lib.HashMap

/-!
# Arithmetic expressions

`ArithmeticExpression` of `circom_algebra::algebra`: the values of the symbolic execution. The type
of signals is a parameter; its default element is the key of the constant coefficient. The
`debug_assert!`s of the source are not part of the model; `unwrap` and `assert!` are, as `none`.
-/

namespace Circom.Algebra

open Circom.Lib (HashMap)
open ModularArithmetic (ArithmeticError)

/-- `a * b + c` with linear `a`, `b`, `c` is the most general form that can become a constraint. -/
inductive ArithmeticExpression (K : Type) where
  | number (value : ℤ)
  | signal (symbol : K)
  | linear (coefficients : HashMap K ℤ)
  | quadratic (a b c : HashMap K ℤ)
  | nonQuadratic

/-- A linear expression used as the replacement of a signal. -/
structure Substitution (K : Type) where
  /-- The replaced signal, `from` in the source. -/
  fromSignal : K
  /-- Its replacement, `to` in the source. -/
  toExpr : HashMap K ℤ

/-- The constraint `a * b - c = 0`. -/
structure Constraint (K : Type) where
  a : HashMap K ℤ
  b : HashMap K ℤ
  c : HashMap K ℤ
  deriving Inhabited

variable {K : Type} [DecidableEq K] [Inhabited K]

instance : DecidableEq (Substitution K) := fun s t =>
  decidable_of_iff (s.fromSignal = t.fromSignal ∧ s.toExpr = t.toExpr) (by cases s; cases t; simp)

instance : DecidableEq (Constraint K) := fun c d =>
  decidable_of_iff (c.a = d.a ∧ c.b = d.b ∧ c.c = d.c) (by cases c; cases d; simp)

/-! ## Coefficient maps -/

/-- The key of the constant coefficient. -/
def constantCoefficient : K := default

def initializeHashmapForExpression (initial : HashMap K ℤ) : HashMap K ℤ :=
  if constantCoefficient ∈ initial then initial else initial.insert constantCoefficient 0

def initializeSymbolInCoefficients (symbol : K) (coefficients : HashMap K ℤ) : HashMap K ℤ :=
  if symbol ∈ coefficients then coefficients else coefficients.insert symbol 0

/-- Panics on a map without the constant coefficient. -/
def addConstantToCoefficients (value : ℤ) (coefficients : HashMap K ℤ) (field : ℤ) :
    Option (HashMap K ℤ) := do
  let c ← coefficients.lookup constantCoefficient
  some (coefficients.insert constantCoefficient (ModularArithmetic.add c value field))

/-- The `unwrap` of the source cannot fail: the symbol has just been initialized. -/
def addSymbolToCoefficients (symbol : K) (coefficient : ℤ) (coefficients : HashMap K ℤ)
    (field : ℤ) : HashMap K ℤ :=
  let coefficients := initializeSymbolInCoefficients symbol coefficients
  let old := (coefficients.lookup symbol).getD 0
  coefficients.insert symbol (ModularArithmetic.add old coefficient field)

def addCoefficientsToCoefficients (coefficients0 coefficients1 : HashMap K ℤ) (field : ℤ) :
    HashMap K ℤ :=
  coefficients0.pairs.foldl (fun acc e => addSymbolToCoefficients e.1 e.2 acc field) coefficients1

def multiplyCoefficientsByConstant (constant : ℤ) (coefficients : HashMap K ℤ) (field : ℤ) :
    HashMap K ℤ :=
  coefficients.mapValues fun value => ModularArithmetic.mul value constant field

def divideCoefficientsByConstant (constant : ℤ) (coefficients : HashMap K ℤ) (field : ℤ) :
    Except ArithmeticError (HashMap K ℤ) := do
  let inverseConstant ← ModularArithmetic.div 1 constant field
  .ok (multiplyCoefficientsByConstant inverseConstant coefficients field)

def removeZeroValueCoefficients (rawExpression : HashMap K ℤ) : HashMap K ℤ :=
  AList.ofPairs (rawExpression.pairs.filter fun e => e.2 ≠ 0)

/-- Replaces a signal inside a coefficient map. Coefficients that become zero stay in the map. -/
def rawSubstitution (change : HashMap K ℤ) (substitution : Substitution K) (field : ℤ) :
    HashMap K ℤ :=
  let change := initializeHashmapForExpression change
  match change.lookup substitution.fromSignal with
  | none => change
  | some val =>
    let coefficients := initializeHashmapForExpression substitution.toExpr
    let coefficients := multiplyCoefficientsByConstant val coefficients field
    addCoefficientsToCoefficients coefficients (change.erase substitution.fromSignal) field

namespace ArithmeticExpression

/-! ## Arithmetic operators -/

/-- The empty map, initialized, plus `coefficient * symbol`. -/
def singleSymbol (symbol : K) (coefficient field : ℤ) : HashMap K ℤ :=
  addSymbolToCoefficients symbol coefficient (initializeHashmapForExpression ∅) field

def add (left right : ArithmeticExpression K) (field : ℤ) : Option (ArithmeticExpression K) :=
  match left, right with
  | .nonQuadratic, _ | _, .nonQuadratic | .quadratic .., .quadratic .. => some .nonQuadratic
  | .number v0, .number v1 => some (.number (ModularArithmetic.add v0 v1 field))
  | .number value, .signal symbol | .signal symbol, .number value => do
    let coefficients ←
      addConstantToCoefficients value (initializeHashmapForExpression ∅) field
    some (.linear (addSymbolToCoefficients symbol 1 coefficients field))
  | .number value, .linear coefficients | .linear coefficients, .number value => do
    some (.linear (← addConstantToCoefficients value coefficients field))
  | .number value, .quadratic a b c | .quadratic a b c, .number value => do
    some (.quadratic a b (← addConstantToCoefficients value c field))
  | .signal symbol0, .signal symbol1 =>
    some (.linear (addSymbolToCoefficients symbol1 1 (singleSymbol symbol0 1 field) field))
  | .signal symbol, .linear coefficients | .linear coefficients, .signal symbol =>
    some (.linear (addSymbolToCoefficients symbol 1 coefficients field))
  | .signal symbol, .quadratic a b c | .quadratic a b c, .signal symbol =>
    some (.quadratic a b (addSymbolToCoefficients symbol 1 c field))
  | .linear coefficients0, .linear coefficients1 =>
    some (.linear (addCoefficientsToCoefficients coefficients0 coefficients1 field))
  | .linear coefficients, .quadratic a b c | .quadratic a b c, .linear coefficients =>
    some (.quadratic a b (addCoefficientsToCoefficients coefficients c field))

def mul (left right : ArithmeticExpression K) (field : ℤ) : ArithmeticExpression K :=
  match left, right with
  | .nonQuadratic, _ | _, .nonQuadratic | .quadratic .., .quadratic .. | .quadratic .., .linear _
  | .linear _, .quadratic .. | .quadratic .., .signal _ | .signal _, .quadratic .. => .nonQuadratic
  | .number value0, .number value1 => .number (ModularArithmetic.mul value0 value1 field)
  | .number value, .signal symbol | .signal symbol, .number value =>
    .linear (singleSymbol symbol value field)
  | .number value, .linear coefficients | .linear coefficients, .number value =>
    .linear (multiplyCoefficientsByConstant value coefficients field)
  | .number value, .quadratic a b c | .quadratic a b c, .number value =>
    .quadratic (multiplyCoefficientsByConstant value a field) b
      (multiplyCoefficientsByConstant value c field)
  | .signal symbol0, .signal symbol1 =>
    .quadratic (singleSymbol symbol0 1 field) (singleSymbol symbol1 1 field)
      (initializeHashmapForExpression ∅)
  | .signal symbol, .linear coefficients | .linear coefficients, .signal symbol =>
    .quadratic coefficients (singleSymbol symbol 1 field) (initializeHashmapForExpression ∅)
  | .linear coefficients0, .linear coefficients1 =>
    .quadratic coefficients0 coefficients1 (initializeHashmapForExpression ∅)

def sub (left right : ArithmeticExpression K) (field : ℤ) : Option (ArithmeticExpression K) :=
  add left (mul (.number (-1)) right field) field

def div (left right : ArithmeticExpression K) (field : ℤ) :
    Except ArithmeticError (ArithmeticExpression K) :=
  match left, right with
  | .number value0, .number value1 => do
    .ok (.number (← ModularArithmetic.div value0 value1 field))
  | .signal symbol, .number value => do
    .ok (.linear (← divideCoefficientsByConstant value (singleSymbol symbol 1 field) field))
  | .linear coefficients, .number value => do
    .ok (.linear (← divideCoefficientsByConstant value coefficients field))
  | .quadratic a b c, .number value => do
    let a ← divideCoefficientsByConstant value a field
    let c ← divideCoefficientsByConstant value c field
    .ok (.quadratic a b c)
  | _, _ => .ok .nonQuadratic

/-- The `none` of `modpow` is its panic on a negative exponent. -/
def pow (left right : ArithmeticExpression K) (field : ℤ) : Option (ArithmeticExpression K) :=
  match left, right with
  | .number value0, .number value1 => do
    some (.number (← ModularArithmetic.pow value0 value1 field))
  | .signal symbol, .number value =>
    if value = 2 then some (mul (.signal symbol) (.signal symbol) field) else some .nonQuadratic
  | .linear coefficients, .number value =>
    if value = 2 then some (mul (.linear coefficients) (.linear coefficients) field)
    else some .nonQuadratic
  | _, _ => some .nonQuadratic

def prefixSub (elem : ArithmeticExpression K) (field : ℤ) : ArithmeticExpression K :=
  mul elem (.number (-1)) field

/-! ## Operators defined on numbers only -/

/-- A unary operator that is non quadratic outside the numbers. -/
def numberOp1 (f : ℤ → ℤ → ℤ) (elem : ArithmeticExpression K) (field : ℤ) :
    ArithmeticExpression K :=
  match elem with
  | .number value => .number (f value field)
  | _ => .nonQuadratic

/-- A binary operator that is non quadratic outside the numbers. -/
def numberOp2 (f : ℤ → ℤ → ℤ → ℤ) (left right : ArithmeticExpression K) (field : ℤ) :
    ArithmeticExpression K :=
  match left, right with
  | .number value0, .number value1 => .number (f value0 value1 field)
  | _, _ => .nonQuadratic

/-- A fallible binary operator that is non quadratic outside the numbers. -/
def numberResult2 (f : ℤ → ℤ → ℤ → Except ArithmeticError ℤ)
    (left right : ArithmeticExpression K) (field : ℤ) :
    Except ArithmeticError (ArithmeticExpression K) :=
  match left, right with
  | .number value0, .number value1 => do .ok (.number (← f value0 value1 field))
  | _, _ => .ok .nonQuadratic

def idiv (left right : ArithmeticExpression K) (field : ℤ) :
    Except ArithmeticError (ArithmeticExpression K) :=
  numberResult2 ModularArithmetic.idiv left right field

/-- The outer `none` is the panic of `modular_arithmetic::mod_op`. -/
def modOp (left right : ArithmeticExpression K) (field : ℤ) :
    Option (Except ArithmeticError (ArithmeticExpression K)) :=
  match left, right with
  | .number value0, .number value1 => do
    some ((← ModularArithmetic.modOp value0 value1 field).map .number)
  | _, _ => some (.ok .nonQuadratic)

def complement (elem : ArithmeticExpression K) (field : ℤ) : ArithmeticExpression K :=
  numberOp1 ModularArithmetic.complement elem field

def shiftL (left right : ArithmeticExpression K) (field : ℤ) :
    Except ArithmeticError (ArithmeticExpression K) :=
  numberResult2 ModularArithmetic.shiftL left right field

def shiftR (left right : ArithmeticExpression K) (field : ℤ) :
    Except ArithmeticError (ArithmeticExpression K) :=
  numberResult2 ModularArithmetic.shiftR left right field

def bitOr (left right : ArithmeticExpression K) (field : ℤ) : ArithmeticExpression K :=
  numberOp2 ModularArithmetic.bitOr left right field

def bitAnd (left right : ArithmeticExpression K) (field : ℤ) : ArithmeticExpression K :=
  numberOp2 ModularArithmetic.bitAnd left right field

def bitXor (left right : ArithmeticExpression K) (field : ℤ) : ArithmeticExpression K :=
  numberOp2 ModularArithmetic.bitXor left right field

def not (elem : ArithmeticExpression K) (field : ℤ) : ArithmeticExpression K :=
  numberOp1 ModularArithmetic.not elem field

def boolOr (left right : ArithmeticExpression K) (field : ℤ) : ArithmeticExpression K :=
  numberOp2 ModularArithmetic.boolOr left right field

def boolAnd (left right : ArithmeticExpression K) (field : ℤ) : ArithmeticExpression K :=
  numberOp2 ModularArithmetic.boolAnd left right field

def eq (left right : ArithmeticExpression K) (field : ℤ) : ArithmeticExpression K :=
  numberOp2 ModularArithmetic.eq left right field

def notEq (left right : ArithmeticExpression K) (field : ℤ) : ArithmeticExpression K :=
  numberOp2 ModularArithmetic.notEq left right field

def lesser (left right : ArithmeticExpression K) (field : ℤ) : ArithmeticExpression K :=
  numberOp2 ModularArithmetic.lesser left right field

def lesserEq (left right : ArithmeticExpression K) (field : ℤ) : ArithmeticExpression K :=
  numberOp2 ModularArithmetic.lesserEq left right field

def greater (left right : ArithmeticExpression K) (field : ℤ) : ArithmeticExpression K :=
  numberOp2 ModularArithmetic.greater left right field

def greaterEq (left right : ArithmeticExpression K) (field : ℤ) : ArithmeticExpression K :=
  numberOp2 ModularArithmetic.greaterEq left right field

/-! ## Substitution and conversion -/

/-- Applies a substitution and, unlike the versions for constraints and substitutions, drops the
coefficients that are zero, the constant one included. -/
def applySubstitutions (expr : ArithmeticExpression K) (substitution : Substitution K)
    (field : ℤ) : ArithmeticExpression K :=
  match expr with
  | .linear coefficients =>
    .linear (removeZeroValueCoefficients (rawSubstitution coefficients substitution field))
  | .signal symbol =>
    if symbol = substitution.fromSignal then .linear substitution.toExpr else .signal symbol
  | .quadratic a b c =>
    .quadratic (removeZeroValueCoefficients (rawSubstitution a substitution field))
      (removeZeroValueCoefficients (rawSubstitution b substitution field))
      (removeZeroValueCoefficients (rawSubstitution c substitution field))
  | e => e

/-- `1 * s` is a signal, a lone constant a number, every other map a linear expression. -/
def hashmapIntoArith (map : HashMap K ℤ) : ArithmeticExpression K :=
  match map.pairs with
  | [(symbol, value)] =>
    if symbol = constantCoefficient then .number value
    else if value = 1 then .signal symbol
    else .linear (initializeHashmapForExpression map)
  | _ => .linear (initializeHashmapForExpression map)

/-- The constraint `0 * 0 - (-e) = 0`, or `a * b - (-c) = 0`; `none` on a non quadratic expression. -/
def transformExpressionToConstraintForm (arithmeticExpression : ArithmeticExpression K)
    (field : ℤ) : Option (Constraint K) :=
  let z : HashMap K ℤ := initializeHashmapForExpression ∅
  let negate := fun c => multiplyCoefficientsByConstant (-1) c field
  match arithmeticExpression with
  | .nonQuadratic => none
  | .quadratic oldA oldB oldC => some ⟨oldA, oldB, negate oldC⟩
  | .number value => some ⟨z, z, negate (z.insert constantCoefficient value)⟩
  | .signal symbol => some ⟨z, z, negate (z.insert symbol 1)⟩
  | .linear coefficients => some ⟨z, z, negate coefficients⟩

end ArithmeticExpression

/-! ## Substitutions -/

namespace Substitution

open ArithmeticExpression

/-- `none` when the expression is not linear or mentions the replaced signal. -/
def new (fromSignal : K) (toExpr : ArithmeticExpression K) : Option (Substitution K) :=
  match toExpr with
  | .number value => some ⟨fromSignal, (∅ : HashMap K ℤ).insert constantCoefficient value⟩
  | .signal symbol => some ⟨fromSignal, (∅ : HashMap K ℤ).insert symbol 1⟩
  | .linear toExpr => if fromSignal ∈ toExpr then none else some ⟨fromSignal, toExpr⟩
  | _ => none

def applySubstitution (src change : Substitution K) (field : ℤ) : Substitution K :=
  { src with toExpr := rawSubstitution src.toExpr change field }

def decompose (substitution : Substitution K) : K × ArithmeticExpression K :=
  (substitution.fromSignal, hashmapIntoArith substitution.toExpr)

def takeClonedSignals (substitution : Substitution K) : Finset K :=
  substitution.toExpr.keys.toFinset.erase constantCoefficient

def rmvZeroCoefficients (substitution : Substitution K) : Substitution K :=
  { substitution with toExpr := removeZeroValueCoefficients substitution.toExpr }

end Substitution

end Circom.Algebra
