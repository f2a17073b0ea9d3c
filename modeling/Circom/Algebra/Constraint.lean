import Circom.Algebra.ArithmeticExpression

/-!
# Constraints

The operations on constraints `a * b - c = 0` of `circom_algebra::algebra`.
-/

namespace Circom.Algebra

open Circom.Lib (HashMap)

variable {K : Type} [DecidableEq K] [Inhabited K]

/-! ## Raw expressions -/

def isConstantExpression (expr : HashMap K ℤ) : Bool :=
  constantCoefficient ∈ expr && expr.len = 1

/-- Moves `a * b` into `c` when `a` is the constant `constant`; `a` and `b` are cleared. The `unwrap`
of the source cannot fail, it is called on a constant expression `a`. -/
def constantLinearLinearReduction (a b c : HashMap K ℤ) (field : ℤ) : HashMap K ℤ :=
  let c := initializeHashmapForExpression c
  let b := initializeHashmapForExpression b
  let constant := (a.lookup constantCoefficient).getD 0
  let b := multiplyCoefficientsByConstant constant b field
  let b := multiplyCoefficientsByConstant (-1) b field
  removeZeroValueCoefficients (addCoefficientsToCoefficients b c field)

def signalEqualsSignal (a b c : HashMap K ℤ) (field : ℤ) : Bool :=
  if a.len = 0 && b.len = 0 && constantCoefficient ∉ c && c.len = 2 then
    match c.pairs with
    | [(_, c0), (_, c1)] => ModularArithmetic.mul (-1) c1 field = c0
    | _ => false
  else
    false

def signalEqualsConstant (a b c : HashMap K ℤ) : Bool :=
  a.len = 0 && b.len = 0 &&
    ((constantCoefficient ∈ c && c.len = 2) || (constantCoefficient ∉ c && c.len = 1))

/-- Takes the term of `key` out of a linear form and returns the opposite of its coefficient with the
remaining terms. Panics when the key is missing or its coefficient is zero. -/
def clearSignalNotNormalized (symbols : HashMap K ℤ) (key : K) (field : ℤ) :
    Option (ℤ × HashMap K ℤ) := do
  let keyValue ← symbols.lookup key
  let symbols := symbols.erase key
  if keyValue = 0 then
    none
  else
    let valueToTheRight := ModularArithmetic.mul keyValue (-1) field
    some (valueToTheRight, initializeHashmapForExpression symbols)

/-- The same, divided by that coefficient. Panics as well when the coefficient has no inverse. -/
def clearSignal (symbols : HashMap K ℤ) (key : K) (field : ℤ) : Option (HashMap K ℤ) := do
  let (valueToTheRight, symbols) ← clearSignalNotNormalized symbols key field
  match divideCoefficientsByConstant valueToTheRight symbols field with
  | .error _ => none
  | .ok symbols => some (removeZeroValueCoefficients symbols)

/-- Renames the signals of a raw expression; panics on a signal that the map does not know. -/
def applyRawCorrespondence {L : Type} [DecidableEq L] [Inhabited L] (symbols : HashMap K ℤ)
    (map : HashMap K L) : Option (HashMap L ℤ) := do
  let renamed ← symbols.pairs.mapM fun (key, value) => do
    let id ← if key = constantCoefficient then some constantCoefficient else map.lookup key
    some (id, value)
  some (AList.ofPairs renamed)

def applyRawOffset (h : HashMap ℕ ℤ) (offset : ℕ) : HashMap ℕ ℤ :=
  AList.ofPairs (h.pairs.map fun e =>
    (if e.1 = constantCoefficient then e.1 else e.1 + offset, e.2))

namespace Constraint

def empty : Constraint K := ⟨∅, ∅, ∅⟩

def isLinear (constraint : Constraint K) : Bool := constraint.a.len = 0 && constraint.b.len = 0

def isEmpty (constraint : Constraint K) : Bool :=
  constraint.a.len = 0 && constraint.b.len = 0 && constraint.c.len = 0

def takeClonedSignals (constraint : Constraint K) : Finset K :=
  (constraint.a.keys ++ constraint.b.keys ++ constraint.c.keys).toFinset.erase constantCoefficient

/-- The `BTreeSet` of the signals, walked in increasing order. -/
def takeClonedSignalsOrdered (constraint : Constraint ℕ) : List ℕ :=
  constraint.takeClonedSignals.ascending

def clearSignalFromLinear (constraint : Constraint K) (signal : K) (field : ℤ) :
    Option (Substitution K) := do
  some ⟨signal, ← clearSignal constraint.c signal field⟩

def clearSignalFromLinearNotNormalized (constraint : Constraint K) (signal : K) (field : ℤ) :
    Option (ℤ × Substitution K) := do
  let (coefficient, rawExpression) ← clearSignalNotNormalized constraint.c signal field
  some (coefficient, ⟨signal, rawExpression⟩)

def applySubstitution (constraint : Constraint K) (substitution : Substitution K) (field : ℤ) :
    Constraint K :=
  ⟨rawSubstitution constraint.a substitution field, rawSubstitution constraint.b substitution field,
    rawSubstitution constraint.c substitution field⟩

def removeZeroValueCoefficients (constraint : Constraint K) : Constraint K :=
  ⟨Algebra.removeZeroValueCoefficients constraint.a,
    Algebra.removeZeroValueCoefficients constraint.b,
    Algebra.removeZeroValueCoefficients constraint.c⟩

/-- `fix_raw_constraint`: drops zero coefficients, then turns a product with an empty or constant
factor into a linear constraint. -/
def fixConstraint (constraint : Constraint K) (field : ℤ) : Constraint K :=
  let ⟨a, b, c⟩ := constraint.removeZeroValueCoefficients
  if a.len = 0 || b.len = 0 then ⟨∅, ∅, c⟩
  else if isConstantExpression a then ⟨∅, ∅, constantLinearLinearReduction a b c field⟩
  else if isConstantExpression b then ⟨∅, ∅, constantLinearLinearReduction b a c field⟩
  else ⟨a, b, c⟩

def isEquality (constraint : Constraint K) (field : ℤ) : Bool :=
  signalEqualsSignal constraint.a constraint.b constraint.c field

def isConstantEquality (constraint : Constraint K) : Bool :=
  signalEqualsConstant constraint.a constraint.b constraint.c

def applyOffset (constraint : Constraint ℕ) (offset : ℕ) : Constraint ℕ :=
  ⟨applyRawOffset constraint.a offset, applyRawOffset constraint.b offset,
    applyRawOffset constraint.c offset⟩

def applyCorrespondence {L : Type} [DecidableEq L] [Inhabited L] (constraint : Constraint K)
    (symbolCorrespondence : HashMap K L) : Option (Constraint L) := do
  let a ← applyRawCorrespondence constraint.a symbolCorrespondence
  let b ← applyRawCorrespondence constraint.b symbolCorrespondence
  let c ← applyRawCorrespondence constraint.c symbolCorrespondence
  some ⟨a, b, c⟩

end Constraint

end Circom.Algebra
