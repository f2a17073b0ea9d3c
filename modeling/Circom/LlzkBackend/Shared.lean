import Circom.Ast.Ast
import Circom.Algebra.ModularArithmetic
import Mathlib.Data.Nat.Bitwise

/-!
# Constants of the LLZK backend

`try_compute_biguint` of the crate `llzk_backend`. `BigUint` is `ℕ`. A division or a remainder by zero
panics; what `anyhow!` builds is an error with its text.
-/

namespace Circom.LlzkBackend

open Circom.Ast

inductive Failure where
  | error (message : String)
  | panicked
  deriving DecidableEq, Repr

/-- `BigUint::mod_inverse`, which returns the representative in `[0, m)`. -/
def modInverse (a m : ℕ) : Option ℕ := (Algebra.ModularArithmetic.modInverse a m).map Int.toNat

/-- `BigUint::to_usize` on a 64-bit target. -/
def toUsize (a : ℕ) : Option ℕ := if a < 2 ^ 64 then some a else none

def boolToBiguint (b : Bool) : ℕ := if b then 1 else 0

/-- Unsigned field elements as signed numbers, for comparisons. -/
def relationalVal (a p : ℕ) : ℤ :=
  let a := a % p
  if p / 2 + 1 ≤ a then (a : ℤ) - p else a

/-- A shift to the left if `left`; counts in the upper half of the field reverse the direction. -/
def computeShift (left : Bool) (lhs rhs prime : ℕ) : ℕ :=
  let lhs := lhs % prime
  let rhs := rhs % prime
  let reverse := prime >>> 1 < rhs
  let shift := if reverse then prime - rhs else rhs
  let width := prime.size
  match (toUsize shift).filter (· < width) with
  | some shift =>
    if left != reverse then
      let mask := 1 <<< width - 1
      ((lhs <<< shift) &&& mask) % prime
    else lhs >>> shift
  | none => 0

def computeInfix (infixOp : ExpressionInfixOpcode) (lhs rhs prime : ℕ) : Except Failure ℕ :=
  match infixOp with
  | .mul => .ok (lhs * rhs % prime)
  | .div =>
    match modInverse rhs prime with
    | some rhsInv => .ok (lhs * rhsInv % prime)
    | none => .error (.error "failed to compute inverse")
  | .add => .ok ((lhs + rhs) % prime)
  | .sub => .ok ((lhs + (prime - rhs)) % prime)
  | .pow => .ok (lhs ^ rhs % prime)
  | .intDiv => if rhs = 0 then .error .panicked else .ok (lhs / rhs % prime)
  | .mod => if rhs = 0 then .error .panicked else .ok (lhs % rhs)
  | .shiftL => .ok (computeShift true lhs rhs prime)
  | .shiftR => .ok (computeShift false lhs rhs prime)
  | .lesserEq => .ok (boolToBiguint (relationalVal lhs prime ≤ relationalVal rhs prime))
  | .greaterEq => .ok (boolToBiguint (relationalVal lhs prime ≥ relationalVal rhs prime))
  | .lesser => .ok (boolToBiguint (relationalVal lhs prime < relationalVal rhs prime))
  | .greater => .ok (boolToBiguint (relationalVal lhs prime > relationalVal rhs prime))
  | .eq => .ok (boolToBiguint (lhs = rhs))
  | .notEq => .ok (boolToBiguint (lhs ≠ rhs))
  | .boolOr => .ok (boolToBiguint (lhs ≠ 0 ∨ rhs ≠ 0))
  | .boolAnd => .ok (boolToBiguint (lhs ≠ 0 ∧ rhs ≠ 0))
  | .bitOr => .ok ((lhs ||| rhs) % prime)
  | .bitAnd => .ok (lhs &&& rhs)
  | .bitXor => .ok ((lhs ^^^ rhs) % prime)

def computePrefix (prefixOp : ExpressionPrefixOpcode) (rhs prime : ℕ) : ℕ :=
  match prefixOp with
  | .sub => if rhs = 0 then rhs else prime - rhs
  | .boolNot => if rhs = 0 then 1 else 0
  | .complement =>
    let mask := 1 <<< prime.size - 1
    (mask ^^^ rhs) % prime

/-- Tries to compute the value of an expression; `none` where that is not possible. -/
def tryComputeBiguint (prime : ℕ) : Expression → Except Failure (Option ℕ)
  | .number _ bigInt =>
    if 0 ≤ bigInt then .ok (some (bigInt.toNat % prime))
    else .error (.error "could not convert to signed")
  | .infixOp _ lhe infixOp rhe => do
    let lhs ← tryComputeBiguint prime lhe
    let rhs ← tryComputeBiguint prime rhe
    match lhs, rhs with
    | some lhs, some rhs => do
      let res ← computeInfix infixOp lhs rhs prime
      .ok (some res)
    | _, _ => .ok none
  | .prefixOp _ prefixOp rhe => do
    let rhs ← tryComputeBiguint prime rhe
    match rhs with
    | some rhs => .ok (some (computePrefix prefixOp rhs prime))
    | none => .ok none
  | .inlineSwitchOp _ cond ifTrue ifFalse => do
    let cond ← tryComputeBiguint prime cond
    let ifTrue ← tryComputeBiguint prime ifTrue
    let ifFalse ← tryComputeBiguint prime ifFalse
    match cond, ifTrue, ifFalse with
    | some cond, some ifTrue, some ifFalse => .ok (some (if cond ≠ 0 then ifTrue else ifFalse))
    | _, _, _ => .ok none
  | _ => .ok none

end Circom.LlzkBackend
