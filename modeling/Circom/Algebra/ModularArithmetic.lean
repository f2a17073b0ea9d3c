import Mathlib.Data.Int.GCD
import Mathlib.Data.Int.Bitwise
import Mathlib.Data.Nat.Size
import Mathlib.Data.Nat.Digits.Defs

/-!
# Modular arithmetic

The operations of `circom_algebra::modular_arithmetic` on big integers. `BigInt` is `ℤ`; its `/` and
`%` truncate towards zero (`Int.tdiv`, `Int.tmod`). A function that can panic returns an `Option`
whose `none` is the panic, a function with a `Result` returns an `Except`.
-/

namespace Circom.Algebra.ModularArithmetic

/-- The errors of the fallible operators. -/
inductive ArithmeticError where
  | divisionByZero
  | bitOverFlowInShift
  deriving DecidableEq, Repr

/-- The representative of `a` modulo a positive `b` that lies in `[0, b)`. -/
def modulus (a b : ℤ) : ℤ := ((a.tmod b) + b).tmod b

/-- `num_bigint`'s `ModInverse`: the inverse of `a` modulo `m`, when `a` and `m` are coprime. -/
def modInverse (a m : ℤ) : Option ℤ :=
  if Int.gcd a m = 1 then some (Int.gcdA a m % m) else none

/-- `num_bigint`'s `modpow`: it asserts that the exponent is not negative and the modulus not zero,
and its result has the sign of the modulus. -/
def modpow (base exp m : ℤ) : Option ℤ :=
  if exp < 0 ∨ m = 0 then none else some ((base ^ exp.toNat).fmod m)

/-- `BigInt::to_usize` on a 64-bit target. -/
def toUsize (a : ℤ) : Option ℕ := if 0 ≤ a ∧ a < 2 ^ 64 then some a.toNat else none

/-- `BigInt::bits`: the number of bits of the magnitude. -/
def bits (a : ℤ) : ℕ := a.natAbs.size

/-- The little endian bits of the magnitude; zero has the single bit `0`. -/
def bitRepresentation (elem : ℤ) : List ℕ :=
  if elem = 0 then [0] else Nat.digits 2 elem.natAbs

/-- `2 ^ b - 1`, where `b` is the number of bits of the field. -/
def mask (field : ℤ) : ℤ := 2 ^ (bitRepresentation field).length - 1

/-! ## Arithmetic operations -/

def add (left right field : ℤ) : ℤ := modulus (left + right) field

def mul (left right field : ℤ) : ℤ := modulus (left * right) field

def sub (left right field : ℤ) : ℤ := modulus (left - right) field

def div (left right field : ℤ) : Except ArithmeticError ℤ :=
  match modInverse right field with
  | none => .error .divisionByZero
  | some rightInverse => .ok (mul left rightInverse field)

def idiv (left right field : ℤ) : Except ArithmeticError ℤ :=
  let left := modulus left field
  let right := modulus right field
  if right = 0 then .error .divisionByZero else .ok (left.tdiv right)

/-- Panics when the right operand is zero modulo the field: `%` by zero inside `modulus`. -/
def modOp (left right field : ℤ) : Option (Except ArithmeticError ℤ) :=
  let left := modulus left field
  let right := modulus right field
  if right = 0 then none else some (.ok (modulus left right))

def pow (base exp field : ℤ) : Option ℤ := modpow base exp field

def prefixSub (elem field : ℤ) : ℤ := mul elem (-1) field

/-- The prefix products of `values`, starting with `1` (the vector `partials`). -/
def partialProducts (values : List ℤ) (field : ℤ) : List ℤ :=
  values.foldl (fun partials v => partials ++ [mul (partials.getLastD 0) v field]) [1]

/-- One turn of the backward loop of `multi_inv`: it writes `outputs[i - 1]` and updates `inverse`. -/
def multiInvStep (values partials : List ℤ) (field : ℤ) (acc : List ℤ × ℤ) (i : ℕ) : List ℤ × ℤ :=
  (acc.1.set i (mul (partials.getD i 0) acc.2 field), mul acc.2 (values.getD i 0) field)

/-- Batch inversion. Panics when the product of the values has no inverse. The result has one more
entry than `values`; the last one stays zero. -/
def multiInv (values : List ℤ) (field : ℤ) : Option (List ℤ) :=
  let partials := partialProducts values field
  match div 1 (partials.getLastD 0) field with
  | .error _ => none
  | .ok inverse =>
    some ((List.range values.length).reverse.foldl (multiInvStep values partials field)
      (List.replicate partials.length 0, inverse)).1

/-! ## Bit operations -/

/-- Cuts or pads a bit list to length `n`. -/
def resizeBits (bitRepr : List ℕ) (n : ℕ) : List ℕ :=
  let bitRepr := bitRepr.take n
  bitRepr ++ List.replicate (n - bitRepr.length) 0

def complement (elem field : ℤ) : ℤ :=
  let bitRepr := resizeBits (bitRepresentation elem) (bits field)
  let flipped := bitRepr.map fun bit => if bit = 0 then 1 else 0
  let magnitude : ℤ := Nat.ofDigits 2 flipped
  let cp := if elem < 0 then -magnitude else magnitude
  modulus cp field

/-- The rest of a shift by more than half the field is at most half the field. -/
theorem sub_le_half {field right : ℤ} (h : ¬ right ≤ field.tdiv 2) :
    field - right ≤ field.tdiv 2 := by
  have h1 := Int.mul_tdiv_add_tmod field 2
  have h2 : field.tmod 2 < 2 := Int.tmod_lt_of_pos field (by omega)
  omega

mutual

/-- A shift to the left by more than half the field is a shift to the right by the rest. -/
def shiftL (left right field : ℤ) : Except ArithmeticError ℤ :=
  let top := field.tdiv 2
  if right ≤ top then
    match toUsize right with
    | none => .error .divisionByZero
    | some usizeRepr => .ok (modulus (Int.land (left * 2 ^ usizeRepr) (mask field)) field)
  else
    shiftR left (field - right) field
termination_by if right ≤ field.tdiv 2 then 0 else 1
decreasing_by
  have h : ¬ right ≤ field.tdiv 2 := by assumption
  rw [if_pos (sub_le_half h), if_neg h]
  exact Nat.zero_lt_one

def shiftR (left right field : ℤ) : Except ArithmeticError ℤ :=
  let top := field.tdiv 2
  if right ≤ top then
    match toUsize right with
    | none => .error .divisionByZero
    | some usizeRepr => .ok (left.tdiv (2 ^ usizeRepr))
  else
    shiftL left (field - right) field
termination_by if right ≤ field.tdiv 2 then 0 else 1
decreasing_by
  have h : ¬ right ≤ field.tdiv 2 := by assumption
  rw [if_pos (sub_le_half h), if_neg h]
  exact Nat.zero_lt_one

end

def bitOr (left right field : ℤ) : ℤ := modulus (Int.lor left right) field

def bitAnd (left right field : ℤ) : ℤ := modulus (Int.land left right) field

def bitXor (left right field : ℤ) : ℤ := modulus (Int.xor left right) field

/-! ## Boolean operations -/

def constantTrue : ℤ := 1

def constantFalse : ℤ := 0

/-- The signed representative of an element of `[0, field)`. -/
def val (elem field : ℤ) : ℤ :=
  let c := field.tdiv 2 + 1
  if c ≤ elem ∧ elem < field then elem - field else elem

def comparableElement (elem field : ℤ) : ℤ := val (modulus elem field) field

def normalize (elem field : ℤ) : ℤ :=
  if comparableElement elem field = constantFalse then constantFalse else constantTrue

def asBool (elem field : ℤ) : Bool := normalize elem field ≠ constantFalse

def not (elem field : ℤ) : ℤ := (normalize elem field + 1).tmod 2

def boolAnd (left right field : ℤ) : ℤ := normalize left field * normalize right field

def boolOr (left right field : ℤ) : ℤ :=
  (normalize left field + normalize right field + boolAnd left right field).tmod 2

def eq (left right field : ℤ) : ℤ :=
  if modulus left field = modulus right field then constantTrue else constantFalse

def lesser (left right field : ℤ) : ℤ :=
  if comparableElement left field < comparableElement right field then constantTrue
  else constantFalse

def notEq (left right field : ℤ) : ℤ := not (eq left right field) field

def lesserEq (left right field : ℤ) : ℤ :=
  boolOr (lesser left right field) (eq left right field) field

def greater (left right field : ℤ) : ℤ := not (lesserEq left right field) field

def greaterEq (left right field : ℤ) : ℤ :=
  boolOr (greater left right field) (eq left right field) field

end Circom.Algebra.ModularArithmetic
