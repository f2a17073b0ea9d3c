import Circom.Ast.Ast
import Circom.Algebra.ModularArithmetic

/-!
# Operators and closed expressions

What the operators of the language mean, and with them the value of an expression without variables: a
literal is a field element, and of an inline switch only the selected branch is evaluated.
-/

namespace Circom.Ast

open Circom.Algebra
open Circom.Algebra.ModularArithmetic (asBool modulus)

/-- The operator of `modular_arithmetic`; `none` where it returns an error or panics. -/
def ExpressionInfixOpcode.value (op : ExpressionInfixOpcode) (left right field : ℤ) : Option ℤ :=
  match op with
  | .mul => some (ModularArithmetic.mul left right field)
  | .div => (ModularArithmetic.div left right field).toOption
  | .add => some (ModularArithmetic.add left right field)
  | .sub => some (ModularArithmetic.sub left right field)
  | .pow => ModularArithmetic.pow left right field
  | .intDiv => (ModularArithmetic.idiv left right field).toOption
  | .mod => (ModularArithmetic.modOp left right field).bind Except.toOption
  | .shiftL => (ModularArithmetic.shiftL left right field).toOption
  | .shiftR => (ModularArithmetic.shiftR left right field).toOption
  | .lesserEq => some (ModularArithmetic.lesserEq left right field)
  | .greaterEq => some (ModularArithmetic.greaterEq left right field)
  | .lesser => some (ModularArithmetic.lesser left right field)
  | .greater => some (ModularArithmetic.greater left right field)
  | .eq => some (ModularArithmetic.eq left right field)
  | .notEq => some (ModularArithmetic.notEq left right field)
  | .boolOr => some (ModularArithmetic.boolOr left right field)
  | .boolAnd => some (ModularArithmetic.boolAnd left right field)
  | .bitOr => some (ModularArithmetic.bitOr left right field)
  | .bitAnd => some (ModularArithmetic.bitAnd left right field)
  | .bitXor => some (ModularArithmetic.bitXor left right field)

def ExpressionPrefixOpcode.value (op : ExpressionPrefixOpcode) (right field : ℤ) : ℤ :=
  match op with
  | .sub => ModularArithmetic.prefixSub right field
  | .boolNot => ModularArithmetic.not right field
  | .complement => ModularArithmetic.complement right field

/-- The operators that have no value for a zero on the right. -/
def ExpressionInfixOpcode.isDivision (op : ExpressionInfixOpcode) : Bool :=
  op = .div ∨ op = .intDiv ∨ op = .mod

/-- Why an expression has no value. -/
inductive Undefined where
  | zeroDivisor
  | operator
  | notClosed
  deriving DecidableEq

/-- An operator applied to the values of its operands. -/
def ExpressionInfixOpcode.apply (op : ExpressionInfixOpcode) (left right field : ℤ) :
    Except Undefined ℤ :=
  match op.value left right field with
  | some v => .ok v
  | none => .error (if op.isDivision then .zeroDivisor else .operator)

/-- The value of a closed expression. -/
def Expression.evaluate (field : ℤ) : Expression → Except Undefined ℤ
  | .number _ value => .ok (modulus value field)
  | .infixOp _ lhe op rhe => do
    let left ← lhe.evaluate field
    let right ← rhe.evaluate field
    op.apply left right field
  | .prefixOp _ op rhe => do
    let right ← rhe.evaluate field
    .ok (op.value right field)
  | .inlineSwitchOp _ cond ifTrue ifFalse => do
    let c ← cond.evaluate field
    if asBool c field then ifTrue.evaluate field else ifFalse.evaluate field
  | _ => .error .notClosed

/-- Built from numbers that are not negative. -/
def Expression.Closed : Expression → Prop
  | .number _ value => 0 ≤ value
  | .infixOp _ lhe _ rhe => lhe.Closed ∧ rhe.Closed
  | .prefixOp _ _ rhe => rhe.Closed
  | .inlineSwitchOp _ cond ifTrue ifFalse => cond.Closed ∧ ifTrue.Closed ∧ ifFalse.Closed
  | _ => False

end Circom.Ast
