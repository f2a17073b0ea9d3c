import Mathlib.Data.Nat.Notation
import Mathlib.Algebra.Group.Nat.Defs

/-!
# Sizes of types

`TypeSizeExpr` of `shared.rs`. The attributes that refer to symbols are elements of a type with decidable
equality; the attributes of one context are unique, so that the source compares their addresses. Simplification
calls itself on what it has simplified: the calls are bounded by fuel.
-/

namespace Circom.LlzkBackend

/-- The size of a type as an expression of its parts. -/
inductive TypeSizeExpr (σ : Type) where
  /-- Constant unsigned integer. -/
  | const (n : ℕ)
  /-- Symbol reference. -/
  | sym (symbol : σ)
  | add (lhs rhs : TypeSizeExpr σ)
  | mul (lhs rhs : TypeSizeExpr σ)
  deriving DecidableEq, Repr

inductive SizeFailure where
  /-- "type size overflows usize max" -/
  | overflow
  | outOfFuel
  deriving DecidableEq, Repr

inductive SizeOperator where
  | add
  | mul
  deriving DecidableEq, Repr

variable {σ : Type}

/-- `checked_add` and `checked_mul` of `usize` with their `expect`. -/
def checked (n : ℕ) : Except SizeFailure ℕ := if n < 2 ^ 64 then .ok n else .error .overflow

namespace SizeOperator

/-- The expression with this operator. -/
def apply : SizeOperator → TypeSizeExpr σ → TypeSizeExpr σ → TypeSizeExpr σ
  | .add => .add
  | .mul => .mul

/-- What the operands are replaced by, if something is known of them. -/
def fold : SizeOperator → TypeSizeExpr σ → TypeSizeExpr σ →
    Except SizeFailure (Option (TypeSizeExpr σ))
  | .add, .const 0, x => .ok (some x)
  | .add, x, .const 0 => .ok (some x)
  | .add, .const a, .const b => do
    let n ← checked (a + b)
    .ok (some (.const n))
  | .mul, .const 0, _ => .ok (some (.const 0))
  | .mul, _, .const 0 => .ok (some (.const 0))
  | .mul, .const 1, x => .ok (some x)
  | .mul, x, .const 1 => .ok (some x)
  | .mul, .const a, .const b => do
    let n ← checked (a * b)
    .ok (some (.const n))
  | _, _, _ => .ok none

end SizeOperator

namespace TypeSizeExpr

variable [DecidableEq σ]

mutual

/-- A simplified version of the expression by applying arithmetic identities. -/
def simplified : ℕ → TypeSizeExpr σ → Except SizeFailure (TypeSizeExpr σ)
  | 0, _ => .error .outOfFuel
  | _ + 1, .const n => .ok (.const n)
  | _ + 1, .sym symbol => .ok (.sym symbol)
  | fuel + 1, .add lhs rhs => simplifyOperation fuel .add lhs rhs
  | fuel + 1, .mul lhs rhs => simplifyOperation fuel .mul lhs rhs

/-- A simplified addition or multiplication of two operands. -/
def simplifyOperation : ℕ → SizeOperator → TypeSizeExpr σ → TypeSizeExpr σ →
    Except SizeFailure (TypeSizeExpr σ)
  | 0, _, _, _ => .error .outOfFuel
  | fuel + 1, op, lhs, rhs => do
    let newLhs ← simplified fuel lhs
    let newRhs ← simplified fuel rhs
    match ← op.fold newLhs newRhs with
    | some folded => .ok folded
    | none =>
      if newLhs = lhs ∧ newRhs = rhs then .ok (op.apply newLhs newRhs)
      else simplifyOperation fuel op newLhs newRhs

end

def simplifyAdd (fuel : ℕ) (lhs rhs : TypeSizeExpr σ) : Except SizeFailure (TypeSizeExpr σ) :=
  simplifyOperation fuel .add lhs rhs

def simplifyMul (fuel : ℕ) (lhs rhs : TypeSizeExpr σ) : Except SizeFailure (TypeSizeExpr σ) :=
  simplifyOperation fuel .mul lhs rhs

end TypeSizeExpr

end Circom.LlzkBackend
