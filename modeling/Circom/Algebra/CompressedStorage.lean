import Circom.ConstantTracking
import Circom.Lib.LittleEndian
import Circom.Algebra.Constraint

/-!
# The compressed storage of constraints

`ConstraintStorage` of `circom_algebra::constraint_storage` with its table of coefficients. A coefficient
is stored once, as its signed bytes, and the constraints hold its identifier. `none` is a panic: the
table has no constant of that identifier.
-/

/-!
## The storage of constraints

`ConstraintStorage` of `circom_algebra::constraint_storage`. The source keeps each coefficient once, in a
table, and the constraints refer to it; here the constraints are kept as they are. The storage with its
table is `CompressedStorage`.
-/

namespace Circom.Algebra

structure ConstraintStorage where
  constraints : List (Constraint ℕ)

namespace ConstraintStorage

def new : ConstraintStorage := ⟨[]⟩

def addConstraint (storage : ConstraintStorage) (constraint : Constraint ℕ) : ConstraintStorage × ℕ :=
  (⟨storage.constraints ++ [constraint]⟩, storage.constraints.length)

def readConstraint (storage : ConstraintStorage) (id : ℕ) : Option (Constraint ℕ) :=
  storage.constraints[id]?

/-- Nothing happens when there is no constraint `id`. -/
def replace (storage : ConstraintStorage) (id : ℕ) (new : Constraint ℕ) : ConstraintStorage :=
  ⟨storage.constraints.set id new⟩

/-- Takes the constraints that satisfy `filter` out of the storage. -/
def extractWith (storage : ConstraintStorage) (filter : Constraint ℕ → Bool) :
    ConstraintStorage × List (Constraint ℕ) :=
  (⟨storage.constraints.filter fun c => !filter c⟩, storage.constraints.filter filter)

def getIds (storage : ConstraintStorage) : List ℕ := List.range storage.constraints.length

end ConstraintStorage

/-! ## The compressed storage of constraints -/

open Circom.Lib (HashMap HashOrder toSignedBytesLe ofSignedBytesLe)

/-- The bytes of a coefficient. -/
abbrev RawField := List UInt8

abbrev FieldTracker := ConstantTracker RawField

/-- Identifiers of coefficients with the signals they belong to. -/
abbrev CompressedExpr := List (ℕ × ℕ)

abbrev CompressedConstraint := CompressedExpr × CompressedExpr × CompressedExpr

/-! ## Coding and decoding -/

/-- One round of `code_expression`. -/
def codeEntry (acc : CompressedExpr × FieldTracker) (entry : ℕ × ℤ) :
    CompressedExpr × FieldTracker :=
  let (tracker, coeffId) := acc.2.insert (toSignedBytesLe entry.2)
  (acc.1 ++ [(coeffId, entry.1)], tracker)

def codeExpression (o : HashOrder) (expr : HashMap ℕ ℤ) (tracker : FieldTracker) :
    CompressedExpr × FieldTracker :=
  (o.walk expr.pairs).foldl codeEntry ([], tracker)

def codeConstraint (o : HashOrder) (constraint : Constraint ℕ) (tracker : FieldTracker) :
    CompressedConstraint × FieldTracker :=
  let (a, tracker) := codeExpression (o.sub 0) constraint.a tracker
  let (b, tracker) := codeExpression (o.sub 1) constraint.b tracker
  let (c, tracker) := codeExpression (o.sub 2) constraint.c tracker
  ((a, b, c), tracker)

/-- One round of `decode_expr`. -/
def decodeEntry (tracker : FieldTracker) (decodedExpr : HashMap ℕ ℤ) (entry : ℕ × ℕ) :
    Option (HashMap ℕ ℤ) := do
  let rawCoeff ← tracker.getConstant entry.1
  some (decodedExpr.insert entry.2 (ofSignedBytesLe rawCoeff))

def decodeExpr (cExpr : CompressedExpr) (tracker : FieldTracker) : Option (HashMap ℕ ℤ) :=
  cExpr.foldlM (decodeEntry tracker) ∅

def decodeConstraint (constraint : CompressedConstraint) (tracker : FieldTracker) :
    Option (Constraint ℕ) := do
  let (a, b, c) := constraint
  some ⟨← decodeExpr a tracker, ← decodeExpr b tracker, ← decodeExpr c tracker⟩

/-! ## The storage -/

structure CompressedStorage where
  fieldTracker : FieldTracker
  constraints : List CompressedConstraint

namespace CompressedStorage

def new : CompressedStorage := ⟨ConstantTracker.new, []⟩

def addConstraint (o : HashOrder) (storage : CompressedStorage) (constraint : Constraint ℕ) :
    CompressedStorage × ℕ :=
  let id := storage.constraints.length
  let (compressed, fieldTracker) := codeConstraint o constraint storage.fieldTracker
  (⟨fieldTracker, storage.constraints ++ [compressed]⟩, id)

def readConstraint (storage : CompressedStorage) (id : ℕ) : Option (Option (Constraint ℕ)) :=
  match storage.constraints[id]? with
  | some compressed => (decodeConstraint compressed storage.fieldTracker).map some
  | none => some none

/-- Nothing is coded when there is no constraint `id`. -/
def replace (o : HashOrder) (storage : CompressedStorage) (id : ℕ) (new : Constraint ℕ) :
    CompressedStorage :=
  if id < storage.constraints.length then
    let (compressed, fieldTracker) := codeConstraint o new storage.fieldTracker
    ⟨fieldTracker, storage.constraints.set id compressed⟩
  else storage

/-- One round of `extract_with`: the removed constraints and the ones that stay. -/
def extractEntry (tracker : FieldTracker) (filter : Constraint ℕ → Bool)
    (acc : List (Constraint ℕ) × List CompressedConstraint) (compressed : CompressedConstraint) :
    Option (List (Constraint ℕ) × List CompressedConstraint) := do
  let decoded ← decodeConstraint compressed tracker
  if filter decoded then some (acc.1 ++ [decoded], acc.2)
  else some (acc.1, acc.2 ++ [compressed])

def extractWith (storage : CompressedStorage) (filter : Constraint ℕ → Bool) :
    Option (CompressedStorage × List (Constraint ℕ)) := do
  let (removed, constraints) ←
    storage.constraints.foldlM (extractEntry storage.fieldTracker filter) ([], [])
  some (⟨storage.fieldTracker, constraints⟩, removed)

def getIds (storage : CompressedStorage) : List ℕ := List.range storage.constraints.length

def noConstants (storage : CompressedStorage) : ℕ := storage.fieldTracker.nextId

end CompressedStorage

end Circom.Algebra
