import Circom.IrProcessing.BuildStack
import Circom.Lib.Slots

/-!
# How instructions are evaluated

The expressions of an instruction as terms over slots. The value of a load is read through its address: the address
is part of the expression that reads it. The arguments of a call are copied one after the other. The checks of
indices are only written at the highest level of sanity checks.
-/

namespace Circom.IrProcessing.BuildStack

open Circom.Lib.Slots
open Term (keeping)

/-- What is translated from an expression: a call stands alone or as an argument of a call. -/
inductive Expression where
  | term (term : Term)
  | call (opAuxNo : ℕ) (arguments : List Expression)

section

variable (sanityCheck : Bool)

mutual

/-- An operand of a computation. -/
def operand : Instruction → Option Term
  | .value _ _ opAuxNo => some (.value opAuxNo [])
  | .load addressType src checks => do
    let cmpAddress ← addressTypeTerms addressType
    let location ← locationTerms src
    let checks ← checkTerms checks
    some (.checked (cmpAddress ++ location) checks)
  | .compute op opAuxNo stack =>
    if op.isAddressOp then none
    else do
      let terms ← operands stack
      some (.value opAuxNo terms)
  | _ => none

def operands : List Instruction → Option (List Term)
  | [] => some []
  | i :: stack => do
    let term ← operand i
    let terms ← operands stack
    some (term :: terms)

def address : Instruction → Option Term
  | .value .. => some (.through [])
  | .compute .addAddress _ stack => do
    let terms ← addresses stack
    some (.through terms)
  | .compute .mulAddress _ stack => do
    let terms ← addresses stack
    some (.through terms)
  | .compute .toAddress _ stack => do
    let terms ← operands stack
    some (.through terms)
  | _ => none

def addresses : List Instruction → Option (List Term)
  | [] => some []
  | i :: stack => do
    let term ← address i
    let terms ← addresses stack
    some (term :: terms)

def locationTerms : LocationRule → Option (List Term)
  | .indexed location => do
    let term ← address location
    some [term]
  | .mapped _ indexes => accessesTerms indexes

def accessTerms : AccessType → Option (List Term)
  | .indexed indexes _ => addresses indexes
  | .qualified _ => some []

def accessesTerms : List AccessType → Option (List Term)
  | [] => some []
  | acc :: indexes => do
    let first ← accessTerms acc
    let rest ← accessesTerms indexes
    some (first ++ rest)

def addressTypeTerms : AddressType → Option (List Term)
  | .subcmpSignal cmpAddress => do
    let term ← address cmpAddress
    some [term]
  | _ => some []

def checkTerms : List OutBoundsCheck → Option (List Term)
  | [] => some []
  | .mk access _ :: checks =>
    if sanityCheck then do
      let term ← address access
      let terms ← checkTerms checks
      some (term :: terms)
    else some []

end

mutual

/-- A call whose value is used has no checks. -/
def expression : Instruction → Option Expression
  | .call _ arguments (.intermediate opAuxNo) [] => do
    let arguments ← expressions arguments
    some (.call opAuxNo arguments)
  | .value parseAs value opAuxNo => do
    let term ← operand sanityCheck (.value parseAs value opAuxNo)
    some (.term term)
  | .load addressType src checks => do
    let term ← operand sanityCheck (.load addressType src checks)
    some (.term term)
  | .compute op opAuxNo stack => do
    let term ← operand sanityCheck (.compute op opAuxNo stack)
    some (.term term)
  | _ => none

def expressions : List Instruction → Option (List Expression)
  | [] => some []
  | i :: instructions => do
    let expr ← expression i
    let exprs ← expressions instructions
    some (expr :: exprs)

end

end

/-! ## Instructions without branches and loops -/

mutual

/-- The instructions of branches and loops, with their conditions. -/
def flatten : Instruction → List Instruction
  | .branch cond ifBranch elseBranch => cond :: (flattenList ifBranch ++ flattenList elseBranch)
  | .loop continueCondition body => continueCondition :: flattenList body
  | i => [i]

def flattenList : List Instruction → List Instruction
  | [] => []
  | i :: instructions => flatten i ++ flattenList instructions

end

structure Evaluation where
  expressions : List Expression
  /-- The arguments of a call with a destination. -/
  arguments : List Expression := []
  /-- The destination of a store to an output and its source. -/
  output : Option (Term × Expression) := none
  /-- The address of the component that a store reads its source from, and what is evaluated before it is read. -/
  source : Option (Term × List Expression) := none
  output_mem : ∀ o ∈ output, o.2 ∈ expressions := by simp
  source_subset : ∀ s ∈ source, s.2 ⊆ expressions := by simp

/-- A store to an output of the template. -/
def isOutputStore (destIsOutput : Bool) : AddressType → Bool
  | .signal => destIsOutput
  | _ => false

/-- The destination of a store. A position that is looked up at run time is kept in variables before the checks. -/
def destination (dest : LocationRule) (location checks : List Term) : List Expression :=
  match dest with
  | .indexed _ => [.term (.checked location checks)]
  | .mapped .. => [.term (.through location), .term (.checked [] checks)]

def storeEvaluation (isOutput : Bool) (cmpAddress : List Term) (srcAddress : Option Term) (dest : LocationRule)
    (location checks : List Term) (src : Expression) : Evaluation where
  expressions := .term (.through cmpAddress) :: (destination dest location checks ++ [src])
  output := if isOutput then some (.through location, src) else none
  source := srcAddress.map (·, destination dest location checks ++ [src])
  output_mem := by
    intro o ho
    split_ifs at ho
    · obtain rfl := Option.some.inj ho
      exact List.mem_cons_of_mem _ (List.mem_append_right _ List.mem_cons_self)
    · cases ho
  source_subset := by
    intro s hs
    obtain ⟨term, -, rfl⟩ := Option.map_eq_some_iff.mp hs
    exact List.subset_cons_self _ _

section

variable (sanityCheck : Bool)

def sourceAddress : Option Instruction → Option (Option Term)
  | none => some none
  | some srcAddressType => (address sanityCheck srcAddressType).map some

def evaluation : Instruction → Option Evaluation
  | .store destIsOutput destAddressType srcAddressType dest src checks => do
    let cmpAddress ← addressTypeTerms sanityCheck destAddressType
    let srcAddress ← sourceAddress sanityCheck srcAddressType
    let location ← locationTerms sanityCheck dest
    let checks ← checkTerms sanityCheck checks
    let src ← expression sanityCheck src
    some (storeEvaluation (isOutputStore destIsOutput destAddressType) cmpAddress srcAddress dest location checks src)
  | .call _ arguments (.final destAddressType dest) checks => do
    let checks ← checkTerms sanityCheck checks
    let arguments ← expressions sanityCheck arguments
    let cmpAddress ← addressTypeTerms sanityCheck destAddressType
    let dest ← locationTerms sanityCheck dest
    some {
      expressions := [.term (.checked [] checks), .term (.through cmpAddress), .term (.through dest)]
      arguments }
  | .ret value => do
    let value ← expression sanityCheck value
    some { expressions := [value] }
  | .assert evaluate => do
    let evaluate ← expression sanityCheck evaluate
    some { expressions := [evaluate] }
  | .createCmp _ subCmpId => do
    let subCmpId ← expression sanityCheck subCmpId
    some { expressions := [subCmpId] }
  | .log argsprint => do
    let argsprint ← expressions sanityCheck argsprint
    some { expressions := argsprint }
  | i => do
    let expr ← expression sanityCheck i
    some { expressions := [expr] }

/-- The evaluations of a program whose operands, indices and arguments are those of translated expressions. -/
def evaluations (code : List Instruction) : Option (List Evaluation) :=
  (flattenList code).mapM (evaluation sanityCheck)

end

/-! ## What the slots are for -/

namespace Expression

/-- The slot that the value itself is written to. -/
def own : Expression → List ℕ
  | term (.value slot _) => [slot]
  | term _ => []
  | call opAuxNo _ => [opAuxNo]

mutual

def assigned : Expression → List ℕ
  | term t => t.assigned
  | call opAuxNo arguments => opAuxNo :: assignedAll arguments

def assignedAll : List Expression → List ℕ
  | [] => []
  | expr :: exprs => assigned expr ++ assignedAll exprs

end

mutual

/-- No slot is written while its value is needed; the slots of the arguments of a call are different. -/
def Safe : Expression → Prop
  | term t => t.Safe
  | call opAuxNo arguments => opAuxNo ∉ assignedAll arguments ∧ SafeAll arguments

def SafeAll : List Expression → Prop
  | [] => True
  | expr :: exprs => Safe expr ∧ (∀ slot ∈ own expr, slot ∉ assignedAll exprs) ∧ SafeAll exprs

end

end Expression

namespace Evaluation

/-- The slots that the instruction writes. -/
def assigned (e : Evaluation) : List ℕ :=
  e.expressions.flatMap Expression.assigned ++ Expression.assignedAll e.arguments ++
    e.source.toList.flatMap fun source => source.1.assigned

/-- No slot is written while its value is needed. The address of a destination is taken before the source is
evaluated, but the code of a parallel template computes the position of an output again after the source, and the
address of the component of the source is computed again for its size. -/
structure Safe (parallel : Bool) (e : Evaluation) : Prop where
  expressions : ∀ expr ∈ e.expressions, expr.Safe
  arguments : Expression.SafeAll e.arguments
  source : ∀ source ∈ e.source, source.1.Safe ∧ ∀ slot ∈ source.1.held, ∀ expr ∈ source.2, slot ∉ expr.assigned
  output : parallel = true → ∀ output ∈ e.output, ∀ slot ∈ output.1.held, slot ∉ output.2.assigned

end Evaluation

namespace Expression

mutual

/-- How many slots are in use at the nodes of the expression, when `n` are in use before. A call reserves a slot for
the result and one for every argument. -/
def inUse (n : ℕ) : Expression → List ℕ
  | term t => t.inUse n
  | call _ arguments => n :: inUseAll (n + 1) arguments

def inUseAll (n : ℕ) : List Expression → List ℕ
  | [] => []
  | expr :: exprs => inUse (n + 1) expr ++ inUseAll (n + 1) exprs

end

mutual

/-- The checks of the expression, with the slots that are needed when they are evaluated. -/
def checks (n : ℕ) : Expression → List (List ℕ × Term)
  | term t => t.checks n
  | call _ arguments => keeping [n] (checksAll (n + 1) arguments)

def checksAll (n : ℕ) : List Expression → List (List ℕ × Term)
  | [] => []
  | expr :: exprs => checks (n + 1) expr ++ keeping ((own expr).map fun _ => n + 1) (checksAll (n + 1) exprs)

end

mutual

/-- How many slots are in use before the calls without arguments. -/
def bareCalls (n : ℕ) : Expression → List ℕ
  | term _ => []
  | call _ arguments => if arguments.isEmpty then [n] else bareCallsAll (n + 1) arguments

def bareCallsAll (n : ℕ) : List Expression → List ℕ
  | [] => []
  | expr :: exprs => bareCalls (n + 1) expr ++ bareCallsAll (n + 1) exprs

end

end Expression

namespace Evaluation

def inUse (e : Evaluation) : List ℕ :=
  e.expressions.flatMap (Expression.inUse 0) ++ Expression.inUseAll 0 e.arguments

def bareCalls (e : Evaluation) : List ℕ :=
  e.expressions.flatMap (Expression.bareCalls 0) ++ Expression.bareCallsAll 0 e.arguments

/-- All checks, with the slots that are needed when they are evaluated. -/
def allChecks (e : Evaluation) : List (List ℕ × Term) :=
  e.expressions.flatMap (Expression.checks 0) ++ Expression.checksAll 0 e.arguments

/-- The slots that the pass does not number. -/
def unnumbered (e : Evaluation) : List ℕ :=
  (e.source.toList.flatMap fun source => source.1.assigned) ++ e.allChecks.flatMap fun check => check.2.assigned

end Evaluation

/-- The condition for the slots. In a parallel template, no source of an output needs a slot if the position of the
output does. No check writes a slot that is needed. If the address of the component of a source needs a slot, then
neither the destination nor the source does. For every call without arguments whose value is used and for every slot
that is not numbered, somewhere more slots are in use. -/
structure Fits (parallel : Bool) (evaluations : List Evaluation) : Prop where
  outputs : parallel = true → ∀ e ∈ evaluations, ∀ output ∈ e.output, output.1.held = [] ∨ output.2.assigned = []
  checks : ∀ e ∈ evaluations, ∀ check ∈ e.allChecks, Term.Fits check
  sources : ∀ e ∈ evaluations, ∀ source ∈ e.source,
    source.1.Safe ∧ (source.1.held = [] ∨ ∀ expr ∈ source.2, expr.assigned = [])
  calls : ∀ e ∈ evaluations, ∀ n ∈ e.bareCalls, ∃ e' ∈ evaluations, ∃ m ∈ e'.inUse, n < m
  unnumbered : ∀ e ∈ evaluations, ∀ slot ∈ e.unnumbered, ∃ e' ∈ evaluations, ∃ m ∈ e'.inUse, slot < m

end Circom.IrProcessing.BuildStack
