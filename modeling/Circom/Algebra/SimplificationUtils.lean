import Circom.Algebra.Constraint

/-!
# Linear simplification

The Gaussian elimination of `circom_algebra::simplification_utils`. A linked list is a list whose
`pop_back` takes its last element. `none` is a panic or a loop that does not end; the capacities that
the source reserves for its tables (`num_signals`) do not appear.
-/

namespace Circom.Algebra.SimplificationUtils

open Circom.Lib (HashMap HashOrder)

/-- `C::empty`, `C::is_empty` and the other operations are those of `Constraint ℕ`. -/
abbrev C := Constraint ℕ

abbrev S := Substitution ℕ

abbrev A := ArithmeticExpression ℕ

/-- Normalized substitutions, a map ordered by the replaced signal. -/
abbrev SH := HashMap ℕ S

/-- Substitutions `coefficient * from = to` that are not yet divided by their coefficient. -/
abbrev SHNotNormalized := HashMap ℕ (ℤ × S)

/-! ## The signals of a run -/

structure SignalDefinition where
  deletedSymbols : Finset ℕ
  forbidden : Finset ℕ

namespace SignalDefinition

def canBeTaken (signals : SignalDefinition) (k : ℕ) : Bool := k ∉ signals.forbidden

def delete (signals : SignalDefinition) (k : ℕ) : SignalDefinition :=
  { signals with deletedSymbols := insert k signals.deletedSymbols }

end SignalDefinition

structure SignalDefinition4 where
  deletedSymbols : Finset ℕ
  forbidden : Finset ℕ
  /-- The last eliminated signal is the first of the list. -/
  orderSignals : List ℕ

namespace SignalDefinition4

def canBeTaken (signals : SignalDefinition4) (k : ℕ) : Bool := k ∉ signals.forbidden

def delete (signals : SignalDefinition4) (k : ℕ) : SignalDefinition4 :=
  { signals with
    deletedSymbols := insert k signals.deletedSymbols
    orderSignals := k :: signals.orderSignals }

def isDeleted (signals : SignalDefinition4) (k : ℕ) : Bool := k ∈ signals.deletedSymbols

end SignalDefinition4

/-- The number of constraints, among those still to be treated, that contain a signal. -/
structure SignalsInformation where
  signalToOcurrences : HashMap ℕ ℕ

namespace SignalsInformation

/-- Counts one more occurrence of `k`, and remembers `pos` when it is the first. -/
def countOcurrence (pos : ℕ) (acc : HashMap ℕ ℕ × HashMap ℕ ℕ) (k : ℕ) :
    HashMap ℕ ℕ × HashMap ℕ ℕ :=
  match acc.1.lookup k with
  | some prevOcu => (acc.1.insert k (prevOcu + 1), acc.2)
  | none => (acc.1.insert k 1, acc.2.insert k pos)

/-- The occurrences of the takeable signals and the position of the first one. -/
def countOcurrences (constraints : List C) (signals : SignalDefinition4) :
    HashMap ℕ ℕ × HashMap ℕ ℕ :=
  constraints.zipIdx.foldl (fun acc cp =>
    (cp.1.c.keys.filter signals.canBeTaken).foldl (countOcurrence cp.2) acc) (∅, ∅)

/-- The second component maps each signal that occurs once to the position of its constraint. -/
def new (constraints : List C) (signals : SignalDefinition4) :
    Option (SignalsInformation × HashMap ℕ ℕ) := do
  let (signalToOcurrences, signalToRep) := countOcurrences constraints signals
  let uniques ← (signalToOcurrences.pairs.filter fun e => e.2 = 1).mapM fun e => do
    some (e.1, ← signalToRep.lookup e.1)
  some (⟨signalToOcurrences⟩, AList.ofPairs uniques)

/-- The counters are unsigned: going below zero is an overflow. -/
def removeConstraint (info : SignalsInformation) (constraint : C) (signals : SignalDefinition4) :
    Option SignalsInformation :=
  (constraint.c.keys.filter signals.canBeTaken).foldlM (fun info signal =>
    match info.signalToOcurrences.lookup signal with
    | some 0 => none
    | some (ocurrences + 1) => some ⟨info.signalToOcurrences.insert signal ocurrences⟩
    | none => some info) info

def removeSignal (info : SignalsInformation) (signal : ℕ) : SignalsInformation :=
  ⟨info.signalToOcurrences.erase signal⟩

end SignalsInformation

/-! ## Choosing the signal to eliminate -/

/-- The greatest signal of the constraint that can be taken. -/
def takeSignal3 (signals : SignalDefinition) (constraint : C) : Option ℕ :=
  (constraint.c.keys.filter signals.canBeTaken).foldl (fun ret k => some (max k (ret.getD k))) none

/-- The walk of `take_signal_4`: `ret` is the best candidate so far with its number of occurrences. -/
def takeSignal4Loop (signals : SignalDefinition4) (infoOcurrences : SignalsInformation) :
    Option (ℕ × ℕ) → List ℕ → Option (Option ℕ)
  | ret, [] => some (ret.map Prod.fst)
  | ret, k :: keys =>
    if signals.canBeTaken k then
      if signals.isDeleted k then some (some k)
      else do
        let newOcurrences ← infoOcurrences.signalToOcurrences.lookup k
        match ret with
        | none => takeSignal4Loop signals infoOcurrences (some (k, newOcurrences)) keys
        | some (best, valAnt) =>
          if newOcurrences < valAnt then
            takeSignal4Loop signals infoOcurrences (some (k, newOcurrences)) keys
          else if newOcurrences = valAnt ∧ best < k then
            takeSignal4Loop signals infoOcurrences (some (k, valAnt)) keys
          else takeSignal4Loop signals infoOcurrences ret keys
    else takeSignal4Loop signals infoOcurrences ret keys

/-- A deleted signal if the walk meets one, else a signal with the fewest occurrences, the greatest
one among equals. Panics when a signal without counter is met. -/
def takeSignal4 (o : HashOrder) (signals : SignalDefinition4) (infoOcurrences : SignalsInformation)
    (constraint : C) : Option (Option ℕ) :=
  takeSignal4Loop signals infoOcurrences none (o.walk constraint.c.keys)

/-! ## Treating one constraint -/

/-- Two substitutions `c₁ * x = e₁` and `c₂ * x = e₂` of one signal give the constraint
`c₂ * e₁ - c₁ * e₂ = 0`. -/
def mergeConflict (inConflict : ℤ × S) (coefficient : ℤ) (substitution : S) (field : ℤ) :
    Option C := do
  let right := inConflict.2.decompose.2
  let left := substitution.decompose.2
  let expCoefRight : A := .number inConflict.1
  let expCoefLeft : A := .number coefficient
  let newLeft := ArithmeticExpression.mul expCoefRight left field
  let newRight := ArithmeticExpression.mul expCoefLeft right field
  let merge ← ArithmeticExpression.sub newLeft newRight field
  let work ← ArithmeticExpression.transformExpressionToConstraintForm merge field
  some work.removeZeroValueCoefficients

structure State3 where
  signals : SignalDefinition
  substitutions : SHNotNormalized
  lconst : List C

/-- The loop of `treat_constraint_3`, run at most `fuel` times. -/
def treatConstraint3Loop (field : ℤ) : ℕ → State3 → C → Option State3
  | 0, _, _ => none
  | fuel + 1, state, work =>
    if work.isEmpty then some state
    else
      match takeSignal3 state.signals work with
      | none => some { state with lconst := state.lconst ++ [work] }
      | some out => do
        let state := { state with signals := state.signals.delete out }
        let (coefficient, substitution) ← work.clearSignalFromLinearNotNormalized out field
        match state.substitutions.lookup substitution.fromSignal with
        | none =>
          some { state with
            substitutions :=
              state.substitutions.insert substitution.fromSignal (coefficient, substitution) }
        | some inConflict => do
          let work ← mergeConflict inConflict coefficient substitution field
          treatConstraint3Loop field fuel state work

/-- A run of the loop ends within this number of rounds. -/
def loopBound (substitutions : SHNotNormalized) : ℕ := 2 ^ substitutions.len

def treatConstraint3 (field : ℤ) (state : State3) (work : C) : Option State3 :=
  treatConstraint3Loop field (loopBound state.substitutions) state work

structure State4 where
  signals : SignalDefinition4
  substitutions : SHNotNormalized
  lconst : List C
  infoOcurrences : SignalsInformation

def treatUniqueConstraint4 (field : ℤ) (state : State4) (work : C) (signal : ℕ) :
    Option State4 := do
  let (coefficient, substitution) ← work.clearSignalFromLinearNotNormalized signal field
  some { state with
    substitutions := state.substitutions.insert substitution.fromSignal (coefficient, substitution)
    infoOcurrences := state.infoOcurrences.removeSignal signal
    signals := state.signals.delete signal }

/-- The loop of `treat_constraint_4`, run at most `fuel` times. -/
def treatConstraint4Loop (o : HashOrder) (field : ℤ) : ℕ → State4 → C → Option State4
  | 0, _, _ => none
  | fuel + 1, state, work =>
    if work.isEmpty then some state
    else do
      match ← takeSignal4 (o.sub fuel) state.signals state.infoOcurrences work with
      | none => some { state with lconst := state.lconst ++ [work] }
      | some out =>
        let (coefficient, substitution) ← work.clearSignalFromLinearNotNormalized out field
        match state.substitutions.lookup substitution.fromSignal with
        | none =>
          some { state with
            signals := state.signals.delete out
            infoOcurrences := state.infoOcurrences.removeSignal out
            substitutions :=
              state.substitutions.insert substitution.fromSignal (coefficient, substitution) }
        | some inConflict => do
          let work ← mergeConflict inConflict coefficient substitution field
          treatConstraint4Loop o field fuel state work

def treatConstraint4 (o : HashOrder) (field : ℤ) (state : State4) (work : C) : Option State4 :=
  treatConstraint4Loop o field (loopBound state.substitutions) state work

/-! ## Treating a list of constraints -/

def substitutionProcess3 (signals : SignalDefinition) (constraints : List C) (field : ℤ) :
    Option State3 :=
  constraints.reverse.foldlM (treatConstraint3 field) ⟨signals, ∅, []⟩

/-- One step of the first pass: the constraint of a signal that occurs nowhere else. -/
def treatUnique4 (field : ℤ) (acc : State4 × List C) (unique : ℕ × ℕ) :
    Option (State4 × List C) := do
  let (state, vecConstraints) := acc
  let actualConstraint ← vecConstraints[unique.2]?
  if actualConstraint.isEmpty then some acc
  else do
    let infoOcurrences ← state.infoOcurrences.removeConstraint actualConstraint state.signals
    let state ←
      treatUniqueConstraint4 field { state with infoOcurrences } actualConstraint unique.1
    some (state, vecConstraints.set unique.2 Constraint.empty)

/-- The second pass: the remaining constraints, the last one first. -/
def treatRemaining4 (o : HashOrder) (field : ℤ) (state : State4) (indexed : C × ℕ) :
    Option State4 := do
  let infoOcurrences ← state.infoOcurrences.removeConstraint indexed.1 state.signals
  treatConstraint4 (o.sub indexed.2) field { state with infoOcurrences } indexed.1

def substitutionProcess4 (o : HashOrder) (signals : SignalDefinition4) (constraints : List C)
    (field : ℤ) : Option State4 := do
  let (infoOcurrences, uniques) ← SignalsInformation.new constraints signals
  let (state, vecConstraints) ←
    uniques.ascendingPairs.foldlM (treatUnique4 field) (⟨signals, ∅, [], infoOcurrences⟩, constraints)
  vecConstraints.zipIdx.reverse.foldlM (treatRemaining4 o field) state

/-! ## Back substitution -/

/-- Divides every substitution by its coefficient, with one inversion for all of them. -/
def normalizeSubstitutions (substitutions : SHNotNormalized) (field : ℤ) : Option SH := do
  let ordered := substitutions.ascendingPairs
  let coeffs := ordered.map fun e => e.2.1
  let inverses ← ModularArithmetic.multiInv coeffs field
  let tree ← ordered.zipIdx.mapM fun ((signal, (_, sub)), i) => do
    let inv ← inverses[i]?
    let arithSub := ArithmeticExpression.hashmapIntoArith sub.toExpr
    let multByInverse := ArithmeticExpression.mul arithSub (.number inv) field
    some (signal, ← Substitution.new signal multByInverse)
  some (AList.ofPairs tree)

def takeSubstitutionsToBeApplied (o : HashOrder) (sh : HashMap ℕ S) (subs : S) : List S :=
  (o.walk subs.toExpr.keys).filterMap sh.lookup

/-- One round of back substitution. -/
def addNonoverlapping (o : HashOrder) (field : ℤ) (noOverlap : HashMap ℕ S) (s : ℕ)
    (substitution : S) : HashMap ℕ S :=
  let toBeApplied := takeSubstitutionsToBeApplied o noOverlap substitution
  noOverlap.insert s
    (toBeApplied.foldl (fun substitution sub => substitution.applySubstitution sub field) substitution)

def createNonoverlappingSubstitutions (o : HashOrder) (possibleOverlap : SH) (field : ℤ) :
    HashMap ℕ S :=
  possibleOverlap.ascendingPairs.foldl
    (fun noOverlap e => addNonoverlapping (o.sub e.1) field noOverlap e.1 e.2) ∅

/-- Each signal of the order is removed from `possible_overlap`; panics when it is not there. -/
def createNonoverlappingSubstitutions4 (o : HashOrder) (possibleOverlap : SH)
    (signals : SignalDefinition4) (field : ℤ) : Option (HashMap ℕ S) := do
  let (_, noOverlap) ← signals.orderSignals.foldlM (fun (acc : SH × HashMap ℕ S) s => do
    let substitution ← acc.1.lookup s
    some (acc.1.erase s, addNonoverlapping (o.sub s) field acc.2 s substitution))
    (possibleOverlap, ∅)
  some noOverlap

/-! ## Applying maps of substitutions -/

/-- Applies to a constraint the expressions that replace its signals. Panics when an expression is not
linear or mentions the signal it replaces. -/
def fastEncodedConstraintSubstitution (o : HashOrder) (c : C) (enc : HashMap ℕ A) (field : ℤ) :
    Option (C × Bool) :=
  (o.walk c.takeClonedSignals.ascending).foldlM (fun (acc : C × Bool) signal =>
    match enc.lookup signal with
    | none => some acc
    | some expr => do
      let sub ← Substitution.new signal expr
      some (acc.1.applySubstitution sub field, true)) (c, false)

def fastEncodedSubstitutionSubstitution (o : HashOrder) (s : S) (enc : HashMap ℕ A) (field : ℤ) :
    Option S := do
  let s ← (o.walk s.takeClonedSignals.ascending).foldlM (fun (s : S) signal =>
    match enc.lookup signal with
    | none => some s
    | some expr => do
      let sub ← Substitution.new signal expr
      some (s.applySubstitution sub field)) s
  some s.rmvZeroCoefficients

/-- Of several substitutions of one signal the last one stays. -/
def buildEncodedFastSubstitutions (fastSub : List S) : HashMap ℕ A :=
  AList.ofPairs (fastSub.map Substitution.decompose)

/-! ## Full simplification -/

structure Config where
  field : ℤ
  constraints : List C
  forbidden : Finset ℕ
  useOldHeuristics : Bool

structure Simplified where
  constraints : List C
  substitutions : List S
  removed : List ℕ

def Config.applyLessOcurrences (config : Config) : Bool :=
  350 ≤ config.constraints.length && config.constraints.length < 1000000 && !config.useOldHeuristics

/-- Collects the result of a run in some order of the table of substitutions. -/
def collectSimplified (o : HashOrder) (constraints : List C) (nonOverlapping : HashMap ℕ S) :
    Simplified :=
  let entries := o.walk nonOverlapping.pairs
  ⟨constraints, entries.map Prod.snd, entries.map Prod.fst⟩

/-- `full_simplification` with the branch given. -/
def fullSimplificationWith (applyLessOcurrences : Bool) (o : HashOrder) (config : Config) :
    Option Simplified :=
  if applyLessOcurrences then do
    let state ←
      substitutionProcess4 (o.sub 0) ⟨∅, config.forbidden, []⟩ config.constraints config.field
    let normalizedHolder ← normalizeSubstitutions state.substitutions config.field
    let nonOverlapping ←
      createNonoverlappingSubstitutions4 (o.sub 1) normalizedHolder state.signals config.field
    some (collectSimplified (o.sub 2) state.lconst nonOverlapping)
  else do
    let state ← substitutionProcess3 ⟨∅, config.forbidden⟩ config.constraints config.field
    let normalizedHolder ← normalizeSubstitutions state.substitutions config.field
    let nonOverlapping :=
      createNonoverlappingSubstitutions (o.sub 1) normalizedHolder config.field
    some (collectSimplified (o.sub 2) state.lconst nonOverlapping)

def fullSimplification (o : HashOrder) (config : Config) : Option Simplified :=
  fullSimplificationWith config.applyLessOcurrences o config

end Circom.Algebra.SimplificationUtils
