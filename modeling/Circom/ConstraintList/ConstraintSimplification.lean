import Circom.Algebra.CompressedStorage
import Circom.Algebra.SimplificationUtils
import Circom.ConstraintList.Encoding

/-!
# Constraint simplification

`simplification` of the crate `constraint_list`: equalities, constant equalities and the other linear
constraints are eliminated one after the other, the non-linear constraints are rewritten on the way out
of the encoding, and rounds of linear elimination follow. Jobs of the thread pool finish in any order. The
log of the substitutions is left out. `none` is a panic.
-/

set_option linter.dupNamespace false

namespace Circom.ConstraintList

open Circom.Algebra (ConstraintStorage)
open Circom.Algebra.SimplificationUtils (fastEncodedConstraintSubstitution
  buildEncodedFastSubstitutions fullSimplification)
open Circom.Lib (HashMap HashOrder)

abbrev S := Algebra.Substitution ℕ

abbrev A := Algebra.ArithmeticExpression ℕ

/-- From the signals that stay to their positions in the witness. -/
abbrev SignalMap := HashMap ℕ ℕ

abbrev SEncoded := HashMap ℕ A

abbrev SFrames := List SEncoded

/-! ## Clusters -/

structure Cluster where
  constraints : List C := []
  numSignals : ℕ := 0

namespace Cluster

def new (constraint : C) (numSignals : ℕ) : Cluster := ⟨[constraint], numSignals⟩

/-- The two clusters share a signal; without signals the count overflows. -/
def merge (c0 c1 : Cluster) : Option Cluster :=
  if c0.numSignals + c1.numSignals = 0 then none
  else some ⟨c0.constraints ++ c1.constraints, c0.numSignals + c1.numSignals - 1⟩

def size (cluster : Cluster) : ℕ := cluster.constraints.length

end Cluster

abbrev ClusterArena := List (Option Cluster)

abbrev ClusterPath := List ℕ

/-- The first loop of `shrink_jumps_and_find`: the end of the path, and the jumps on top of each other. -/
def followJumps (cToC : ClusterPath) : ℕ → ℕ → List ℕ → Option (ℕ × List ℕ)
  | 0, _, _ => none
  | fuel + 1, current, jumps => do
    let next ← cToC[current]?
    if current ≠ next then followJumps cToC fuel next (current :: jumps) else some (current, jumps)

/-- A path visits every cluster at most once. -/
def shrinkJumpsAndFind (cToC : ClusterPath) (org : ℕ) : Option (ClusterPath × ℕ) := do
  let (current, jumps) ← followJumps cToC (cToC.length + 1) org []
  some (jumps.foldl (fun cToC redirect => cToC.set redirect current) cToC, current)

/-- A cluster that was taken out is empty by default. -/
def arenaMerge (arena : ClusterArena) (cToC : ClusterPath) (src dest : ℕ) :
    Option (ClusterArena × ClusterPath) := do
  let (cToC, currentDest) ← shrinkJumpsAndFind cToC dest
  let (cToC, currentSrc) ← shrinkJumpsAndFind cToC src
  let c0 ← arena[currentDest]?
  let arena := arena.set currentDest none
  let c1 ← arena[currentSrc]?
  let arena := arena.set currentSrc none
  let merged ← Cluster.merge (c0.getD {}) (c1.getD {})
  some (arena.set currentDest (some merged), cToC.set currentSrc currentDest)

/-- The tables of `build_clusters`. -/
structure Clusters where
  arena : ClusterArena
  clusterToCurrent : ClusterPath
  signalToCluster : List ℕ

/-- Puts a signal of the newest cluster `dest` there, with the cluster that had the signal before. -/
def joinSignal (noLinear dest : ℕ) (clusters : Clusters) (signal : ℕ) : Option Clusters := do
  let prev ← clusters.signalToCluster[signal]?
  let clusters :=
    { clusters with signalToCluster := clusters.signalToCluster.set signal dest }
  if prev < noLinear then
    let (arena, clusterToCurrent) ← arenaMerge clusters.arena clusters.clusterToCurrent prev dest
    some { clusters with arena, clusterToCurrent }
  else some clusters

def addToClusters (o : HashOrder) (noLinear : ℕ) (clusters : Clusters) (constraint : C) :
    Option Clusters :=
  if constraint.isEmpty then some clusters
  else
    let dest := clusters.arena.length
    let signals := (o.sub dest).walk constraint.takeClonedSignals.ascending
    signals.foldlM (joinSignal noLinear dest)
      { clusters with
        arena := clusters.arena ++ [some (Cluster.new constraint signals.length)]
        clusterToCurrent := clusters.clusterToCurrent ++ [dest] }

def buildClusters (o : HashOrder) (linear : List C) (noVars : ℕ) : Option (List Cluster) := do
  let noLinear := linear.length
  let clusters ←
    linear.foldlM (addToClusters o noLinear) ⟨[], [], List.replicate noVars noLinear⟩
  some (clusters.arena.reduceOption.filter fun cluster => cluster.size ≠ 0)

/-! ## Equalities -/

/-- The forbidden signals of a cluster and the others, with the smallest of each. -/
structure EqSignals where
  remains : Finset ℕ := ∅
  minRemains : Option ℕ := none
  remove : Finset ℕ := ∅
  minRemove : Option ℕ := none

def EqSignals.push (forbidden : Finset ℕ) (signals : EqSignals) (signal : ℕ) : EqSignals :=
  if signal ∈ forbidden then
    { signals with
      remains := insert signal signals.remains
      minRemains := some (signals.minRemains.elim signal fun s => min s signal) }
  else
    { signals with
      minRemove := some (signals.minRemove.elim signal fun s => min s signal)
      remove := insert signal signals.remove }

/-- The signal that stands for the cluster, and the two sets without it. -/
def EqSignals.takeRhSignal (signals : EqSignals) : Option (ℕ × Finset ℕ × Finset ℕ) :=
  match signals.minRemains with
  | some signal => some (signal, signals.remains.erase signal, signals.remove)
  | none => do
    let signal ← signals.minRemove
    some (signal, signals.remains, signals.remove.erase signal)

/-- A single equality. -/
def eqSingleSimplification (constraint : C) (forbidden : Finset ℕ) : Option (List S × List C) := do
  let signals := constraint.takeClonedSignalsOrdered
  let s0 ← signals[0]?
  let s1 ← signals[1]?
  if s0 ∈ forbidden ∧ s1 ∈ forbidden then some ([], [constraint])
  else if s0 ∈ forbidden then some ([← Algebra.Substitution.new s1 (.signal s0)], [])
  else if s1 ∈ forbidden then some ([← Algebra.Substitution.new s0 (.signal s1)], [])
  else
    let (l, r) := if s0 > s1 then (s0, s1) else (s1, s0)
    some ([← Algebra.Substitution.new l (.signal r)], [])

def eqClusterSimplification (o : HashOrder) (cluster : Cluster) (forbidden : Finset ℕ) (field : ℤ) :
    Option (List S × List C) :=
  if cluster.size = 1 then do
    let constraint ← cluster.constraints.getLast?
    eqSingleSimplification constraint forbidden
  else do
    let signals := (cluster.constraints.flatMap fun c => c.takeClonedSignalsOrdered).foldl
      (EqSignals.push forbidden) {}
    let (rhSignal, remains, remove) ← signals.takeRhSignal
    let cons ← remains.ascending.mapM fun signal => do
      let expr ← Algebra.ArithmeticExpression.sub (.signal signal) (.signal rhSignal) field
      Algebra.ArithmeticExpression.transformExpressionToConstraintForm expr field
    let subs ← (o.walk remove.ascending).mapM fun signal =>
      Algebra.Substitution.new signal (.signal rhSignal)
    some (subs, cons)

/-- The clusters of one equality are treated at once, the others by the pool; the constraints are put in
the order of the clusters. -/
def eqSimplification (o : HashOrder) (equalities : List C) (forbidden : Finset ℕ) (noVars : ℕ)
    (field : ℤ) : Option (List S × List C) := do
  let clusters ← buildClusters (o.sub 0) equalities noVars
  let results ← clusters.zipIdx.mapM fun e => do
    let result ← eqClusterSimplification ((o.sub 1).sub e.2) e.1 forbidden field
    some (e.1, result)
  let single := results.filter fun e => e.1.size = 1
  let received := (o.sub 2).walk (results.filter fun e => e.1.size ≠ 1)
  some ((single ++ received).flatMap fun e => e.2.1, results.flatMap fun e => e.2.2)

/-! ## Constant equalities -/

def constantEqSimplification (cEq : List C) (forbidden : Finset ℕ) (field : ℤ) :
    Option (List S × List C) :=
  cEq.foldlM (fun (subs, cons) constraint => do
    let signal ← constraint.takeClonedSignalsOrdered.getLast?
    if signal ∈ forbidden then some (subs, cons ++ [constraint])
    else do
      let sub ← constraint.clearSignalFromLinear signal field
      some (subs ++ [sub], cons)) ([], [])

/-! ## Linear constraints -/

def linearSimplification (o : HashOrder) (linear : List C) (forbidden : Finset ℕ) (noLabels : ℕ)
    (field : ℤ) (useOldHeuristics : Bool) : Option (List S × List C) := do
  let clusters ← buildClusters (o.sub 0) linear noLabels
  let results ← clusters.zipIdx.mapM fun e =>
    fullSimplification ((o.sub 1).sub e.2) ⟨field, e.1.constraints, forbidden, useOldHeuristics⟩
  let received := (o.sub 2).walk results
  some (received.flatMap fun result => result.substitutions,
    received.flatMap fun result => result.constraints)

/-! ## Signals and the constraints that contain them -/

abbrev SignalToConstraints := HashMap ℕ (List ℕ)

/-- Appends `cId` to the list of a signal. -/
def pushConstraint (cId : ℕ) (map : SignalToConstraints) (signal : ℕ) : SignalToConstraints :=
  match map.lookup signal with
  | some list => map.insert signal (list ++ [cId])
  | none => map.insert signal [cId]

def buildNonLinearSignalMap (nonLinear : ConstraintStorage) : Option SignalToConstraints :=
  nonLinear.getIds.foldlM (fun map cId => do
    let constraint ← nonLinear.readConstraint cId
    some (constraint.takeClonedSignals.ascending.foldl (pushConstraint cId) map)) ∅

/-- A storage with the map of its signals. -/
structure Mapped where
  storage : ConstraintStorage
  map : SignalToConstraints

/-- Adds a constraint with its signals. -/
def Mapped.addConstraint (mapped : Mapped) (constraint : C) : Mapped :=
  let (storage, cId) := mapped.storage.addConstraint constraint
  ⟨storage, constraint.takeClonedSignals.ascending.foldl (pushConstraint cId) mapped.map⟩

/-- Applies a substitution to the constraint `cId`; `linear` are the constraints that became linear. -/
def substituteInStorage (substitution : S) (field : ℤ) (acc : Mapped × List ℕ) (cId : ℕ) :
    Option (Mapped × List ℕ) := do
  let (mapped, linear) := acc
  let constraint ← mapped.storage.readConstraint cId
  let constraint := (constraint.applySubstitution substitution field).fixConstraint field
  some
    (⟨mapped.storage.replace cId constraint,
        substitution.toExpr.keys.foldl (pushConstraint cId) mapped.map⟩,
      if constraint.isLinear then linear ++ [cId] else linear)

/-- Applies a substitution to the constraints that contain its signal. -/
def constraintProcessing (field : ℤ) (acc : Mapped × List ℕ) (substitution : S) :
    Option (Mapped × List ℕ) :=
  match acc.1.map.lookup substitution.fromSignal with
  | some cIds => cIds.foldlM (substituteInStorage substitution field) acc
  | none => some acc

/-- Takes a constraint that became linear out of the storage. -/
def takeLinear (acc : ConstraintStorage × List C) (cId : ℕ) : Option (ConstraintStorage × List C) := do
  let constraint ← acc.1.readConstraint cId
  some (acc.1.replace cId Algebra.Constraint.empty, acc.2 ++ [constraint])

def applySubstitutionToMap (mapped : Mapped) (substitutions : List S) (field : ℤ) :
    Option (Mapped × List C) := do
  let (mapped, linearId) ← substitutions.foldlM (constraintProcessing field) (mapped, [])
  let (storage, linear) ← linearId.foldlM takeLinear (mapped.storage, [])
  some (⟨storage, mapped.map⟩, linear)

/-! ## Relevant signals -/

def unwrappedSignal (map : SEncoded) (signal : ℕ) : Option ℕ :=
  match map.lookup signal with
  | some (.signal symbol) => some symbol
  | _ => none

/-- The signals of the non-linear constraints of one iterator. -/
def addRelevant (renames deletes : SEncoded) (relevant : Finset ℕ) (iter : EncodingIterator) :
    Finset ℕ :=
  iter.nonLinear.foldl (fun relevant c => c.takeClonedSignals.ascending.foldl (fun relevant signal =>
    let signal := (unwrappedSignal renames signal).getD signal
    if signal ∈ deletes then relevant else insert signal relevant) relevant) relevant

def buildRelevantSet (iter : EncodingIterator) (renames deletes : SEncoded) : Option (Finset ℕ) :=
  iter.walk (fun relevant iter => some (addRelevant renames deletes relevant iter)) ∅

def removeNotRelevant (substitutions : SEncoded) (relevant : Finset ℕ) : SEncoded :=
  substitutions.keys.foldl (fun substitutions signal =>
    if signal ∉ relevant then substitutions.erase signal else substitutions) substitutions

/-! ## Non-linear constraints -/

/-- Applies the frames one after the other. -/
def substituteFrames (o : HashOrder) (frames : SFrames) (field : ℤ) (constraint : C) : Option C :=
  frames.zipIdx.foldlM (fun constraint frame => do
    let (constraint, _) ←
      fastEncodedConstraintSubstitution (o.sub frame.2) constraint frame.1 field
    some constraint) constraint

/-- What `obtain_and_simplify_non_linear` does with one constraint: the linear ones are collected. -/
def storeNonLinear (o : HashOrder) (frames : SFrames) (field : ℤ) (acc : ConstraintStorage × List C)
    (constraint : C) : Option (ConstraintStorage × List C) := do
  let (storage, linear) := acc
  let constraint ←
    substituteFrames (o.sub (storage.constraints.length + linear.length)) frames field constraint
  let constraint := constraint.fixConstraint field
  if constraint.isLinear then some (storage, linear ++ [constraint])
  else some ((storage.addConstraint constraint).1, linear)

def obtainAndSimplifyNonLinear (o : HashOrder) (iter : EncodingIterator) (storage : ConstraintStorage)
    (frames : SFrames) (field : ℤ) : Option (ConstraintStorage × List C) :=
  iter.walk (fun acc iter => iter.nonLinear.foldlM (storeNonLinear o frames field) acc) (storage, [])

/-! ## The witness -/

structure Rebuilt where
  map : SignalMap := ∅
  /-- The positions that are free, the first one first. -/
  free : List ℕ := []
  deleted : Finset ℕ

def rebuildSignal (forbidden : Finset ℕ) (nonLinearMap : SignalToConstraints) (removeUnused : Bool)
    (rebuilt : Rebuilt) (signal : ℕ) : Rebuilt :=
  if signal ∈ rebuilt.deleted then { rebuilt with free := rebuilt.free ++ [signal] }
  else if removeUnused && signal ∉ forbidden && signal ∉ nonLinearMap then
    { rebuilt with
      deleted := insert signal rebuilt.deleted
      free := rebuilt.free ++ [signal] }
  else
    match rebuilt.free with
    | newPos :: free =>
      { rebuilt with
        map := rebuilt.map.insert signal newPos
        free := free ++ [signal] }
    | [] => { rebuilt with map := rebuilt.map.insert signal signal }

/-- The positions of the signals that stay, and the signals that are deleted at the end. -/
def rebuildWitness (maxSignal : ℕ) (deleted forbidden : Finset ℕ) (nonLinearMap : SignalToConstraints)
    (removeUnused : Bool) : SignalMap × Finset ℕ :=
  let rebuilt := (List.range maxSignal).foldl (rebuildSignal forbidden nonLinearMap removeUnused)
    { deleted := deleted }
  (rebuilt.map, rebuilt.deleted)

/-! ## The simplification -/

/-- Applies a map of substitutions to the constraints of a list. -/
def substituteEach (o : HashOrder) (substitutions : SEncoded) (field : ℤ) (constraints : List C) :
    Option (List C) :=
  constraints.zipIdx.mapM fun e => do
    let (constraint, changed) ←
      fastEncodedConstraintSubstitution (o.sub e.2) e.1 substitutions field
    some (if changed then constraint.fixConstraint field else constraint)

/-- What the first phases hand on. -/
structure Pending where
  linear : List C
  consEqualities : List C := []
  lconst : List C
  deleted : Finset ℕ

def simplifyEqualities (o : HashOrder) (smp : Simplifier) (relevant : Finset ℕ) :
    Option (Pending × SEncoded) := do
  let (subs, cons) ←
    eqSimplification (o.sub 0) smp.equalities smp.forbidden smp.maxSignal smp.field
  let substitutions := buildEncodedFastSubstitutions subs
  let linear ← substituteEach (o.sub 1) substitutions smp.field smp.linear
  let consEqualities ← substituteEach (o.sub 2) substitutions smp.field smp.consEqualities
  some
    ({ linear := linear
       consEqualities := consEqualities
       lconst := cons
       deleted := substitutions.keys.toFinset },
      removeNotRelevant substitutions relevant)

def simplifyConsEqualities (o : HashOrder) (smp : Simplifier) (pending : Pending) :
    Option (Pending × SEncoded) := do
  let (subs, cons) ← constantEqSimplification pending.consEqualities smp.forbidden smp.field
  let substitutions := buildEncodedFastSubstitutions subs
  let linear ← substituteEach o substitutions smp.field pending.linear
  some
    ({ linear := linear
       lconst := pending.lconst ++ cons
       deleted := pending.deleted ∪ substitutions.keys.toFinset },
      substitutions)

/-- Substitutions of signals that are not relevant are dropped. -/
def simplifyLinear (o : HashOrder) (smp : Simplifier) (pending : Pending) (relevant : Finset ℕ) :
    Option (Pending × SEncoded) :=
  if !smp.flagS then do
    let (subs, cons) ← linearSimplification (o.sub 0) pending.linear smp.forbidden smp.maxSignal
      smp.field smp.flagOldHeuristics
    let deleted := subs.foldl (fun deleted sub => insert sub.fromSignal deleted) pending.deleted
    let onlyRelevant := subs.filter fun sub => sub.fromSignal ∈ relevant
    let substitutions := buildEncodedFastSubstitutions onlyRelevant
    let lconst ← substituteEach (o.sub 1) substitutions smp.field (pending.lconst ++ cons)
    some ({ linear := [], lconst := lconst, deleted := deleted }, substitutions)
  else
    some
      ({ linear := []
         lconst := pending.lconst ++ pending.linear
         deleted := pending.deleted },
        ∅)

/-- What one round hands to the next. -/
structure RoundState where
  mapped : Mapped
  linear : List C
  lconst : List C
  deleted : Finset ℕ

def simplifyRound (o : HashOrder) (smp : Simplifier) (state : RoundState) : Option RoundState := do
  let (substitutions, constants) ← linearSimplification o state.linear smp.forbidden smp.maxSignal
    smp.field smp.flagOldHeuristics
  let lconst := (state.lconst ++ constants).map fun constraint =>
    (substitutions.foldl (fun constraint sub => constraint.applySubstitution sub smp.field)
      constraint).fixConstraint smp.field
  let (mapped, linear) ← applySubstitutionToMap state.mapped substitutions smp.field
  some
    { mapped := mapped
      linear := linear
      lconst := lconst
      deleted :=
        substitutions.foldl (fun deleted sub => insert sub.fromSignal deleted) state.deleted }

/-- The rounds end when there is no linear constraint left. -/
def simplifyRounds (o : HashOrder) (smp : Simplifier) : ℕ → RoundState → Option RoundState
  | 0, state => some state
  | noRounds + 1, state =>
    if state.linear.isEmpty then some state
    else do
      let state ← simplifyRound (o.sub noRounds) smp state
      simplifyRounds o smp noRounds state

/-- `non_linear_simplification::simplify` erases nothing. -/
def simplifyNonLinear (storage : ConstraintStorage) (_forbidden : Finset ℕ) (_field : ℤ) :
    ConstraintStorage × Finset ℕ := (storage, ∅)

/-- The result, with the set `deleted` at the end of the run. -/
structure Simplification where
  constraintStorage : ConstraintStorage
  signalMap : SignalMap
  noPrivateInputsWitness : ℕ
  deleted : Finset ℕ

/-- Adds the constraints that are left, rebuilds the witness and counts the private inputs in it. -/
def finishSimplification (smp : Simplifier) (state : RoundState) : Option Simplification :=
  let removeUnused := true
  let mapped := state.linear.foldl Mapped.addConstraint state.mapped
  let mapped := state.lconst.foldl (fun mapped constraint =>
    mapped.addConstraint (constraint.fixConstraint smp.field)) mapped
  let (storage, erased) := simplifyNonLinear mapped.storage smp.forbidden smp.field
  let (storage, _) := storage.extractWith fun c => c.isEmpty
  let (signalMap, deleted) := rebuildWitness smp.maxSignal (state.deleted ∪ erased) smp.forbidden
    mapped.map removeUnused
  let maxValueInput := smp.noPublicOutputs + smp.noPublicInputs + smp.noPrivateInputs
  let deletedInputs :=
    (deleted.filter fun signal => smp.noPublicOutputs + 1 ≤ signal ∧ signal ≤ maxValueInput).card
  if smp.noPrivateInputs < deletedInputs then none
  else
    some
      { constraintStorage := storage
        signalMap := signalMap
        noPrivateInputsWitness := smp.noPrivateInputs - deletedInputs
        deleted := deleted }

def simplification (o : HashOrder) (smp : Simplifier) : Option Simplification := do
  let iter ← EncodingIterator.new smp.dagEncoding
  let relevantSignals ← buildRelevantSet iter ∅ ∅
  let (pending, singleSubstitutions) ← simplifyEqualities (o.sub 0) smp relevantSignals
  let (pending, consSubstitutions) ← simplifyConsEqualities (o.sub 1) smp pending
  let relevantSignals ← buildRelevantSet iter singleSubstitutions consSubstitutions
  let (pending, linearSubstitutions) ← simplifyLinear (o.sub 2) smp pending relevantSignals
  let frames := [singleSubstitutions, consSubstitutions, linearSubstitutions]
  let (storage, withLinear) ←
    obtainAndSimplifyNonLinear (o.sub 3) iter ConstraintStorage.new frames smp.field
  let nonLinearMap ← buildNonLinearSignalMap storage
  let state : RoundState := ⟨⟨storage, nonLinearMap⟩, withLinear, pending.lconst, pending.deleted⟩
  -- the non-linear constraints have used up one round
  let state ←
    if !smp.flagS then simplifyRounds (o.sub 4) smp (smp.noRounds - 1) state else some state
  finishSimplification smp state

/-! ## The constraint list -/

def emptyEncodingConstraints (encoding : DAGEncoding) : DAGEncoding :=
  { encoding with
    nodes := encoding.nodes.map fun node => { node with nonLinear := [] }
    adjacency_length := by rw [List.length_map, encoding.adjacency_length]
    init_lt := by rw [List.length_map]; exact encoding.init_lt }

structure ConstraintList where
  field : ℤ
  dagEncoding : DAGEncoding
  noPublicInputs : ℕ
  noPublicOutputs : ℕ
  noPrivateInputs : ℕ
  noPrivateInputsWitness : ℕ
  constraints : ConstraintStorage
  noLabels : ℕ
  signalMap : SignalMap

def Simplifier.simplifyConstraints (o : HashOrder) (smp : Simplifier) : Option ConstraintList := do
  let simplified ← simplification o smp
  some
    { field := smp.field
      dagEncoding := emptyEncodingConstraints smp.dagEncoding
      noPublicInputs := smp.noPublicInputs
      noPublicOutputs := smp.noPublicOutputs
      noPrivateInputs := smp.noPrivateInputs
      noPrivateInputsWitness := simplified.noPrivateInputsWitness
      constraints := simplified.constraintStorage
      noLabels := smp.maxSignal
      signalMap := simplified.signalMap }

namespace ConstraintList

def noWires (list : ConstraintList) : ℕ := list.signalMap.len

/-- The signals by their positions. Panics on a position that does not exist. -/
def getWitnessAsVec (o : HashOrder) (list : ConstraintList) : Option (List ℕ) :=
  (o.walk list.signalMap.pairs).foldlM (fun witness e =>
    if e.2 < witness.length then some (witness.set e.2 e.1) else none)
    (List.replicate list.noWires 0)

end ConstraintList

end Circom.ConstraintList
