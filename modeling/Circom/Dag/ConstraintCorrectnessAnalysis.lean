import Circom.Dag.Dag

/-!
# Unconstrained signals

`analyse` of the crate `dag`: for the signals that a template can use, the number of its constraints in which they
occur, and warnings about those that occur in none.
-/

namespace Circom.Dag.ConstraintCorrectnessAnalysis

open Circom.Lib (HashMap)

inductive ReportCode where
  | unconstrainedSignal
  | unconstrainedIOSignal
  deriving DecidableEq, Repr

structure Report where
  message : String
  code : ReportCode
  notes : List String
  deriving DecidableEq, Repr

inductive SignalType where
  | localSignal
  | ioSubcomponent
  deriving DecidableEq, Repr

/-- What a report is made of. -/
structure Warning where
  xtype : SignalType
  signal : String
  template : String
  examples : List String
  deriving DecidableEq, Repr

/-- `UnconstrainedSignal::new` and `UnconstrainedIOSignal::new`. Panics when there is no example. -/
def Warning.report (w : Warning) : Option Report :=
  let code : ReportCode :=
    match w.xtype with
    | .localSignal => .unconstrainedSignal
    | .ioSubcomponent => .unconstrainedIOSignal
  match w.examples with
  | [] => none
  | [one] =>
    let msg :=
      match w.xtype with
      | .localSignal => "In template \"" ++ w.template ++ "\": Local signal " ++ one ++
          " does not appear in any constraint"
      | .ioSubcomponent => "In template \"" ++ w.template ++ "\": Subcomponent input/output signal " ++ one ++
          " does not appear in any constraint of the father component"
    some ⟨msg, code, []⟩
  | first :: second :: others =>
    let count := toString (others.length + 2)
    let msg :=
      match w.xtype with
      | .localSignal => "In template \"" ++ w.template ++ "\": Array of local signals " ++ w.signal ++
          " contains a total of " ++ count ++ " signals that do not appear in any constraint"
      | .ioSubcomponent => "In template \"" ++ w.template ++ "\": Array of subcomponent input/output signals " ++
          w.signal ++ " contains a total of " ++ count ++
          " signals that do not appear in any constraint of the father component"
    some ⟨msg, code, ["For example: " ++ first ++ ", " ++ second ++ "."]⟩

structure Analysis where
  templateName : String
  /-- Name, type and number of appearances. -/
  signalStats : List (String × SignalType × ℕ)

/-- The name without the index of the last component of the path. -/
def splitSignalNameIndex (name : String) : String :=
  let splitComponents := name.splitOn "."
  let signalName := splitComponents.dropLast.foldl (fun signalName component => signalName ++ component ++ ".") ""
  signalName ++ ((splitComponents.getLastD "").splitOn "[").headD ""

/-- The signals that do not appear, by their names without index. -/
def addUnconstrained (table : HashMap String (SignalType × List String)) (stat : String × SignalType × ℕ) :
    HashMap String (SignalType × List String) :=
  let (name, xtype, appearances) := stat
  if appearances = 0 then
    let signalName := splitSignalNameIndex name
    match table.lookup signalName with
    | some (xtype', examples) => table.insert signalName (xtype', examples ++ [name])
    | none => table.insert signalName (xtype, [name])
  else table

def analysisInterpretation (analysis : Analysis) : List Warning :=
  let signal2unconstrainedex := analysis.signalStats.foldl addUnconstrained ∅
  signal2unconstrainedex.pairs.map fun (name, xtype, examples) => ⟨xtype, name, analysis.templateName, examples⟩

/-- Counts an appearance. Panics when the signal has no counter. -/
def increment (counter : HashMap ℕ ℕ) (signal : ℕ) : Option (HashMap ℕ ℕ) := do
  let prev ← counter.lookup signal
  some ((counter.erase signal).insert signal (prev + 1))

/-- The counters and names of the reachable signals. -/
def initialCounter (node : Node) : HashMap ℕ ℕ × HashMap ℕ String :=
  node.signalCorrespondence.pairs.foldl (fun (counter, revCorrespondence) (name, id) =>
    if id ∈ node.reachables then (counter.insert id 0, revCorrespondence.insert id name)
    else (counter, revCorrespondence)) (∅, ∅)

/-- Panics when a constraint has a signal that is not reachable. -/
def visitNode (node : Node) : Option Analysis := do
  let (constraintCounter, revCorrespondence) := initialCounter node
  let constraintCounter ← node.constraints.foldlM (fun counter constraint =>
    constraint.takeClonedSignals.ascending.foldlM increment counter) constraintCounter
  let constraintCounter ← node.underscoredSignals.foldlM increment constraintCounter
  let (signalStats, _) ← constraintCounter.pairs.foldlM (fun (acc : _ × HashMap ℕ String) (id, appearances) => do
    let (signalStats, revCorrespondence) := acc
    let name ← revCorrespondence.lookup id
    let signalType : SignalType := if node.isLocalSignal id then .localSignal else .ioSubcomponent
    some (signalStats ++ [(name, signalType, appearances)], revCorrespondence.erase id)) ([], revCorrespondence)
  some ⟨node.templateName, signalStats.insertionSort fun a b => a.1 ≤ b.1⟩

/-- The warnings, and the names of the templates that have been visited. -/
def analyseNode (acc : List Warning × List String) (node : Node) : Option (List Warning × List String) :=
  let (warnings, visited) := acc
  if !node.isCustomGate && node.templateName ∉ visited then do
    let analysis ← visitNode node
    some (warnings ++ analysisInterpretation analysis, node.templateName :: visited)
  else some (warnings, visited)

/-- There are no errors. -/
def analyse (nodes : List Node) : Option (List Warning) := do
  let (warnings, _) ← nodes.foldlM analyseNode ([], [])
  some warnings

/-! ## What the warnings should say -/

/-- The signal has a coefficient in the constraint. -/
def Appears (c : Constraint) (id : ℕ) : Prop :=
  ∃ v ≠ 0, c.a.lookup id = some v ∨ c.b.lookup id = some v ∨ c.c.lookup id = some v

/-- The signal is in no constraint of the node and is not assigned to `_`. -/
def Unconstrained (node : Node) (id : ℕ) : Prop :=
  (∀ c ∈ node.constraints, ¬ Appears c id) ∧ id ∉ node.underscoredSignals

/-- A template can use its own signals and the inputs and outputs of its subcomponents. -/
def Usable (dag : DAG) (n id : ℕ) : Prop :=
  (∃ node, dag.nodes[n]? = some node ∧ id ∈ node.locals) ∨
    ∃ edges e toNode, dag.adjacency[n]? = some edges ∧ e ∈ edges ∧ dag.nodes[e.goesTo]? = some toNode ∧
      ∃ k ∈ toNode.ioSignals, id = e.inNumber + k

def Reported (warnings : List Warning) (template name : String) : Prop :=
  ∃ w ∈ warnings, w.template = template ∧ name ∈ w.examples

/-- The node with the number is `node`, and it is no custom gate. -/
def IsTemplate (dag : DAG) (n : ℕ) (node : Node) : Prop := dag.nodes[n]? = some node ∧ node.isCustomGate = false

/-- The warnings under the name of a template are about its unconstrained signals. -/
structure Exact (dag : DAG) (warnings : List Warning) : Prop where
  /-- What is reported is unconstrained, and every unconstrained signal is reported. -/
  reported : ∀ n node, IsTemplate dag n node → ∀ id, Usable dag n id →
    ((∃ name, node.correspondence.lookup name = some id ∧ Reported warnings node.templateName name) ↔
      Unconstrained node id)
  /-- What is reported is a signal of the template. -/
  only : ∀ n node, IsTemplate dag n node → ∀ name, Reported warnings node.templateName name →
    ∃ id, node.correspondence.lookup name = some id ∧ Usable dag n id
  /-- No signal is reported twice. -/
  once : ∀ n node, IsTemplate dag n node →
    ((warnings.filter fun w => w.template = node.templateName).flatMap Warning.examples).Nodup

/-! ## When they do -/

/-- The names of the unconstrained signals. -/
def UnconstrainedName (dag : DAG) (n : ℕ) (node : Node) (name : String) : Prop :=
  ∃ id, node.correspondence.lookup name = some id ∧ Usable dag n id ∧ Unconstrained node id

/-- The node is the first one with its name. -/
def IsFirst (dag : DAG) (n : ℕ) (node : Node) : Prop :=
  ∀ m < n, ∀ node', IsTemplate dag m node' → node'.templateName ≠ node.templateName

/-- Nodes with one name leave the same signals unconstrained. -/
structure Distinguishable (dag : DAG) : Prop where
  named : ∀ n node, IsTemplate dag n node → ∀ id, Usable dag n id → ∃ name, node.correspondence.lookup name = some id
  inScope : ∀ n node, IsTemplate dag n node → IsFirst dag n node → ∀ id, id ≠ 0 → ¬ Unconstrained node id →
    Usable dag n id
  alike : ∀ n node n' node', IsTemplate dag n node → IsTemplate dag n' node' →
    node.templateName = node'.templateName → ∀ name, UnconstrainedName dag n node name →
      UnconstrainedName dag n' node' name

end Circom.Dag.ConstraintCorrectnessAnalysis
