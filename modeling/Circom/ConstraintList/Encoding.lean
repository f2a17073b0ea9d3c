import Circom.Algebra.Constraint
import Circom.Lib.Unfolding

/-!
# The encoded circuit graph

`DAGEncoding` and `EncodingIterator` of the crate `constraint_list`: each node keeps the non-linear
constraints of a template, and an iterator unfolds them instance by instance.
-/

namespace Circom.ConstraintList

open Circom.Lib (LayeredGraph)

abbrev C := Algebra.Constraint ℕ

structure SignalInfo where
  name : String
  id : ℕ

structure EncodingNode where
  id : ℕ
  name : String
  parameters : List ℤ
  signals : List SignalInfo
  orderedSignals : List ℕ
  nonLinear : List C
  isCustomGate : Bool

structure EncodingEdge where
  goesTo : ℕ
  path : String
  offset : ℕ

/-- Every node has its list of edges, they go to earlier nodes, and the initial node exists. -/
structure DAGEncoding where
  init : ℕ
  noConstraints : ℕ
  nodes : List EncodingNode
  adjacency : List (List EncodingEdge)
  adjacency_length : adjacency.length = nodes.length
  goesTo_lt : ∀ (i : ℕ) edges, adjacency[i]? = some edges → ∀ e ∈ edges, e.goesTo < i
  init_lt : init < nodes.length

structure EncodingIterator where
  encoding : DAGEncoding
  nodeId : ℕ
  path : String
  offset : ℕ
  signals : List SignalInfo
  nonLinear : List C

/-- Fills an iterator with the signals and the constraints of its node, shifted by its offset. -/
def buildEncodingIterator (iterator : EncodingIterator) : Option EncodingIterator := do
  let node ← iterator.encoding.nodes[iterator.nodeId]?
  some
    { iterator with
      nonLinear := node.nonLinear.map fun constraint => constraint.applyOffset iterator.offset
      signals := node.signals.map fun signal =>
        { id := signal.id + iterator.offset, name := iterator.path ++ "." ++ signal.name } }

namespace EncodingIterator

def new (encoding : DAGEncoding) : Option EncodingIterator :=
  buildEncodingIterator
    { encoding := encoding
      offset := 0
      nonLinear := []
      path := "main"
      signals := []
      nodeId := encoding.init }

def next (iterator : EncodingIterator) (edge : EncodingEdge) : Option EncodingIterator :=
  buildEncodingIterator
    { encoding := iterator.encoding
      offset := iterator.offset + edge.offset
      nodeId := edge.goesTo
      path := iterator.path ++ "." ++ edge.path
      nonLinear := []
      signals := [] }

def edges (iterator : EncodingIterator) : Option (List EncodingEdge) :=
  iterator.encoding.adjacency[iterator.nodeId]?

/-- A recursion that takes the signals and constraints of an iterator and then goes on, edge by edge,
with the next ones. -/
def walk {σ : Type} (visit : σ → EncodingIterator → Option σ) (iterator : EncodingIterator) (s : σ) :
    Option σ :=
  LayeredGraph.walk visit edges next (iterator.nodeId + 1) s iterator

end EncodingIterator

/-- The constraints that the iterators from the initial node meet. -/
def DAGEncoding.nonLinearConstraints (encoding : DAGEncoding) : Option (List C) := do
  let iterator ← EncodingIterator.new encoding
  iterator.walk (fun constraints iterator => some (constraints ++ iterator.nonLinear)) []

/-- The input of the simplification. Flags that only choose how the work is scheduled or logged are left
out. -/
structure Simplifier where
  field : ℤ
  dagEncoding : DAGEncoding
  noPublicInputs : ℕ
  noPublicOutputs : ℕ
  noPrivateInputs : ℕ
  forbidden : Finset ℕ
  consEqualities : List C
  equalities : List C
  linear : List C
  maxSignal : ℕ
  noRounds : ℕ
  flagS : Bool
  flagOldHeuristics : Bool

end Circom.ConstraintList
