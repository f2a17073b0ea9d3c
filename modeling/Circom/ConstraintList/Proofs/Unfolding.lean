import Circom.ConstraintList.Encoding

/-!
# Unfolding the encoding

The recursions over an `EncodingIterator` are loops over the instances of the nodes of the encoding.
-/

namespace Circom.ConstraintList

open Circom.Lib (LayeredGraph foldlM_append_eq)

/-- The edges of the encoding, with the offsets they add. -/
def DAGEncoding.graph (encoding : DAGEncoding) : LayeredGraph where
  edges n := ((encoding.adjacency[n]?).getD []).map fun e => (e.goesTo, e.offset)
  lower := by
    intro n e he
    obtain ⟨edge, hedge, rfl⟩ := List.mem_map.mp he
    cases h : encoding.adjacency[n]? with
    | none => rw [h] at hedge; cases hedge
    | some edges => rw [h] at hedge; exact encoding.goesTo_lt n edges h edge hedge

/-- The non-linear constraints of an instance. -/
def DAGEncoding.instanceNonLinear (encoding : DAGEncoding) (i : ℕ × ℕ) : List C :=
  ((encoding.nodes[i.1]?).map fun node => node.nonLinear.map fun c => c.applyOffset i.2).getD []

/-- The non-linear constraints of all instances. -/
def DAGEncoding.unfoldedNonLinear (encoding : DAGEncoding) : List C :=
  (encoding.graph.instances encoding.init 0).flatMap encoding.instanceNonLinear

/-- An iterator over the instance of a node. -/
structure IsIterator (encoding : DAGEncoding) (iterator : EncodingIterator) (n offset : ℕ) : Prop where
  encoding_eq : iterator.encoding = encoding
  nodeId_eq : iterator.nodeId = n
  offset_eq : iterator.offset = offset
  lt : n < encoding.nodes.length
  nonLinear_eq : iterator.nonLinear = encoding.instanceNonLinear (n, offset)

theorem buildEncodingIterator_spec (iterator : EncodingIterator)
    (h : iterator.nodeId < iterator.encoding.nodes.length) :
    ∃ iterator', buildEncodingIterator iterator = some iterator' ∧
      IsIterator iterator.encoding iterator' iterator.nodeId iterator.offset := by
  have hnode := List.getElem?_eq_getElem h
  simp only [buildEncodingIterator, hnode, Option.bind_eq_bind, Option.bind_some]
  refine ⟨_, rfl, rfl, rfl, rfl, h, ?_⟩
  simp only [DAGEncoding.instanceNonLinear, hnode, Option.map_some, Option.getD_some]

namespace EncodingIterator

theorem represents (encoding : DAGEncoding) :
    encoding.graph.Represents edges next (fun e => (e.goesTo, e.offset)) (IsIterator encoding) := by
  constructor
  · intro iterator n offset h
    have hlt : n < encoding.adjacency.length := by
      rw [encoding.adjacency_length]
      exact h.lt
    have hedges := List.getElem?_eq_getElem hlt
    refine ⟨encoding.adjacency[n], ?_, ?_⟩
    · rw [edges, h.encoding_eq, h.nodeId_eq, hedges]
    · simp only [DAGEncoding.graph, hedges, Option.getD_some]
  · intro iterator n offset es h hes e he
    rw [edges, h.encoding_eq, h.nodeId_eq] at hes
    have hlower := encoding.goesTo_lt n es hes e he
    have hlt : e.goesTo < iterator.encoding.nodes.length := by
      rw [h.encoding_eq]
      exact hlower.trans h.lt
    obtain ⟨iterator', hnext, hrep⟩ := buildEncodingIterator_spec
      ⟨iterator.encoding, e.goesTo, iterator.path ++ "." ++ e.path, iterator.offset + e.offset, [],
        []⟩ hlt
    refine ⟨iterator', hnext, ?_⟩
    rw [← h.encoding_eq, ← h.offset_eq]
    exact hrep

theorem new_spec (encoding : DAGEncoding) :
    ∃ iterator, new encoding = some iterator ∧ IsIterator encoding iterator encoding.init 0 :=
  buildEncodingIterator_spec ⟨encoding, encoding.init, "main", 0, [], []⟩ encoding.init_lt

/-- A recursion from the initial node is a loop over the instances below it. -/
theorem walk_eq {encoding : DAGEncoding} {iterator : EncodingIterator} {n offset : ℕ}
    (h : IsIterator encoding iterator n offset) {σ : Type} {visit : σ → EncodingIterator → Option σ}
    (visitInstance : σ → ℕ × ℕ → Option σ)
    (hvisit : ∀ s it n offset, IsIterator encoding it n offset →
      visit s it = visitInstance s (n, offset)) (s : σ) :
    iterator.walk visit s = (encoding.graph.instances n offset).foldlM visitInstance s := by
  refine encoding.graph.walk_eq (represents encoding) hvisit n offset _ s iterator ?_ h
  rw [h.nodeId_eq]
  exact Nat.lt_succ_self n

end EncodingIterator

/-- The iterators meet the non-linear constraints of all instances. -/
theorem DAGEncoding.nonLinearConstraints_eq (encoding : DAGEncoding) :
    encoding.nonLinearConstraints = some encoding.unfoldedNonLinear := by
  obtain ⟨iterator, hnew, hrep⟩ := EncodingIterator.new_spec encoding
  have hvisit : ∀ (constraints : List C) (it : EncodingIterator) (n offset : ℕ),
      IsIterator encoding it n offset → some (constraints ++ it.nonLinear) =
        some (constraints ++ encoding.instanceNonLinear (n, offset)) := by
    intro constraints it n offset h
    rw [h.nonLinear_eq]
  rw [nonLinearConstraints, hnew]
  refine (EncodingIterator.walk_eq hrep
    (fun constraints i => some (constraints ++ encoding.instanceNonLinear i)) hvisit []).trans ?_
  rw [foldlM_append_eq]
  rfl

end Circom.ConstraintList
