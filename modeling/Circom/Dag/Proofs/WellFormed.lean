import Circom.ConstraintList.Proofs.FirstPhases
import Circom.Dag.Proofs.Classification

/-!
# The simplifier of a complete graph is well formed

In a numbered graph the numbers of an instance stay below the number of signals of the main node. So `map`
hands over constraints about the wires of the witness only.
-/

namespace Circom.Dag

open Circom.Algebra (shift)
open Circom.ConstraintList (Simplifier DAGEncoding)
open Circom.Lib (LayeredGraph)

variable {c : Constraint} {dag : DAG} {main : Node}

/-- The constraints of a node are about its own signals and those of its subcomponents, and their
coefficients are canonical. -/
def ConstraintsWithin (prime : ℤ) (node : Node) : Prop :=
  ∀ c ∈ node.constraints, c.CoeffsInField prime ∧ ∀ k, c.Mentions k → k ≤ node.numberOfSignals

/-- A main node counts outputs and inputs that it has, and forbids to remove the public ones. -/
structure CountsPublic (node : Node) : Prop where
  forbidden_eq : node.forbiddenIfMain = Finset.range (node.outputsLength + node.publicInputsLength + 1)
  public_le : node.publicInputsLength ≤ node.inputsLength
  inputs_le : node.outputsLength + node.inputsLength ≤ node.numberOfSignals

namespace DAG

def AllWithin (dag : DAG) (prime : ℤ) : Prop :=
  ∀ (n : ℕ) (node : Node), dag.nodes[n]? = some node → ConstraintsWithin prime node

/-- The numbers of an instance are among those of the instance above. -/
theorem instance_bounds (h : dag.AllNumbered) (n offset : ℕ) : n < dag.nodes.length →
    ∀ i ∈ dag.graph.instances n offset, offset ≤ i.2 ∧ i.2 + dag.size i.1 ≤ offset + dag.size n := by
  induction n, offset using dag.graph.instances_induction with
  | h n offset ih =>
    intro hlt i hi
    rcases dag.graph.mem_instances.mp hi with rfl | ⟨e, he, hi⟩
    · exact ⟨Nat.le_refl _, Nat.le_refl _⟩
    · obtain ⟨node, edges, hnode, hedges⟩ := dag.exists_node hlt
      obtain ⟨h1, h2⟩ := ih e he ((dag.graph.lower n e he).trans hlt) i hi
      rw [graph_edges hedges] at he
      obtain ⟨edge, hedge, rfl⟩ := List.mem_map.mp he
      have hn := h n node edges hnode hedges
      have hout := hn.edge_eq edge hedge
      have hle := hn.edge_le edge hedge
      rw [← size_eq hnode] at hle
      simp only at h1 h2
      omega

/-! ## The constraints of a clean graph -/

/-- What holds of every constraint that the simplifier gets. -/
structure IsMapped (prime : ℤ) (bound : ℕ) (c : Constraint) : Prop where
  coeffs : c.CoeffsInField prime
  nonzero : c.NoZeroCoeff
  mentions_le : ∀ k, c.Mentions k → k ≤ bound

theorem IsMapped.applyOffset {prime : ℤ} {bound offset total : ℕ} (h : IsMapped prime bound c)
    (hle : offset + bound ≤ total) : IsMapped prime total (c.applyOffset offset) := by
  refine ⟨Algebra.Constraint.coeffsInField_applyOffset h.coeffs offset,
    Algebra.Constraint.noZeroCoeff_applyOffset h.nonzero offset, ?_⟩
  intro k hk
  obtain ⟨k', hk', rfl⟩ := Algebra.Constraint.mentions_applyOffset.mp hk
  have hbound := h.mentions_le k' hk'
  unfold shift
  split_ifs with h0
  · rw [h0]
    exact Nat.zero_le _
  · omega

theorem isMapped_cleanConstraints {prime : ℤ} (h : dag.AllWithin prime) {node : Node}
    (hnode : node ∈ dag.cleanConstraints.nodes) (hc : c ∈ node.constraints) :
    IsMapped prime node.numberOfSignals c := by
  obtain ⟨node', hnode', rfl⟩ := List.mem_map.mp hnode
  obtain ⟨hmem, -⟩ := List.mem_filter.mp hc
  obtain ⟨c', hc', rfl⟩ := List.mem_map.mp hmem
  obtain ⟨n, hn⟩ := List.mem_iff_getElem?.mp hnode'
  obtain ⟨hcoeffs, hle⟩ := h n node' hn c' hc'
  exact ⟨Algebra.Constraint.coeffsInField_removeZero hcoeffs,
    ⟨Algebra.noZeroCoeff_removeZero _, Algebra.noZeroCoeff_removeZero _, Algebra.noZeroCoeff_removeZero _⟩,
    fun k hk => hle k (Algebra.Constraint.mentions_removeZero hk)⟩

section Clean

variable {dag : DAG} {prime : ℤ} (hnum : dag.AllNumbered) (hwithin : dag.AllWithin prime)

include hnum hwithin

theorem isMapped_instanceConstraints {i : ℕ × ℕ}
    (hi : i ∈ dag.cleanConstraints.graph.instances (dag.nodes.length - 1) 0)
    (hc : c ∈ dag.cleanConstraints.instanceConstraints i) : IsMapped prime (dag.size (dag.nodes.length - 1)) c := by
  rw [instanceConstraints] at hc
  cases hnode : dag.cleanConstraints.nodes[i.1]? with
  | none =>
    rw [hnode] at hc
    cases hc
  | some node =>
    rw [hnode] at hc
    obtain ⟨c', hc', rfl⟩ := List.mem_map.mp hc
    have hlt : i.1 < dag.cleanConstraints.nodes.length := (List.getElem?_eq_some_iff.mp hnode).1
    have hlen : dag.cleanConstraints.nodes.length = dag.nodes.length := List.length_map ..
    obtain ⟨-, hle⟩ := instance_bounds (allNumbered_cleanConstraints hnum) (dag.nodes.length - 1) 0
      (by omega) i hi
    rw [size_cleanConstraints, Nat.zero_add] at hle
    refine (isMapped_cleanConstraints hwithin (List.mem_of_getElem? hnode) hc').applyOffset ?_
    rw [← size_eq hnode, size_cleanConstraints]
    exact hle

theorem isMapped_mappedConstraints (hmain : dag.cleanConstraints.getMain = some main)
    (hc : c ∈ dag.cleanConstraints.mappedConstraints main) : IsMapped prime (dag.size (dag.nodes.length - 1)) c := by
  obtain ⟨main', edges, hmain', hnode, -, hedges⟩ := exists_main (ne_nil_of_getMain hmain)
  obtain rfl : main' = main := Option.some.inj (hmain'.symm.trans hmain)
  have hlen : dag.cleanConstraints.nodes.length = dag.nodes.length := List.length_map ..
  have hclean : ∀ node ∈ dag.cleanConstraints.nodes, ∀ c ∈ node.constraints, c.isEmpty = false :=
    fun node hnode c hc => (constraint_of_cleanConstraints hnode hc).1
  rcases List.mem_append.mp hc with hc | hc
  · have hmapped := isMapped_cleanConstraints hwithin (List.mem_of_getElem? hnode) hc
    rw [← size_eq hnode, size_cleanConstraints, hlen] at hmapped
    exact hmapped
  · obtain ⟨i, hi, hc⟩ := List.mem_flatMap.mp hc
    rw [instanceTreeConstraints_eq hclean] at hc
    refine isMapped_instanceConstraints hnum hwithin ?_ hc
    have hin := (allNumbered_cleanConstraints hnum _ main' edges hnode hedges).entry_in
    rw [properInstances, hin, hlen] at hi
    rw [LayeredGraph.instances_eq]
    exact List.mem_cons_of_mem _ hi

end Clean

/-! ## The simplifier -/

theorem length_mappedSignals (hnum : dag.AllNumbered) (hnamed : dag.AllNamed)
    (hmain : dag.getMain = some main) : (dag.mappedSignals main).length = main.numberOfSignals := by
  obtain ⟨main', edges, hmain', hnode, -, hedges⟩ := exists_main (ne_nil_of_getMain hmain)
  obtain rfl : main' = main := Option.some.inj (hmain'.symm.trans hmain)
  have hin := (hnum _ main' edges hnode hedges).entry_in
  have hlen := List.length_pos_iff.mpr (ne_nil_of_getMain hmain)
  obtain ⟨hmem, hnodup⟩ := signalsBelow_spec hnum hnamed (dag.nodes.length - 1) 0 (by omega)
  have hsignals : dag.mappedSignals main' = dag.signalsBelow (dag.nodes.length - 1) 0 := by
    rw [signalsBelow_eq hnode hedges, mappedSignals, properInstances, hin, List.flatMap_assoc,
      graph_edges hedges, List.flatMap_map]
    rfl
  have hperm : (dag.mappedSignals main').Perm (List.range' 1 main'.numberOfSignals) := by
    rw [hsignals, List.perm_ext_iff_of_nodup hnodup List.nodup_range']
    intro k
    rw [hmem, size_eq hnode, List.mem_range'_1]
    omega
  rw [hperm.length_eq, List.length_range']

theorem allNamed_cleanConstraints (h : dag.AllNamed) : dag.cleanConstraints.AllNamed := by
  intro n node hnode
  rw [getElem?_cleanConstraints] at hnode
  obtain ⟨node', hnode', rfl⟩ := Option.map_eq_some_iff.mp hnode
  exact h n node' hnode'

/-- The counts of the simplifier are those of the main node. -/
structure TakesCounts (main : Node) (smp : Simplifier) : Prop where
  outputs_eq : smp.noPublicOutputs = main.outputsLength
  publicInputs_eq : smp.noPublicInputs = main.publicInputsLength
  privateInputs_eq : smp.noPrivateInputs = main.inputsLength - main.publicInputsLength

theorem takesCounts_of_map {flags : SimplificationFlags} {smp : Simplifier} (hmain : dag.getMain = some main)
    (h : map dag flags = some smp) : TakesCounts main smp := by
  obtain ⟨root, -, h⟩ := Option.bind_eq_some_iff.mp h
  obtain ⟨tree, -, h⟩ := Option.bind_eq_some_iff.mp h
  obtain ⟨mapped, -, h⟩ := Option.bind_eq_some_iff.mp h
  split_ifs at h with hlt
  obtain ⟨encoding, -, h⟩ := Option.bind_eq_some_iff.mp h
  obtain rfl := Option.some.inj h
  constructor
  · show dag.publicOutputs = _
    rw [publicOutputs, hmain]
    rfl
  · show dag.publicInputs = _
    rw [publicInputs, hmain]
    rfl
  · show dag.privateInputs = _
    rw [privateInputs, hmain]
    rfl

/-- The simplifier that `map` makes of a clean graph. -/
theorem wellFormed_of_map {p : ℕ} {flags : SimplificationFlags} {smp : Simplifier} (hprime : dag.prime = p)
    (hnum : dag.AllNumbered) (hnamed : dag.AllNamed) (hwithin : dag.AllWithin p) (hmain : dag.getMain = some main)
    (hcounts : CountsPublic main) (h : map dag.cleanConstraints flags = some smp) : smp.WellFormed p := by
  obtain ⟨clean, hclean, hmaps⟩ := map_spec h
  have hcleanEq : dag.cleanConstraints.getMain = some main.cleanConstraints := by
    rw [getMain, cleanConstraints, List.getLast?_map]
    exact congrArg (Option.map Node.cleanConstraints) hmain
  obtain rfl : main.cleanConstraints = clean := Option.some.inj (hcleanEq.symm.trans hclean)
  have htakes := takesCounts_of_map hclean h
  have hlen : dag.cleanConstraints.nodes.length = dag.nodes.length := List.length_map ..
  obtain ⟨main', edges, hmain', hnode, -, hedges⟩ := exists_main (ne_nil_of_getMain hmain)
  obtain rfl : main' = main := Option.some.inj (hmain'.symm.trans hmain)
  have hmax : smp.maxSignal = main'.numberOfSignals + 1 := by
    rw [hmaps.maxSignal_eq, length_mappedSignals (allNumbered_cleanConstraints hnum)
      (allNamed_cleanConstraints hnamed) hclean]
    rfl
  have hmapped : ∀ c ∈ dag.cleanConstraints.mappedConstraints main'.cleanConstraints,
      IsMapped p main'.numberOfSignals c := by
    intro c hc
    have := isMapped_mappedConstraints hnum hwithin hclean hc
    rwa [size_eq hnode] at this
  have hnonLinear : ∀ c ∈ smp.dagEncoding.unfoldedNonLinear, IsMapped p main'.numberOfSignals c := by
    intro c hc
    rw [DAGEncoding.unfoldedNonLinear, hmaps.graph_eq, hmaps.init_eq, hlen] at hc
    obtain ⟨i, hi, hc⟩ := List.mem_flatMap.mp hc
    rw [hmaps.nonLinear_eq] at hc
    have := isMapped_instanceConstraints hnum hwithin hi (List.mem_filter.mp hc).1
    rwa [size_eq hnode] at this
  have hequalities : ∀ c ∈ smp.equalities, c.isEquality p ∧ IsMapped p main'.numberOfSignals c := by
    intro c hc
    rw [hmaps.equalities_eq, mem_ofKind] at hc
    refine ⟨?_, hmapped c hc.1⟩
    rw [← hprime]
    exact isEquality_of_kind hc.2
  have hcons : ∀ c ∈ smp.consEqualities, c.isConstantEquality ∧ IsMapped p main'.numberOfSignals c := by
    intro c hc
    rw [hmaps.consEqualities_eq, mem_ofKind] at hc
    exact ⟨isConstantEquality_of_kind hc.2, hmapped c hc.1⟩
  have hlinear : ∀ c ∈ smp.linear, c.isLinear ∧ IsMapped p main'.numberOfSignals c := by
    intro c hc
    rw [hmaps.linear_eq, mem_ofKind] at hc
    refine ⟨?_, hmapped c hc.1⟩
    by_contra hnot
    rw [Bool.not_eq_true, ← @kind_eq_nonLinear _ dag.cleanConstraints.prime, hc.2] at hnot
    cases hnot
  have hforbidden : ∀ k, k ≤ smp.noPublicOutputs + smp.noPublicInputs → k ∈ smp.forbidden := by
    intro k hk
    refine hmaps.forbidden_subset ?_
    show k ∈ main'.forbiddenIfMain
    rw [htakes.outputs_eq, htakes.publicInputs_eq] at hk
    rw [hcounts.forbidden_eq, Finset.mem_range]
    exact Nat.lt_succ_of_le hk
  constructor
  · rw [hmaps.field_eq]
    exact hprime
  · exact hforbidden 0 (Nat.zero_le _)
  · intro c hc
    obtain ⟨hequality, hm⟩ := hequalities c hc
    exact ⟨hequality, Algebra.Constraint.isLinear_of_isEquality hequality, hm.coeffs, hm.nonzero⟩
  · intro c hc
    obtain ⟨hequality, hm⟩ := hcons c hc
    exact ⟨hequality, Algebra.Constraint.isLinear_of_isConstantEquality hequality, hm.coeffs, hm.nonzero⟩
  · intro c hc
    obtain ⟨hc, hm⟩ := hlinear c hc
    exact ⟨hc, hm.coeffs, hm.nonzero⟩
  · exact fun c hc => (hnonLinear c hc).coeffs
  · rintro k - ⟨c, hc, hk⟩
    have hm : IsMapped p main'.numberOfSignals c := by
      simp only [List.mem_append] at hc
      rcases hc with hc | (hc | hc) | hc
      · exact (hequalities c hc).2
      · exact (hcons c hc).2
      · exact (hlinear c hc).2
      · exact hnonLinear c hc
    rw [hmax]
    exact ⟨Nat.lt_succ_of_le (hm.mentions_le k hk), Finset.notMem_empty k⟩
  · exact fun k _ hk => hforbidden k hk
  · have hpublic := hcounts.public_le
    have hinputs := hcounts.inputs_le
    have houtputs : smp.noPublicOutputs = main'.outputsLength := htakes.outputs_eq
    have hpublicInputs : smp.noPublicInputs = main'.publicInputsLength := htakes.publicInputs_eq
    have hprivate : smp.noPrivateInputs = main'.inputsLength - main'.publicInputsLength :=
      htakes.privateInputs_eq
    omega

end DAG

end Circom.Dag
