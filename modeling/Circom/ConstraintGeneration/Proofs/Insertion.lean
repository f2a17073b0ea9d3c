import Circom.ConstraintGeneration.ExecutedProgram
import Circom.ConstraintGeneration.Proofs.WireLayout
import Circom.Dag.Proofs.WellFormed

/-!
# Inserting templates into the graph

A template is inserted by calls on its own node only. So the nodes of the templates before it stay, and a
property of the graph that these calls keep holds in the end.
-/

namespace Circom.ConstraintGeneration

open Circom.Algebra (Constraint)
open Circom.Dag (BuildCall ConstraintsWithin DAG Node)
open Circom.Dag.DAG (ChangesMain)
open Circom.Lib (foldlM_preserves)

variable {dag dag' : DAG} {prime : ℤ}

namespace ExecutedTemplate

variable {t : ExecutedTemplate} {model : ModelBuses}

/-- The calls that insert a template after its node was added. -/
def Calls (t : ExecutedTemplate) (dag : DAG) : BuildCall → Prop
  | .addNode .. => False
  | .addConstraint cc => ∃ main, dag.getMain = some main ∧
    ∃ c ∈ t.constraints, c.applyCorrespondence main.correspondence = some cc
  | _ => True

section Preserves

variable {P : DAG → Prop}
  (hcall : ∀ dag dag' c, t.Calls dag c → P dag → dag.call c = some dag' → P dag')

include hcall

theorem preserves_foldlM_generateWire {wires : List WireData} {visit : DAG → String → Option DAG}
    (hvisit : ∀ dag dag' name, P dag → visit dag name = some dag' → P dag') (h : P dag)
    (hbuild : wires.foldlM (generateWire visit model.buses t.busConnexions) dag = some dag') : P dag' := by
  refine foldlM_preserves (fun _ dag => P dag) ?_ h hbuild
  intro w _ dag dag' h hw
  rw [ModelBuses.generateWire_eq (ModelBuses.connects_of_generateWire hw)] at hw
  exact foldlM_preserves (fun _ dag => P dag) (fun name _ dag dag' => hvisit dag dag' name) h hw

theorem preserves_buildWiresOf {config : SignalConfig} {wires : List WireData} (h : P dag)
    (hbuild : t.buildWiresOf model.buses config wires dag = some dag') : P dag' := by
  refine preserves_foldlM_generateWire hcall ?_ h hbuild
  intro dag dag' name h hvisit
  obtain rfl := Option.some.inj hvisit
  unfold SignalConfig.addSymbol
  split_ifs
  · exact hcall dag _ (.addInput name config.isPublic) trivial h rfl
  · exact hcall dag _ (.addOutput name) trivial h rfl
  · exact hcall dag _ (.addIntermediate name) trivial h rfl
  · exact h

theorem preserves_buildConnexions {t' : ExecutedTemplate} (h : P dag)
    (hbuild : t.buildConnexions dag = some (t', dag')) :
    P dag' ∧ t'.constraints = t.constraints := by
  obtain ⟨⟨dag1, connexions⟩, hloop, hbuild⟩ := Option.bind_eq_some_iff.mp hbuild
  obtain ⟨main, -, hbuild⟩ := Option.bind_eq_some_iff.mp hbuild
  obtain ⟨rfl, rfl⟩ := Prod.mk.inj (Option.some.inj hbuild)
  have hinv : P dag1 := by
    refine foldlM_preserves (fun (_ : List Connexion) (acc : DAG × List Connexion) => P acc.1) ?_ h hloop
    intro cnn rest acc acc' hacc hround
    obtain ⟨⟨dag2, cnn'⟩, hcnn, hround⟩ := Option.bind_eq_some_iff.mp hround
    obtain rfl := Option.some.inj hround
    obtain ⟨entry, -, hcnn⟩ := Option.bind_eq_some_iff.mp hcnn
    obtain ⟨⟨dag3, edge⟩, hadd, hcnn⟩ := Option.bind_eq_some_iff.mp hcnn
    obtain ⟨entry', -, hcnn⟩ := Option.bind_eq_some_iff.mp hcnn
    obtain ⟨rfl, -⟩ := Prod.mk.inj (Option.some.inj hcnn)
    refine hcall acc.1 _ (.addEdge cnn.inspect.goesTo cnn.fullName cnn.inspect.isParallel) trivial hacc ?_
    rw [DAG.call, hadd]
    rfl
  exact ⟨hcall dag1 _ (.setNumberOfSubcomponentsIndexes _) trivial hinv rfl, rfl⟩

theorem preserves_buildConstraints {t' : ExecutedTemplate} (ht : t'.constraints = t.constraints) (h : P dag)
    (hbuild : t'.buildConstraints dag = some dag') : P dag' := by
  obtain ⟨dag1, hdag1, hdag2⟩ := Option.bind_eq_some_iff.mp hbuild
  rw [ht] at hdag1
  have h1 : P dag1 := by
    refine (foldlM_preserves (fun rest dag => P dag ∧ ∀ c ∈ rest, c ∈ t.constraints) ?_
      ⟨h, fun _ hc => hc⟩ hdag1).1
    intro c rest dag dag' ⟨h, hrest⟩ hc
    obtain ⟨main, hmain, hc⟩ := Option.bind_eq_some_iff.mp hc
    obtain ⟨cc, hcc, hc⟩ := Option.bind_eq_some_iff.mp hc
    obtain rfl := Option.some.inj hc
    refine ⟨?_, fun c' hc' => hrest c' (List.mem_cons_of_mem c hc')⟩
    exact hcall dag _ (.addConstraint cc) ⟨main, hmain, c, hrest c List.mem_cons_self, hcc⟩ h rfl
  refine foldlM_preserves (fun _ dag => P dag) ?_ h1 hdag2
  intro s rest dag dag' h hs
  obtain ⟨main, -, hs⟩ := Option.bind_eq_some_iff.mp hs
  obtain ⟨newS, -, hs⟩ := Option.bind_eq_some_iff.mp hs
  obtain rfl := Option.some.inj hs
  exact hcall dag _ (.addUnderscoredSignal newS) trivial h rfl

/-- What the calls on the new node keep holds of the graph with the complete template. -/
theorem preserves_insertInDag {t' : ExecutedTemplate} (h0 : P (t.withNode dag))
    (h : t.insertInDag dag model = some (t', dag')) : P dag' := by
  obtain ⟨built, hbuilt, h⟩ := Option.bind_eq_some_iff.mp h
  obtain ⟨dag2, hordered, h⟩ := Option.bind_eq_some_iff.mp h
  obtain ⟨⟨t1, dag3⟩, hconnexions, h⟩ := Option.bind_eq_some_iff.mp h
  obtain ⟨dag4, hconstraints, h⟩ := Option.bind_eq_some_iff.mp h
  obtain ⟨rfl, rfl⟩ := Prod.mk.inj (Option.some.inj h)
  obtain ⟨dag5, hdag5, hbuilt⟩ := Option.bind_eq_some_iff.mp hbuilt
  obtain ⟨dag6, hdag6, hbuilt⟩ := Option.bind_eq_some_iff.mp hbuilt
  obtain ⟨dag7, hdag7, hbuilt⟩ := Option.bind_eq_some_iff.mp hbuilt
  have hwires : P built :=
    preserves_buildWiresOf hcall (preserves_buildWiresOf hcall (preserves_buildWiresOf hcall
      (preserves_buildWiresOf hcall h0 hdag5) hdag6) hdag7) hbuilt
  have hsignals : P dag2 := by
    refine preserves_foldlM_generateWire hcall ?_ hwires hordered
    intro dag dag' name h hvisit
    obtain rfl := Option.some.inj hvisit
    exact hcall dag _ (.addOrderedSignal name) trivial h rfl
  obtain ⟨hedges, ht1⟩ := preserves_buildConnexions hcall hsignals hconnexions
  exact preserves_buildConstraints hcall ht1 hedges hconstraints

end Preserves

/-! ## What the insertion keeps -/

theorem changesMain_call {c : BuildCall} (hc : t.Calls dag c) (h : dag.call c = some dag') : ChangesMain dag dag' := by
  cases c with
  | addNode => exact hc.elim
  | addEdge target label isParallel =>
    obtain ⟨⟨dag1, edge⟩, hadd, rfl⟩ := Option.map_eq_some_iff.mp h
    obtain ⟨source, hsource, ⟨-, rfl⟩ | ⟨node, toNode, -, -, -, hnodes, hadj⟩⟩ := DAG.addEdge_cases hadd
    · exact ⟨rfl, fun _ _ => rfl, fun _ _ => rfl⟩
    · exact Dag.DAG.changesMain_addEdge (DAG.mainId_eq_some hsource) hnodes hadj
  | addInput | addOutput | addIntermediate | addOrderedSignal | addConstraint | addUnderscoredSignal
  | setNumberOfSubcomponentsIndexes =>
    obtain rfl := Option.some.inj h
    exact DAG.changesMain_modifyMain dag _

/-- The nodes before the new one stay. -/
theorem changesMain_insertInDag {t' : ExecutedTemplate}
    (h : t.insertInDag dag model = some (t', dag')) : ChangesMain (t.withNode dag) dag' := by
  refine preserves_insertInDag ?_
    ⟨rfl, fun _ _ => rfl, fun _ _ => rfl⟩ h
  intro d d' c hc hd hcall
  have hstep := changesMain_call hc hcall
  refine ⟨hstep.length_eq.trans hd.length_eq, ?_, ?_⟩
  · intro n hn
    rw [hstep.nodes_eq n (by rw [hd.length_eq]; exact hn), hd.nodes_eq n hn]
  · intro n hn
    rw [hstep.adjacency_eq n (by rw [hd.length_eq]; exact hn), hd.adjacency_eq n hn]

theorem constraintsWithin_mono {node node' : Node} (h : ConstraintsWithin prime node)
    (hconstraints : node'.constraints = node.constraints)
    (hle : node.numberOfSignals ≤ node'.numberOfSignals) : ConstraintsWithin prime node' := by
  intro c hc
  rw [hconstraints] at hc
  exact ⟨(h c hc).1, fun k hk => ((h c hc).2 k hk).trans hle⟩

/-- The graph is numbered, and its constraints are about signals of their nodes. -/
structure Sound (prime : ℤ) (dag : DAG) : Prop where
  prime_eq : dag.prime = prime
  numbered : dag.AllNumbered
  within : dag.AllWithin prime

theorem sound_call (hcoeffs : ∀ c ∈ t.constraints, c.CoeffsInField prime) {c : BuildCall} (hc : t.Calls dag c)
    (h : Sound prime dag) (hcall : dag.call c = some dag') : Sound prime dag' := by
  have hnum := DAG.allNumbered_call h.numbered hcall
  cases c with
  | addNode => exact hc.elim
  | addInput | addOutput | addIntermediate =>
    obtain rfl := Option.some.inj hcall
    exact ⟨h.prime_eq, hnum, DAG.forall_nodes_modifyMain h.within fun node _ hnode =>
      constraintsWithin_mono hnode rfl (Nat.le_succ _)⟩
  | addEdge target label isParallel =>
    have hprime := DAG.prime_call hcall
    obtain ⟨⟨dag1, edge⟩, hadd, rfl⟩ := Option.map_eq_some_iff.mp hcall
    obtain ⟨source, hsource, ⟨-, rfl⟩ | ⟨node, toNode, -, hnode, -, hnodes, hadj⟩⟩ :=
      DAG.addEdge_cases hadd
    · exact h
    · refine ⟨hprime.trans h.prime_eq, hnum, ?_⟩
      refine DAG.forall_nodes_addEdge (DAG.mainId_eq_some hsource) hnodes hadj h.within ?_
      obtain ⟨_, _, hframe⟩ :=
        Dag.addSubcomponent_frame (node.newEdge toNode target label) toNode node isParallel
      rw [hframe]
      exact constraintsWithin_mono (h.within source node hnode) rfl (Nat.le_add_right _ _)
  | addConstraint cc =>
    obtain ⟨main, hmain, c, hmem, hcc⟩ := hc
    obtain rfl := Option.some.inj hcall
    refine ⟨h.prime_eq, hnum, DAG.forall_nodes_modifyMain h.within fun node hnode hold => ?_⟩
    obtain rfl : main = node := Option.some.inj (hmain.symm.trans hnode)
    intro c' hc'
    rcases List.mem_append.mp hc' with hc' | hc'
    · exact hold c' hc'
    · obtain rfl := List.mem_singleton.mp hc'
      refine ⟨Constraint.coeffsInField_applyCorrespondence (hcoeffs c hmem) hcc, ?_⟩
      intro k hk
      obtain ⟨main', edges, hmain', hget, -, hedges⟩ := DAG.exists_main (DAG.ne_nil_of_getMain hmain)
      obtain rfl : main' = main := Option.some.inj (hmain'.symm.trans hmain)
      rcases Constraint.mentions_applyCorrespondence hcc hk with rfl | ⟨name, hname⟩
      · exact Nat.zero_le _
      · exact (h.numbered _ main' edges hget hedges).value_le name k hname
  | addOrderedSignal | addUnderscoredSignal | setNumberOfSubcomponentsIndexes =>
    obtain rfl := Option.some.inj hcall
    exact ⟨h.prime_eq, hnum, DAG.forall_nodes_modifyMain h.within fun node _ hnode => hnode⟩

theorem sound_insertInDag (hcoeffs : ∀ c ∈ t.constraints, c.CoeffsInField prime) {t' : ExecutedTemplate}
    (hsound : Sound prime dag) (h : t.insertInDag dag model = some (t', dag')) : Sound prime dag' := by
  refine preserves_insertInDag (fun _ _ _ => sound_call hcoeffs) ?_ h
  refine ⟨hsound.prime_eq, DAG.allNumbered_addNode hsound.numbered _ _ _ _, ?_⟩
  exact DAG.forall_nodes_addNode hsound.within fun c hc => absurd hc List.not_mem_nil

theorem everyNode_insertInDag {P : (look : ℕ → Option Node) → Node → List Dag.Edge → Prop}
    (hkept : DAG.KeptByCalls P) {t' : ExecutedTemplate} (hdag : dag.EveryNode P)
    (h : t.insertInDag dag model = some (t', dag')) : dag'.EveryNode P :=
  preserves_insertInDag (fun _ _ _ _ h hc => h.call hkept hc) (hdag.addNode hkept _ _ _ _) h

/-- The nodes are those before the insertion and the one of the template. -/
theorem forall_nodes_insertInDag {P : Node → Prop} {t' : ExecutedTemplate}
    (hdag : ∀ (n : ℕ) node, dag.nodes[n]? = some node → P node) (h : t.insertInDag dag model = some (t', dag'))
    (hmain : ∀ main, dag'.getMain = some main → P main) : ∀ (n : ℕ) node, dag'.nodes[n]? = some node → P node := by
  intro n node hnode
  have hchanges := changesMain_insertInDag h
  have hlength : (t.withNode dag).nodes.length = dag.nodes.length + 1 := List.length_append ..
  have hlt : n < dag'.nodes.length := (List.getElem?_eq_some_iff.mp hnode).1
  rw [hchanges.length_eq, hlength] at hlt
  rcases Nat.lt_or_ge n dag.nodes.length with hn | hn
  · rw [hchanges.nodes_eq n (by omega), withNode, DAG.addNode, List.getElem?_append_left hn] at hnode
    exact hdag n node hnode
  · refine hmain node ?_
    have hlast : dag'.nodes.length - 1 = n := by
      rw [hchanges.length_eq]
      omega
    rw [DAG.getMain, List.getLast?_eq_getElem?, hlast]
    exact hnode

end ExecutedTemplate

/-- What holds of every complete node holds of all nodes of an executed program. -/
theorem ExecutedProgram.forall_nodes_insertAllInDag {P : Node → Prop} {program : ExecutedProgram}
    (hmain : ∀ (t t' : ExecutedTemplate) (dag dag' : DAG) main, t.insertInDag dag program.modelBuses = some (t', dag') → dag'.getMain = some main → P main)
    (h : program.insertAllInDag = some dag) : ∀ (n : ℕ) node, dag.nodes[n]? = some node → P node := by
  refine foldlM_preserves (fun _ (dag : DAG) => ∀ (n : ℕ) node, dag.nodes[n]? = some node → P node) ?_
    (l := program.model) (s := DAG.new program.prime) (fun n node hnode => by cases hnode) h
  intro t rest dag dag' hdag hstep
  obtain ⟨⟨t', dag1⟩, hinsert, rfl⟩ := Option.map_eq_some_iff.mp hstep
  exact ExecutedTemplate.forall_nodes_insertInDag hdag hinsert (hmain t t' dag dag1 · hinsert)

/-- What the calls on a node keep holds of all nodes of an executed program. -/
theorem ExecutedProgram.everyNode_insertAllInDag {P : (look : ℕ → Option Node) → Node → List Dag.Edge → Prop}
    (program : ExecutedProgram) (hkept : DAG.KeptByCalls P) (h : program.insertAllInDag = some dag) :
    dag.EveryNode P := by
  refine foldlM_preserves (fun _ dag => dag.EveryNode P) ?_ (l := program.model) (s := DAG.new program.prime)
    (DAG.everyNode_new P program.prime) h
  intro t rest dag dag' hdag hstep
  obtain ⟨⟨t', dag1⟩, hinsert, rfl⟩ := Option.map_eq_some_iff.mp hstep
  exact t.everyNode_insertInDag hkept hdag hinsert

end Circom.ConstraintGeneration
