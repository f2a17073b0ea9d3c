import Circom.ConstraintGeneration.Proofs.PublicLayout
import Circom.Dag.Proofs.ConstraintCorrectnessAnalysis

/-!
# Unconstrained signals of executed programs

The nodes of an executed program name their signals and reach the inputs and outputs of their subcomponents, so the
analysis of unconstrained signals is exact unless names or nodes are confused.
-/

namespace Circom.Dag

open Circom.Dag.ConstraintCorrectnessAnalysis (NamesOnce)

variable {dag : DAG} {edges : List Edge} {node toNode : Node} {name : String} {n : ℕ} {look : ℕ → Option Node}

/-! ## Reachable signals -/

/-- The number belongs to a named signal of a subcomponent for which `R` holds. -/
def FromSubcomponent (look : ℕ → Option Node) (edges : List Edge) (R : Node → ℕ → Prop) (id : ℕ) : Prop :=
  ∃ e ∈ edges, ∃ toNode k, look e.goesTo = some toNode ∧ k ∈ toNode.locals ∧
    (∃ name, toNode.correspondence.lookup name = some k) ∧ R toNode k ∧ id = e.inNumber + k

/-- The signals before the intermediate ones. -/
def IsIo (node : Node) (k : ℕ) : Prop := k ≤ node.inputsLength + node.outputsLength

/-- The names of a node and the signals it can reach. -/
structure ReachesIo (look : ℕ → Option Node) (node : Node) (edges : List Edge) : Prop where
  numbered : DAG.NumberedIn look node edges
  once : NamesOnce node
  named : ∀ name id, node.correspondence.lookup name = some id →
    id ∈ node.locals ∨ FromSubcomponent look edges (fun _ _ => True) id
  reachable_iff : ∀ id, id ∈ node.reachables ↔ id ∈ node.locals ∨ FromSubcomponent look edges IsIo id

theorem FromSubcomponent.congr {look' : ℕ → Option Node} (h : ∀ e ∈ edges, look' e.goesTo = look e.goesTo)
    {R : Node → ℕ → Prop} {id : ℕ} : FromSubcomponent look' edges R id ↔ FromSubcomponent look edges R id := by
  unfold FromSubcomponent
  refine exists_congr fun e => and_congr_right fun he => ?_
  rw [h e he]

theorem fromSubcomponent_append {edge : Edge} (hto : look edge.goesTo = some toNode) {R : Node → ℕ → Prop} {id : ℕ} :
    FromSubcomponent look (edges ++ [edge]) R id ↔ FromSubcomponent look edges R id ∨
      ∃ k ∈ toNode.locals, (∃ name, toNode.correspondence.lookup name = some k) ∧ R toNode k ∧
        id = edge.inNumber + k := by
  constructor
  · rintro ⟨e, he, to', k, hlook, h⟩
    rcases List.mem_append.mp he with he | he
    · exact Or.inl ⟨e, he, to', k, hlook, h⟩
    · obtain rfl := List.mem_singleton.mp he
      obtain rfl := Option.some.inj (hto.symm.trans hlook)
      exact Or.inr ⟨k, h⟩
  · rintro (⟨e, he, h⟩ | ⟨k, h⟩)
    · exact ⟨e, List.mem_append_left _ he, h⟩
    · exact ⟨edge, List.mem_append_right _ List.mem_cons_self, toNode, k, hto, h⟩

/-- A new signal of the node itself. -/
theorem ReachesIo.addsLocal {node' : Node} (h : ReachesIo look node edges) (hadds : AddsLocal node node' name)
    (hreach : node'.reachables = insert (node.numberOfSignals + 1) node.reachables) : ReachesIo look node' edges := by
  have hnew {s : String} {id : ℕ} (hs : node'.correspondence.lookup s = some id) :
      (s = name ∧ id = node.numberOfSignals + 1) ∨
        (node.correspondence.lookup s = some id ∧ id ≤ node.numberOfSignals) := by
    rw [hadds.correspondence_eq] at hs
    by_cases hname : s = name
    · rw [hname, AList.lookup_insert] at hs
      exact Or.inl ⟨hname, (Option.some.inj hs).symm⟩
    · rw [AList.lookup_insert_ne hname] at hs
      exact Or.inr ⟨hs, h.numbered.value_le s id hs⟩
  refine ⟨hadds.numbered h.numbered, fun s s' id hs hs' => ?_, fun s id hs => ?_, fun id => ?_⟩
  · rcases hnew hs with ⟨rfl, rfl⟩ | ⟨hs, hle⟩ <;> rcases hnew hs' with ⟨rfl, hid⟩ | ⟨hs', hle'⟩
    · rfl
    · omega
    · omega
    · exact h.once s s' id hs hs'
  · rw [hadds.locals_eq, Finset.mem_insert]
    rcases hnew hs with ⟨-, rfl⟩ | ⟨hs, -⟩
    · exact Or.inl (Or.inl rfl)
    · exact (h.named s id hs).imp_left Or.inr
  · rw [hreach, hadds.locals_eq, Finset.mem_insert, Finset.mem_insert, h.reachable_iff, or_assoc]

theorem foldl_addSubcomponentSignal_reachables (edge : Edge) (toNode : Node) (l : List (String × ℕ)) (node : Node)
    (id : ℕ) : id ∈ (l.foldl (Node.addSubcomponentSignal edge toNode) node).reachables ↔
      id ∈ node.reachables ∨ ∃ e ∈ l, e.2 ∈ toNode.locals ∧ IsIo toNode e.2 ∧ id = edge.inNumber + e.2 := by
  induction l generalizing node with
  | nil => simp
  | cons e l ih =>
    have hstep : id ∈ (Node.addSubcomponentSignal edge toNode node e).reachables ↔
        id ∈ node.reachables ∨ (e.2 ∈ toNode.locals ∧ IsIo toNode e.2 ∧ id = edge.inNumber + e.2) := by
      unfold Node.addSubcomponentSignal IsIo
      by_cases hlocal : toNode.isLocalSignal e.2
      · rw [if_pos hlocal]
        have hmem : e.2 ∈ toNode.locals := of_decide_eq_true hlocal
        by_cases hle : e.2 ≤ toNode.inputsLength + toNode.outputsLength
        · simp [hle, hmem, or_comm]
        · simp [hle]
      · rw [if_neg hlocal]
        have hmem : e.2 ∉ toNode.locals := fun hmem => hlocal (decide_eq_true hmem)
        simp [hmem]
    rw [List.foldl_cons, ih, hstep, or_assoc, List.exists_mem_cons_iff]

theorem ReachesIo.addSubcomponent {toEdges : List Edge} {target : ℕ} (h : ReachesIo look node edges)
    (hto : look target = some toNode) (hsub : ReachesIo look toNode toEdges) (label : String) (isParallel : Bool) :
    ReachesIo look (node.addSubcomponent toNode (node.newEdge toNode target label) isParallel)
      (edges ++ [node.newEdge toNode target label]) := by
  have hnew {s : String} {id : ℕ}
      (hs : (node.addSubcomponent toNode (node.newEdge toNode target label) isParallel).correspondence.lookup s =
        some id) :
      (node.correspondence.lookup s = some id ∧ id ≤ node.numberOfSignals) ∨
        ∃ signal k, s = Node.concreteName label signal ∧ toNode.correspondence.lookup signal = some k ∧
          k ∈ toNode.locals ∧ id = node.numberOfSignals + k ∧ 0 < k := by
    rcases foldl_addSubcomponentSignal_lookup _ _ hs with hs | ⟨⟨signal, k⟩, hmem, hlocal, hname, hid⟩
    · exact Or.inl ⟨hs, h.numbered.value_le s id hs⟩
    · have hk : k ∈ toNode.locals := of_decide_eq_true hlocal
      exact Or.inr ⟨signal, k, hname, AList.mem_pairs_iff_lookup.mp hmem, hk, hid, (hsub.numbered.local_bounds k hk).1⟩
  refine ⟨DAG.keptByCalls_numbered.addSubcomponent h.numbered hto hsub.numbered label isParallel,
    fun s s' id hs hs' => ?_, fun s id hs => ?_, fun id => ?_⟩
  · rcases hnew hs with ⟨hs, hle⟩ | ⟨signal, k, rfl, hsignal, -, hid, hpos⟩ <;>
      rcases hnew hs' with ⟨hs', hle'⟩ | ⟨signal', k', rfl, hsignal', -, hid', hpos'⟩
    · exact h.once s s' id hs hs'
    · omega
    · omega
    · obtain rfl : k = k' := by omega
      rw [hsub.once signal signal' k hsignal hsignal']
  · rw [locals_addSubcomponent, fromSubcomponent_append (show look (node.newEdge toNode target label).goesTo = _ from hto)]
    rcases hnew hs with ⟨hs, -⟩ | ⟨signal, k, -, hsignal, hk, hid, -⟩
    · exact (h.named s id hs).imp_right Or.inl
    · exact Or.inr (Or.inr ⟨k, hk, ⟨signal, hsignal⟩, trivial, hid⟩)
  · rw [locals_addSubcomponent, fromSubcomponent_append (show look (node.newEdge toNode target label).goesTo = _ from hto),
      Node.addSubcomponent, foldl_addSubcomponentSignal_reachables, ← or_assoc, ← h.reachable_iff]
    refine or_congr_right ⟨?_, ?_⟩
    · rintro ⟨⟨signal, k⟩, hmem, hk, hio, hid⟩
      exact ⟨k, hk, ⟨signal, AList.mem_pairs_iff_lookup.mp hmem⟩, hio, hid⟩
    · rintro ⟨k, hk, ⟨signal, hsignal⟩, hio, hid⟩
      exact ⟨(signal, k), AList.mem_pairs_iff_lookup.mpr hsignal, hk, hio, hid⟩

theorem keptByCalls_reachesIo : DAG.KeptByCalls ReachesIo where
  congr h hlook := by
    refine ⟨DAG.keptByCalls_numbered.congr h.numbered hlook, h.once, fun name id hname => ?_, fun id => ?_⟩
    · rw [FromSubcomponent.congr hlook]
      exact h.named name id hname
    · rw [FromSubcomponent.congr hlook]
      exact h.reachable_iff id
  new _ _ _ _ _ _ := by
    refine ⟨numbered_new _ _ _ _ _ _, nofun, nofun, fun id => ?_⟩
    simp [Node.new, FromSubcomponent]
  addInput h name isPublic := h.addsLocal (addsLocal_addInput _ name isPublic) rfl
  addOutput h name := h.addsLocal (addsLocal_addOutput _ name) rfl
  addIntermediate h name := h.addsLocal (addsLocal_addIntermediate _ name) rfl
  addSubcomponent h hto hsub label isParallel := h.addSubcomponent hto hsub label isParallel
  addOrderedSignal h name := ⟨DAG.keptByCalls_numbered.addOrderedSignal h.numbered name, h.once, h.named, h.reachable_iff⟩
  addConstraint h c := ⟨DAG.keptByCalls_numbered.addConstraint h.numbered c, h.once, h.named, h.reachable_iff⟩
  addUnderscoredSignal h signal :=
    ⟨DAG.keptByCalls_numbered.addUnderscoredSignal h.numbered signal, h.once, h.named, h.reachable_iff⟩
  setNumberOfSubcomponentsIndexes h numberScmp :=
    ⟨DAG.keptByCalls_numbered.setNumberOfSubcomponentsIndexes h.numbered numberScmp, h.once, h.named, h.reachable_iff⟩

/-- The ranges of two subcomponents have no number in common. -/
theorem edges_disjoint {size : ℕ → ℕ} (h : Numbered size node edges) {e e' : Edge}
    (he : e ∈ edges) (he' : e' ∈ edges) : e = e' ∨ e.outNumber ≤ e'.inNumber ∨ e'.outNumber ≤ e.inNumber := by
  have hsymm : Std.Symm fun e e' : Edge => e = e' ∨ e.outNumber ≤ e'.inNumber ∨ e'.outNumber ≤ e.inNumber := by
    refine ⟨?_⟩
    rintro x y (rfl | hxy | hyx)
    · exact Or.inl rfl
    · exact Or.inr (Or.inr hxy)
    · exact Or.inr (Or.inl hyx)
  have hpairs : edges.Pairwise fun e e' => e = e' ∨ e.outNumber ≤ e'.inNumber ∨ e'.outNumber ≤ e.inNumber :=
    h.edges_ordered.imp fun hle => Or.inr (Or.inl hle)
  exact hpairs.forall_of_forall (by intro x _; exact Or.inl rfl) he he'

section Graph

variable {dag : DAG} (hdag : dag.EveryNode ReachesIo)

include hdag

/-- A number of a subcomponent has a name in the father only if the signal has one. -/
theorem signal_of_name (hnode : dag.nodes[n]? = some node) (hedges : dag.adjacency[n]? = some edges) {id : ℕ}
    (hname : node.correspondence.lookup name = some id) {e : Edge} (he : e ∈ edges)
    (hto : dag.nodes[e.goesTo]? = some toNode) {k : ℕ} (hk : k ∈ toNode.locals) (hid : id = e.inNumber + k) :
    ∃ signal, toNode.correspondence.lookup signal = some k := by
  have h := hdag n node edges hnode hedges
  have hbounds {e : Edge} (he : e ∈ edges) {toNode : Node} (hto : dag.nodes[e.goesTo]? = some toNode) {k : ℕ}
      (hk : k ∈ toNode.locals) : 0 < k ∧ e.inNumber + k ≤ e.outNumber := by
    obtain ⟨-, toEdges, -, htoEdges⟩ := dag.exists_node (List.getElem?_eq_some_iff.mp hto).1
    have hlocal := (hdag e.goesTo toNode toEdges hto htoEdges).numbered.local_bounds k hk
    have hout := h.numbered.edge_eq e he
    simp only [hto, Option.map_some, Option.getD_some] at hout
    omega
  have hrange := hbounds he hto hk
  rcases h.named name id hname with hlocal | ⟨e', he', toNode', k', hto', hk', hsignal, -, hid'⟩
  · have := h.numbered.local_notMem id hlocal e he
    omega
  · have hrange' := hbounds he' hto' hk'
    rcases edges_disjoint h.numbered he he' with rfl | hdisjoint | hdisjoint
    · obtain rfl := Option.some.inj (hto.symm.trans hto')
      obtain rfl : k = k' := by omega
      exact hsignal
    · omega
    · omega

/-- The numbers that have names are positive. -/
theorem pos_of_name (hnode : dag.nodes[n]? = some node) {id : ℕ}
    (hname : node.correspondence.lookup name = some id) : 0 < id := by
  obtain ⟨-, edges, -, hedges⟩ := dag.exists_node (List.getElem?_eq_some_iff.mp hnode).1
  have h := hdag n node edges hnode hedges
  rcases h.named name id hname with hlocal | ⟨e, he, toNode, k, hto, hk, -, -, rfl⟩
  · exact (h.numbered.local_bounds id hlocal).1
  · obtain ⟨-, toEdges, -, htoEdges⟩ := dag.exists_node (List.getElem?_eq_some_iff.mp hto).1
    have := ((hdag e.goesTo toNode toEdges hto htoEdges).numbered.local_bounds k hk).1
    omega

end Graph

/-- What holds of a node when its template is complete. -/
structure Complete (node : Node) : Prop where
  ioSignals_iff : ∀ k, k ∈ node.ioSignals ↔ k ∈ node.locals ∧ IsIo node k
  constraints_named : ∀ c ∈ node.constraints, ∀ id, c.Mentions id →
    id = 0 ∨ ∃ name, node.correspondence.lookup name = some id
  underscored_named : ∀ id ∈ node.underscoredSignals, ∃ name, node.correspondence.lookup name = some id

end Circom.Dag

namespace Circom.ConstraintGeneration

open Circom.Algebra (Constraint)
open Circom.Dag (Complete DAG IsIo Node)
open Circom.Lib (foldlM_preserves)

/-! ## Complete nodes -/

theorem SignalConfig.ioSignals_foldl_addToNode (config : SignalConfig) (hconfig : config.signalType < 3)
    (names : List String) (node : Node) :
    (names.foldl config.addToNode node).ioSignals = node.ioSignals ++
      if config.signalType = 2 then [] else List.range' (node.numberOfSignals + 1) names.length := by
  induction names generalizing node with
  | nil => simp
  | cons name names ih =>
    have hstep : (config.addToNode node name).ioSignals = node.ioSignals ++
        if config.signalType = 2 then [] else [node.numberOfSignals + 1] := by
      unfold SignalConfig.addToNode
      split_ifs
      all_goals first | omega | rfl | exact (List.append_nil _).symm
    rw [List.foldl_cons, ih, hstep, numberOfSignals_addToNode hconfig, List.append_assoc]
    congr 1
    split_ifs
    · rfl
    · rfl

namespace ExecutedTemplate

variable {t : ExecutedTemplate} {model : ModelBuses}

/-- The outputs and inputs are the first signals. -/
theorem ioSignals_wiredNode (hsignals : node.numberOfSignals = 0) (hio : node.ioSignals = []) :
    (t.wiredNode model node).ioSignals = List.range' 1 ((t.outputScalars model).length +
      ((t.publicInputScalars model).length + (t.privateInputScalars model).length)) := by
  have hrange (m n : ℕ) : List.range' 1 m ++ List.range' (m + 1) n = List.range' 1 (m + n) := by
    rw [Nat.add_comm m 1]
    exact List.range'_append_1
  obtain ⟨n1, -⟩ := SignalConfig.foldl_addToNode ⟨false, 1⟩ (by decide) (t.outputScalars model) node
  obtain ⟨n2, -⟩ := SignalConfig.foldl_addToNode ⟨true, 0⟩ (by decide) (t.publicInputScalars model)
    ((t.outputScalars model).foldl (SignalConfig.addToNode ⟨false, 1⟩) node)
  rw [hsignals, Nat.zero_add] at n1
  rw [n1] at n2
  rw [wiredNode, SignalConfig.ioSignals_foldl_addToNode _ (by decide), SignalConfig.ioSignals_foldl_addToNode _ (by decide),
    SignalConfig.ioSignals_foldl_addToNode _ (by decide), SignalConfig.ioSignals_foldl_addToNode _ (by decide), n2, n1,
    hsignals, hio]
  simp only [if_true, List.append_nil, List.nil_append]
  norm_num
  rw [← List.append_assoc, hrange, hrange, Nat.add_assoc]

/-- The constraints are renamed by the names that the node has before them. -/
theorem constraints_buildConstraints {t' : ExecutedTemplate} {dag' : DAG} {main : Node}
    (hmain : dag.getMain = some main) (hconstraints : main.constraints = [])
    (hunderscored : main.underscoredSignals = []) (h : t'.buildConstraints dag = some dag') :
    ∃ main', dag'.getMain = some main' ∧
      (∀ c ∈ main'.constraints, ∀ id, c.Mentions id → id = 0 ∨ ∃ name, main'.correspondence.lookup name = some id) ∧
      ∀ id ∈ main'.underscoredSignals, ∃ name, main'.correspondence.lookup name = some id := by
  obtain ⟨dag1, hdag1, hdag2⟩ := Option.bind_eq_some_iff.mp h
  have h1 := foldlM_preserves (fun _ (dag : DAG) => ∃ main, dag.getMain = some main ∧
      (∀ c ∈ main.constraints, ∀ id, c.Mentions id → id = 0 ∨ ∃ name, main.correspondence.lookup name = some id) ∧
      main.underscoredSignals = [])
    (by
      rintro c rest dag dag' ⟨main, hmain, hconstraints, hunderscored⟩ hround
      obtain ⟨main', hmain', hround⟩ := Option.bind_eq_some_iff.mp hround
      obtain rfl := Option.some.inj (hmain.symm.trans hmain')
      obtain ⟨cc, hcc, hround⟩ := Option.bind_eq_some_iff.mp hround
      obtain rfl := Option.some.inj hround
      refine ⟨main.addConstraint cc, by rw [DAG.addConstraint, getMain_modifyMain, hmain, Option.map_some], ?_,
        hunderscored⟩
      intro c' hc' id hid
      rcases List.mem_append.mp hc' with hc' | hc'
      · exact hconstraints c' hc' id hid
      · obtain rfl := List.mem_singleton.mp hc'
        exact Constraint.mentions_applyCorrespondence hcc hid)
    ⟨main, hmain, by rw [hconstraints]; exact nofun, hunderscored⟩ hdag1
  obtain ⟨main1, hmain1, hconstraints1, hunderscored1⟩ := h1
  refine foldlM_preserves (fun _ (dag : DAG) => ∃ main, dag.getMain = some main ∧
      (∀ c ∈ main.constraints, ∀ id, c.Mentions id → id = 0 ∨ ∃ name, main.correspondence.lookup name = some id) ∧
      ∀ id ∈ main.underscoredSignals, ∃ name, main.correspondence.lookup name = some id) ?_
    ⟨main1, hmain1, hconstraints1, by rw [hunderscored1]; exact nofun⟩ hdag2
  rintro s rest dag dag' ⟨main, hmain, hconstraints, hunderscored⟩ hround
  obtain ⟨main', hmain', hround⟩ := Option.bind_eq_some_iff.mp hround
  obtain rfl := Option.some.inj (hmain.symm.trans hmain')
  obtain ⟨newS, hnewS, hround⟩ := Option.bind_eq_some_iff.mp hround
  obtain rfl := Option.some.inj hround
  refine ⟨main.addUnderscoredSignal newS, by rw [DAG.addUnderscoredSignal, getMain_modifyMain, hmain, Option.map_some],
    hconstraints, fun id hid => ?_⟩
  rcases List.mem_append.mp hid with hid | hid
  · exact hunderscored id hid
  · exact ⟨s, by rw [List.mem_singleton.mp hid]; exact hnewS⟩

/-- The node of an inserted template is complete. -/
theorem complete_insertInDag {t' : ExecutedTemplate} {dag' : DAG} (h : t.insertInDag dag model = some (t', dag'))
    {main : Node} (hmain : dag'.getMain = some main) : Complete main := by
  obtain ⟨main', hmain', hcounts⟩ := exists_main_insertInDag h
  obtain rfl : main' = main := Option.some.inj (hmain'.symm.trans hmain)
  obtain ⟨built, hbuilt, h⟩ := Option.bind_eq_some_iff.mp h
  obtain ⟨dag2, hordered, h⟩ := Option.bind_eq_some_iff.mp h
  obtain ⟨⟨t1, dag3⟩, hconnexions, h⟩ := Option.bind_eq_some_iff.mp h
  obtain ⟨dag4, hconstraints, h⟩ := Option.bind_eq_some_iff.mp h
  obtain ⟨rfl, rfl⟩ := Prod.mk.inj (Option.some.inj h)
  obtain ⟨new, hnew⟩ : ∃ new, new = Node.new dag.nodes.length t.reportName
    (t.parameterInstances.flatMap fun e => asBigInt e.2) t.isParallel t.isCustomGate := ⟨_, rfl⟩
  have hnode : (t.withNode dag).getMain = some new := by
    rw [withNode, DAG.getMain, DAG.addNode, hnew]
    exact List.getLast?_concat
  obtain ⟨built', hbuilt', hwired⟩ := buildWires_main (connects_of_buildWires hbuilt) hnode
  obtain rfl : built' = built := Option.some.inj (hbuilt'.symm.trans hbuilt)
  -- the inputs and outputs stay, and there is no constraint before `build_constraints`
  have hio : main'.ioSignals = (t.wiredNode model new).ioSignals := by
    have himage : dag4.getMain.map Node.ioSignals = built'.getMain.map Node.ioSignals := by
      rw [mainImage_buildConstraints (fun _ _ => rfl) (fun _ _ => rfl) hconstraints,
        mainImage_buildConnexions (addSubcomponent_image fun _ _ _ _ _ _ _ => rfl) (fun _ _ => rfl) hconnexions,
        mainImage_buildOrderedSignals (fun _ _ => rfl) hordered]
    rw [hmain', hwired] at himage
    exact Option.some.inj himage
  have hempty : dag3.getMain.map (fun node => (node.constraints, node.underscoredSignals)) = some ([], []) := by
    rw [mainImage_buildConnexions (addSubcomponent_image fun _ _ _ _ _ _ _ => rfl) (fun _ _ => rfl) hconnexions,
      mainImage_buildOrderedSignals (fun _ _ => rfl) hordered, hwired, Option.map_some]
    have hwires := @wiredNode_image t model _ (fun node => (node.constraints, node.underscoredSignals))
      (fun _ _ _ => rfl) (fun _ _ => rfl) (fun _ _ => rfl) new
    rw [hnew] at hwires ⊢
    exact congrArg some hwires
  obtain ⟨main3, hmain3, hempty⟩ := Option.map_eq_some_iff.mp hempty
  obtain ⟨hempty, hempty'⟩ := Prod.mk.inj hempty
  obtain ⟨main4, hmain4, hnamed⟩ := constraints_buildConstraints hmain3 hempty hempty' hconstraints
  obtain rfl : main4 = main' := Option.some.inj (hmain4.symm.trans hmain)
  refine ⟨fun k => ?_, hnamed.1, hnamed.2⟩
  have hlocals : main4.locals = next 0 (t.wires.flatMap (t.scalars model)).length := congrArg PublicCounts.locals hcounts
  have houtputs : main4.outputsLength = (t.outputScalars model).length := congrArg PublicCounts.outputs hcounts
  have hinputs : main4.inputsLength = (t.publicInputScalars model).length + (t.privateInputScalars model).length :=
    congrArg PublicCounts.inputs hcounts
  have hlength := congrArg List.length (t.scalars_wires model)
  simp only [List.length_append] at hlength
  rw [hio, ioSignals_wiredNode (by rw [hnew]; rfl) (by rw [hnew]; rfl), List.mem_range'_1, hlocals, next, Finset.mem_Icc, IsIo, houtputs, hinputs]
  omega

end ExecutedTemplate

end Circom.ConstraintGeneration

namespace Circom.Dag

open Circom.Dag.ConstraintCorrectnessAnalysis

/-! ## The graph -/

theorem appears_iff {c : Constraint} (hc : c.NoZeroCoeff) (id : ℕ) : Appears c id ↔ c.Mentions id := by
  have hlookup {m : Lib.HashMap ℕ ℤ} (hm : Algebra.NoZeroCoeff m) : id ∈ m ↔ ∃ v ≠ 0, m.lookup id = some v := by
    rw [AList.mem_iff_exists_lookup]
    exact ⟨fun ⟨v, hv⟩ => ⟨v, fun h0 => hm id (h0 ▸ hv), hv⟩, fun ⟨v, _, hv⟩ => ⟨v, hv⟩⟩
  unfold Appears Algebra.Constraint.Mentions
  rw [hlookup hc.1, hlookup hc.2.1, hlookup hc.2.2]
  constructor
  · rintro ⟨v, h0, hv | hv | hv⟩
    · exact Or.inl ⟨v, h0, hv⟩
    · exact Or.inr (Or.inl ⟨v, h0, hv⟩)
    · exact Or.inr (Or.inr ⟨v, h0, hv⟩)
  · rintro (⟨v, h0, hv⟩ | ⟨v, h0, hv⟩ | ⟨v, h0, hv⟩)
    · exact ⟨v, h0, Or.inl hv⟩
    · exact ⟨v, h0, Or.inr (Or.inl hv)⟩
    · exact ⟨v, h0, Or.inr (Or.inr hv)⟩

theorem usable_cleanConstraints {id : ℕ} : Usable dag.cleanConstraints n id ↔ Usable dag n id := by
  have hget (m : ℕ) : dag.cleanConstraints.nodes[m]? = (dag.nodes[m]?).map Node.cleanConstraints :=
    DAG.getElem?_cleanConstraints
  have hadj : dag.cleanConstraints.adjacency = dag.adjacency := rfl
  unfold Usable
  constructor
  · rintro (⟨node, hnode, hid⟩ | ⟨edges, e, toNode, hedges, he, hto, hk⟩)
    · rw [hget] at hnode
      obtain ⟨node', hnode', rfl⟩ := Option.map_eq_some_iff.mp hnode
      exact Or.inl ⟨node', hnode', hid⟩
    · rw [hget] at hto
      obtain ⟨toNode', hto', rfl⟩ := Option.map_eq_some_iff.mp hto
      exact Or.inr ⟨edges, e, toNode', hedges, he, hto', hk⟩
  · rintro (⟨node, hnode, hid⟩ | ⟨edges, e, toNode, hedges, he, hto, hk⟩)
    · exact Or.inl ⟨node.cleanConstraints, by rw [hget, hnode]; rfl, hid⟩
    · exact Or.inr ⟨edges, e, toNode.cleanConstraints, hedges, he, by rw [hget, hto]; rfl, hk⟩

section WellNamed

variable {dag : DAG} (hdag : dag.EveryNode ReachesIo)
  (hcomplete : ∀ (n : ℕ) node, dag.nodes[n]? = some node → Complete node)

include hdag hcomplete

/-- Signals that can be used have positive numbers. -/
theorem usable_pos {id : ℕ} (h : Usable dag n id) : 0 < id := by
  rcases h with ⟨node, hnode, hid⟩ | ⟨edges, e, toNode, -, -, hto, k, hk, rfl⟩
  · obtain ⟨-, edges, -, hedges⟩ := dag.exists_node (List.getElem?_eq_some_iff.mp hnode).1
    exact ((hdag n node edges hnode hedges).numbered.local_bounds id hid).1
  · obtain ⟨-, toEdges, -, htoEdges⟩ := dag.exists_node (List.getElem?_eq_some_iff.mp hto).1
    have hlocal := (((hcomplete e.goesTo toNode hto).ioSignals_iff k).mp hk).1
    have := ((hdag e.goesTo toNode toEdges hto htoEdges).numbered.local_bounds k hlocal).1
    omega

/-- The reachable signals with a name are those that can be used. -/
theorem mem_reachables_iff (hnode : dag.nodes[n]? = some node) {id : ℕ}
    (hname : node.correspondence.lookup name = some id) : id ∈ node.reachables ↔ Usable dag n id := by
  obtain ⟨-, edges, -, hedges⟩ := dag.exists_node (List.getElem?_eq_some_iff.mp hnode).1
  rw [(hdag n node edges hnode hedges).reachable_iff]
  constructor
  · rintro (hid | ⟨e, he, toNode, k, hto, hk, -, hio, rfl⟩)
    · exact Or.inl ⟨node, hnode, hid⟩
    · exact Or.inr ⟨edges, e, toNode, hedges, he, hto, k, ((hcomplete e.goesTo toNode hto).ioSignals_iff k).mpr ⟨hk, hio⟩, rfl⟩
  · rintro (⟨node', hnode', hid⟩ | ⟨edges', e, toNode, hedges', he, hto, k, hk, hid⟩)
    · obtain rfl := Option.some.inj (hnode.symm.trans hnode')
      exact Or.inl hid
    · obtain rfl := Option.some.inj (hedges.symm.trans hedges')
      obtain ⟨hlocal, hio⟩ := ((hcomplete e.goesTo toNode hto).ioSignals_iff k).mp hk
      exact Or.inr ⟨e, he, toNode, k, hto, hlocal,
        signal_of_name hdag hnode hedges hname he hto hlocal hid, hio, hid⟩

/-- The nodes of a graph keep their names when it is cleaned, and no coefficient is zero. -/
theorem wellNamed_cleanConstraints : WellNamed dag.cleanConstraints := by
  have hget {n : ℕ} {node : Node} (hnode : dag.cleanConstraints.nodes[n]? = some node) :
      ∃ node', dag.nodes[n]? = some node' ∧ node = node'.cleanConstraints := by
    rw [DAG.getElem?_cleanConstraints] at hnode
    obtain ⟨node', hnode', rfl⟩ := Option.map_eq_some_iff.mp hnode
    exact ⟨node', hnode', rfl⟩
  have hmem {node : Node} (id : ℕ) : id ∈ mentions node.cleanConstraints ↔
      (id ≠ 0 ∧ ∃ c ∈ node.cleanConstraints.constraints, c.Mentions id) ∨ id ∈ node.underscoredSignals := by
    unfold mentions
    rw [List.mem_append, List.mem_flatMap]
    refine or_congr_left ⟨?_, ?_⟩
    · rintro ⟨c, hc, hid⟩
      rw [Finset.mem_ascending, Algebra.Constraint.mem_takeClonedSignals] at hid
      exact ⟨hid.1, c, hc, hid.2⟩
    · rintro ⟨hid, c, hc, hmentions⟩
      exact ⟨c, hc, by rw [Finset.mem_ascending, Algebra.Constraint.mem_takeClonedSignals]; exact ⟨hid, hmentions⟩⟩
  have hclean {node : Node} {c : Constraint} (hc : c ∈ node.cleanConstraints.constraints) :
      c.NoZeroCoeff ∧ ∃ c' ∈ node.constraints, c = c'.removeZeroValueCoefficients := by
    obtain ⟨hmem, -⟩ := List.mem_filter.mp hc
    obtain ⟨c', hc', rfl⟩ := List.mem_map.mp hmem
    exact ⟨⟨Algebra.noZeroCoeff_removeZero _, Algebra.noZeroCoeff_removeZero _, Algebra.noZeroCoeff_removeZero _⟩,
      c', hc', rfl⟩
  have hnamed {n : ℕ} {node : Node} (hnode : dag.nodes[n]? = some node) {id : ℕ}
      (hid : id ∈ mentions node.cleanConstraints) : ∃ name, node.correspondence.lookup name = some id := by
    rcases (hmem id).mp hid with ⟨h0, c, hc, hmentions⟩ | hid
    · obtain ⟨-, c', hc', rfl⟩ := hclean hc
      exact ((hcomplete n node hnode).constraints_named c' hc' id
        (Algebra.Constraint.mentions_removeZero hmentions)).resolve_left h0
    · exact (hcomplete n node hnode).underscored_named id hid
  refine ⟨fun n node hnode => ?_, fun n node hnode name id hname => ?_, fun n node hnode id hid => ?_,
    fun n node hnode id => ?_, fun n id hid => ?_⟩
  · obtain ⟨node', hnode', rfl⟩ := hget hnode
    obtain ⟨-, edges, -, hedges⟩ := dag.exists_node (List.getElem?_eq_some_iff.mp hnode').1
    exact (hdag n node' edges hnode' hedges).once
  · obtain ⟨node', hnode', rfl⟩ := hget hnode
    rw [usable_cleanConstraints]
    exact mem_reachables_iff hdag hcomplete hnode' hname
  · obtain ⟨node', hnode', rfl⟩ := hget hnode
    exact hnamed hnode' hid
  · obtain ⟨node', hnode', rfl⟩ := hget hnode
    rw [hmem]
    have hconstrained : ¬ Unconstrained node'.cleanConstraints id ↔
        (∃ c ∈ node'.cleanConstraints.constraints, c.Mentions id) ∨ id ∈ node'.underscoredSignals := by
      unfold Unconstrained
      rw [not_and_or, not_not]
      push Not
      refine or_congr_left (exists_congr fun c => and_congr_right fun hc => ?_)
      exact appears_iff (hclean hc).1 id
    rw [hconstrained, and_or_left]
    refine or_congr_right ⟨fun hid => ⟨?_, hid⟩, And.right⟩
    obtain ⟨name, hname⟩ := (hcomplete n node' hnode').underscored_named id hid
    exact (pos_of_name hdag hnode' hname).ne'
  · rw [usable_cleanConstraints] at hid
    exact (usable_pos hdag hcomplete hid).ne'

end WellNamed

end Circom.Dag

namespace Circom.ConstraintGeneration

open Circom.Dag (DAG Node)
open Circom.Dag.ConstraintCorrectnessAnalysis (Distinguishable Exact WellNamed analyse)

/-! ## Executed programs -/

theorem ExecutedProgram.wellNamed_exportDag {program : ExecutedProgram} (h : program.exportDag = some dag) :
    WellNamed dag := by
  obtain ⟨dag', hdag', rfl⟩ := Option.map_eq_some_iff.mp h
  refine Dag.wellNamed_cleanConstraints (program.everyNode_insertAllInDag Dag.keptByCalls_reachesIo hdag') ?_
  exact ExecutedProgram.forall_nodes_insertAllInDag
    (fun _ _ _ _ _ hinsert hmain => ExecutedTemplate.complete_insertInDag hinsert hmain) hdag'

/-- The analysis of an executed program is exact if and only if every signal has its name, nodes mention no
intermediate signals of their subcomponents, and nodes that share a name agree on their unconstrained signals. -/
theorem ExecutedProgram.exact_analyse_iff {program : ExecutedProgram} {dag : DAG} (h : program.exportDag = some dag) :
    (∃ warnings, analyse dag.nodes = some warnings ∧ Exact dag warnings) ↔ Distinguishable dag :=
  program.wellNamed_exportDag h |>.exact_iff

/-- A bus with one signal. -/
def taggedBus : ModelBuses where
  buses := [⟨"B", [⟨"x", [], false⟩], ∅⟩]
  connected := by
    intro i bus hbus field hfield hb
    match i, hbus with
    | 0, rfl =>
      rcases List.mem_singleton.mp hfield with rfl
      cases hb

/-- A template with a bus as input, which has the given constraints for the value of a tag. -/
def taggedTemplate (constraints : List (Algebra.Constraint String)) : ExecutedTemplate where
  reportName := "A()"
  inputs := [⟨"in", [], true⟩]
  outputs := []
  intermediates := []
  orderedSignals := [⟨"in", [], true⟩]
  constraints := constraints
  components := []
  numberOfComponents := 0
  publicInputs := ∅
  parameterInstances := []
  isParallel := false
  hasParallelSubCmp := false
  isCustomGate := false
  underscoredSignals := []
  connexions := []
  busConnexions := AList.ofPairs [("in", ⟨"in", ⟨"B", 0⟩⟩)]

/-- Two components of the template with different tags inside the bus. -/
def taggedProgram : ExecutedProgram where
  model :=
    [taggedTemplate [⟨∅, ∅, AList.ofPairs [("in.x", 1)]⟩], taggedTemplate [],
      { reportName := "Main()"
        inputs := [⟨"s", [], false⟩]
        outputs := []
        intermediates := []
        orderedSignals := [⟨"s", [], false⟩]
        constraints :=
          [⟨∅, ∅, AList.ofPairs [("a1.in.x", 1), ("s", 6)]⟩, ⟨∅, ∅, AList.ofPairs [("a2.in.x", 1), ("s", 6)]⟩]
        components := [⟨"a1", [], false⟩, ⟨"a2", [], false⟩]
        numberOfComponents := 0
        publicInputs := ∅
        parameterInstances := []
        isParallel := false
        hasParallelSubCmp := false
        isCustomGate := false
        underscoredSignals := []
        connexions := [{ fullName := "a1", inspect := ⟨"a1", false, [], 0⟩ },
          { fullName := "a2", inspect := ⟨"a2", false, [], 1⟩ }]
        busConnexions := ∅ }]
  modelBuses := taggedBus
  prime := 7

theorem ExecutedProgram.exact_analyse_iff_taggedProgram :
    ∃ dag, taggedProgram.exportDag = some dag ∧
      ((∃ warnings, analyse dag.nodes = some warnings ∧ Exact dag warnings) ↔ Distinguishable dag) := by
  have hsome : taggedProgram.exportDag.isSome := by decide +kernel
  obtain ⟨dag, h⟩ := Option.isSome_iff_exists.mp hsome
  exact ⟨dag, h, taggedProgram.exact_analyse_iff h⟩

/-- The second node is skipped, and its unconstrained signal is not reported. -/
theorem not_exact_analyse : ¬ ∀ (program : ExecutedProgram) (dag : DAG), program.exportDag = some dag →
    ∃ warnings, analyse dag.nodes = some warnings ∧ Exact dag warnings := by
  intro hall
  obtain ⟨dag, h⟩ := Option.isSome_iff_exists.mp (show taggedProgram.exportDag.isSome by decide +kernel)
  have hexact := (taggedProgram.wellNamed_exportDag h).exact_iff.mp (hall taggedProgram dag h)
  have hnodes (n : ℕ) : ∀ facts, taggedProgram.exportDag.bind (fun dag => (dag.nodes[n]?).map fun node =>
      (node.templateName, node.isCustomGate, node.correspondence.lookup "in.x", decide (1 ∈ node.locals),
        node.constraints.map (fun c => c.c.lookup 1), node.underscoredSignals)) = some facts →
      ∃ node, dag.nodes[n]? = some node ∧ (node.templateName, node.isCustomGate, node.correspondence.lookup "in.x",
        decide (1 ∈ node.locals), node.constraints.map (fun c => c.c.lookup 1), node.underscoredSignals) = facts := by
    intro facts hfacts
    rw [h, Option.bind_some] at hfacts
    exact Option.map_eq_some_iff.mp hfacts
  obtain ⟨constrained, hget, hfacts⟩ := hnodes 0 ("A()", false, some 1, true, [some 1], []) rfl
  obtain ⟨unconstrained, hget', hfacts'⟩ := hnodes 1 ("A()", false, some 1, true, [], []) rfl
  simp only [Prod.mk.injEq, decide_eq_true_eq] at hfacts hfacts'
  obtain ⟨hname, hcustom, hlookup, -, hconstraints, -⟩ := hfacts
  obtain ⟨hname', hcustom', hlookup', hlocal', hnone, hunderscored⟩ := hfacts'
  -- the input of the second node is in no constraint
  have hmissed : Dag.ConstraintCorrectnessAnalysis.UnconstrainedName dag 1 unconstrained "in.x" := by
    refine ⟨1, hlookup', Or.inl ⟨unconstrained, hget', hlocal'⟩, fun c hc => ?_, ?_⟩
    · rw [List.map_eq_nil_iff.mp hnone] at hc
      cases hc
    · rw [hunderscored]
      exact List.not_mem_nil
  obtain ⟨id, hid, -, hunconstrained, -⟩ := hexact.alike 1 unconstrained 0 constrained ⟨hget', hcustom'⟩
    ⟨hget, hcustom⟩ (hname'.trans hname.symm) "in.x" hmissed
  obtain rfl := Option.some.inj (hlookup.symm.trans hid)
  have hmem : some 1 ∈ constrained.constraints.map fun c => c.c.lookup 1 := by
    rw [hconstraints]
    exact List.mem_cons_self
  obtain ⟨c, hc, hcoeff⟩ := List.mem_map.mp hmem
  exact hunconstrained c hc ⟨1, one_ne_zero, Or.inr (Or.inr hcoeff)⟩

end Circom.ConstraintGeneration
