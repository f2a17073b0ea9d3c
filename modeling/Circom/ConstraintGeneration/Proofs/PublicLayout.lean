import Circom.ConstraintGeneration.Proofs.Insertion
import Circom.ConstraintList.Proofs.Equivalence

/-!
# The public wires of the exported witness

The main node counts its outputs and inputs while it is built and forbids that outputs and public inputs are
removed. So they keep their positions at the start of the witness, and the private inputs that are left
follow in order.
-/

namespace Circom.ConstraintGeneration

open Circom.ConstraintList (Simplifier keptBelow)
open Circom.Dag (DAG Named Node)
open Circom.Lib (HashMap HashOrder foldlM_flatMap foldlM_preserves foldlM_some)

variable {dag dag' : DAG} {t' : ExecutedTemplate} {main : Node}

/-! ## What the main node counts -/

/-- The outputs, public inputs and inputs of a node, its signals that must not be removed and all its own
signals. -/
@[ext]
structure PublicCounts where
  outputs : ℕ
  publicInputs : ℕ
  inputs : ℕ
  forbidden : Finset ℕ
  locals : Finset ℕ

def PublicCounts.add (c d : PublicCounts) : PublicCounts :=
  ⟨c.outputs + d.outputs, c.publicInputs + d.publicInputs, c.inputs + d.inputs, c.forbidden ∪ d.forbidden,
    c.locals ∪ d.locals⟩

theorem PublicCounts.add_assoc (c d e : PublicCounts) : (c.add d).add e = c.add (d.add e) := by
  ext1
  · exact Nat.add_assoc ..
  · exact Nat.add_assoc ..
  · exact Nat.add_assoc ..
  · exact Finset.union_assoc ..
  · exact Finset.union_assoc ..

def publicCounts (node : Node) : PublicCounts :=
  ⟨node.outputsLength, node.publicInputsLength, node.inputsLength, node.forbiddenIfMain, node.locals⟩

/-- The counts of the main node. -/
def mainCounts (dag : DAG) : Option PublicCounts := dag.getMain.map publicCounts

theorem publicCounts_addSubcomponent (node toNode : Node) (edge : Dag.Edge) (isParallel : Bool) :
    publicCounts (node.addSubcomponent toNode edge isParallel) = publicCounts node := by
  obtain ⟨_, _, hframe⟩ := Dag.addSubcomponent_frame edge toNode node isParallel
  rw [hframe]
  rfl

/-! ## What the calls leave of the main node -/

section MainImage

variable {β : Type} {image : Node → β}

theorem mainImage_modifyMain (dag : DAG) {f : Node → Node} (hf : ∀ node, image (f node) = image node) :
    (dag.modifyMain f).getMain.map image = dag.getMain.map image := by
  rw [getMain_modifyMain, Option.map_map]
  congr 1
  exact funext hf

theorem mainImage_addEdge
    (hsub : ∀ node toNode edge isParallel, image (node.addSubcomponent toNode edge isParallel) = image node)
    {target : ℕ} {label : String} {isParallel : Bool} {edge : Option Dag.Edge}
    (hadd : dag.addEdge target label isParallel = some (dag', edge)) :
    dag'.getMain.map image = dag.getMain.map image := by
  obtain ⟨source, hsource, ⟨-, rfl⟩ | ⟨node, toNode, -, hnode, -, hnodes, -⟩⟩ := DAG.addEdge_cases hadd
  · rfl
  · have hlen := DAG.mainId_eq_some hsource
    have hlast : dag.nodes.length - 1 = source := by omega
    have hmain : dag.getMain = some node := by
      rw [DAG.getMain, List.getLast?_eq_getElem?, hlast, hnode]
    have hmain' : dag'.getMain =
        some (node.addSubcomponent toNode (node.newEdge toNode target label) isParallel) := by
      rw [DAG.getMain, List.getLast?_eq_getElem?, hnodes, List.length_set, hlast,
        List.getElem?_set_self (by omega)]
    rw [hmain, hmain', Option.map_some, Option.map_some, hsub]

theorem mainImage_foldlM {α : Type} {f : DAG → α → Option DAG} {l : List α}
    (hf : ∀ dag dag', ∀ a ∈ l, f dag a = some dag' → dag'.getMain.map image = dag.getMain.map image)
    (hl : l.foldlM f dag = some dag') : dag'.getMain.map image = dag.getMain.map image := by
  refine foldlM_preserves
    (fun (rest : List α) d => d.getMain.map image = dag.getMain.map image ∧ ∀ a ∈ rest, a ∈ l)
    ?_ ⟨rfl, fun _ h => h⟩ hl |>.1
  intro a rest d d' ⟨hd, hrest⟩ hstep
  exact ⟨(hf d d' a (hrest a List.mem_cons_self) hstep).trans hd,
    fun b hb => hrest b (List.mem_cons_of_mem a hb)⟩

namespace ExecutedTemplate

variable {t : ExecutedTemplate} {model : ModelBuses} {dag dag' : DAG}

theorem mainImage_buildOrderedSignals (hordered : ∀ node name, image (node.addOrderedSignal name) = image node)
    (hbuild : t.buildOrderedSignals model.buses dag = some dag') :
    dag'.getMain.map image = dag.getMain.map image := by
  refine mainImage_foldlM ?_ hbuild
  intro dag dag' w _ hw
  rw [ModelBuses.generateWire_eq (ModelBuses.connects_of_generateWire hw)] at hw
  refine mainImage_foldlM ?_ hw
  intro dag dag' symbol _ hsymbol
  obtain rfl := Option.some.inj hsymbol
  exact mainImage_modifyMain dag fun node => hordered node symbol

theorem mainImage_buildConstraints (hconstraint : ∀ node c, image (node.addConstraint c) = image node)
    (hunderscored : ∀ node signal, image (node.addUnderscoredSignal signal) = image node)
    (hbuild : t.buildConstraints dag = some dag') : dag'.getMain.map image = dag.getMain.map image := by
  obtain ⟨dag1, hdag1, hdag2⟩ := Option.bind_eq_some_iff.mp hbuild
  have h1 : dag1.getMain.map image = dag.getMain.map image := by
    refine mainImage_foldlM ?_ hdag1
    intro dag dag' c _ hc
    obtain ⟨main, -, hc⟩ := Option.bind_eq_some_iff.mp hc
    obtain ⟨cc, -, hc⟩ := Option.bind_eq_some_iff.mp hc
    obtain rfl := Option.some.inj hc
    exact mainImage_modifyMain dag fun node => hconstraint node cc
  refine (mainImage_foldlM ?_ hdag2).trans h1
  intro dag dag' s _ hs
  obtain ⟨main, -, hs⟩ := Option.bind_eq_some_iff.mp hs
  obtain ⟨newS, -, hs⟩ := Option.bind_eq_some_iff.mp hs
  obtain rfl := Option.some.inj hs
  exact mainImage_modifyMain dag fun node => hunderscored node newS

theorem mainImage_buildConnexions
    (hsub : ∀ node toNode edge isParallel, image (node.addSubcomponent toNode edge isParallel) = image node)
    (hset : ∀ node numberScmp, image (node.setNumberOfSubcomponentsIndexes numberScmp) = image node)
    (hbuild : t.buildConnexions dag = some (t', dag')) : dag'.getMain.map image = dag.getMain.map image := by
  obtain ⟨⟨dag1, connexions⟩, hloop, hbuild⟩ := Option.bind_eq_some_iff.mp hbuild
  obtain ⟨main, -, hbuild⟩ := Option.bind_eq_some_iff.mp hbuild
  obtain ⟨rfl, rfl⟩ := Prod.mk.inj (Option.some.inj hbuild)
  have hinv := foldlM_preserves
    (fun (_ : List Connexion) (acc : DAG × List Connexion) => acc.1.getMain.map image = dag.getMain.map image)
    (by
      intro cnn rest acc acc' hacc hround
      obtain ⟨⟨dag2, cnn'⟩, hcnn, hround⟩ := Option.bind_eq_some_iff.mp hround
      obtain rfl := Option.some.inj hround
      obtain ⟨entry, -, hcnn⟩ := Option.bind_eq_some_iff.mp hcnn
      obtain ⟨⟨dag3, edge⟩, hadd, hcnn⟩ := Option.bind_eq_some_iff.mp hcnn
      obtain ⟨entry', -, hcnn⟩ := Option.bind_eq_some_iff.mp hcnn
      obtain ⟨rfl, -⟩ := Prod.mk.inj (Option.some.inj hcnn)
      exact (mainImage_addEdge hsub hadd).trans hacc) rfl hloop
  exact (mainImage_modifyMain dag1 fun node => hset node _).trans hinv

end ExecutedTemplate

end MainImage

/-- What a subcomponent leaves of its father. -/
theorem addSubcomponent_image {β : Type} {image : Node → β}
    (himage : ∀ (node : Node) (n m : ℕ) entry parallel correspondence reachables, image
      { node with
        numberOfSignals := n
        numberOfComponents := m
        entry := entry
        hasParallelSubCmp := parallel
        signalCorrespondence := correspondence
        reachables := reachables } = image node)
    (node toNode : Node) (edge : Dag.Edge) (isParallel : Bool) :
    image (node.addSubcomponent toNode edge isParallel) = image node := by
  obtain ⟨_, _, hframe⟩ := Dag.addSubcomponent_frame edge toNode node isParallel
  rw [hframe, himage]

/-! ## The symbols of the wires -/

/-- What `add_symbol` does with the main node. -/
def SignalConfig.addToNode (config : SignalConfig) (node : Node) (name : String) : Node :=
  if config.signalType = 0 then node.addInput name config.isPublic
  else if config.signalType = 1 then node.addOutput name
  else if config.signalType = 2 then node.addIntermediate name
  else node

theorem SignalConfig.foldl_addToNode_image {β : Type} {image : Node → β}
    (hinput : ∀ node name isPublic, image (node.addInput name isPublic) = image node)
    (houtput : ∀ node name, image (node.addOutput name) = image node)
    (hintermediate : ∀ node name, image (node.addIntermediate name) = image node) (config : SignalConfig)
    (names : List String) (node : Node) : image (names.foldl config.addToNode node) = image node := by
  induction names generalizing node with
  | nil => rfl
  | cons name names ih =>
    rw [List.foldl_cons, ih]
    unfold SignalConfig.addToNode
    split_ifs
    · exact hinput node name config.isPublic
    · exact houtput node name
    · exact hintermediate node name
    · rfl

theorem getMain_addSymbol (config : SignalConfig) (dag : DAG) (name : String) :
    (config.addSymbol dag name).getMain = dag.getMain.map fun node => config.addToNode node name := by
  unfold SignalConfig.addSymbol SignalConfig.addToNode
  split_ifs
  · rw [DAG.addInput, getMain_modifyMain]
  · rw [DAG.addOutput, getMain_modifyMain]
  · rw [DAG.addIntermediate, getMain_modifyMain]
  · rw [Option.map_id']

theorem getMain_foldl_addSymbol (config : SignalConfig) (names : List String) (hmain : dag.getMain = some main) :
    (names.foldl config.addSymbol dag).getMain = some (names.foldl config.addToNode main) := by
  induction names generalizing dag main with
  | nil => exact hmain
  | cons name names ih =>
    refine ih ?_
    rw [getMain_addSymbol, hmain, Option.map_some]

/-- The `k` numbers that follow `n`. -/
def next (n k : ℕ) : Finset ℕ := Finset.Icc (n + 1) (n + k)

theorem next_succ (n k : ℕ) : next n (k + 1) = next n 1 ∪ next (n + 1) k := by
  ext i
  simp only [next, Finset.mem_union, Finset.mem_Icc]
  omega

/-- What `k` symbols add to the counts of a node with `n` signals. -/
def SignalConfig.counts (config : SignalConfig) (n k : ℕ) : PublicCounts :=
  if config.signalType = 0 then
    if config.isPublic then ⟨0, k, k, next n k, next n k⟩ else ⟨0, 0, k, ∅, next n k⟩
  else if config.signalType = 1 then ⟨k, 0, 0, next n k, next n k⟩
  else if config.signalType = 2 then ⟨0, 0, 0, ∅, next n k⟩
  else ⟨0, 0, 0, ∅, ∅⟩

theorem SignalConfig.counts_zero (config : SignalConfig) (n : ℕ) :
    config.counts n 0 = ⟨0, 0, 0, ∅, ∅⟩ := by
  unfold SignalConfig.counts
  split_ifs <;> simp [next]

theorem SignalConfig.counts_succ (config : SignalConfig) (n k : ℕ) :
    config.counts n (k + 1) = (config.counts n 1).add (config.counts (n + 1) k) := by
  unfold SignalConfig.counts
  split_ifs
  all_goals simp [PublicCounts.add, next_succ n k, Nat.add_comm]

theorem insert_eq_union_next (n : ℕ) (forbidden : Finset ℕ) :
    insert (n + 1) forbidden = forbidden ∪ next n 1 := by
  rw [next, Finset.Icc_self, Finset.union_comm, ← Finset.insert_eq]

theorem SignalConfig.publicCounts_addToNode (config : SignalConfig) (node : Node) (name : String) :
    publicCounts (config.addToNode node name) =
      (publicCounts node).add (config.counts node.numberOfSignals 1) := by
  have hunion : ∀ forbidden : Finset ℕ, forbidden = forbidden ∪ ∅ := fun f => (Finset.union_empty f).symm
  unfold SignalConfig.addToNode SignalConfig.counts
  split_ifs with h0 hpublic
  · rw [hpublic]
    exact PublicCounts.ext rfl rfl rfl (insert_eq_union_next _ _) (insert_eq_union_next _ _)
  · rw [Bool.not_eq_true] at hpublic
    rw [hpublic]
    exact PublicCounts.ext rfl rfl rfl (hunion _) (insert_eq_union_next _ _)
  · exact PublicCounts.ext rfl rfl rfl (insert_eq_union_next _ _) (insert_eq_union_next _ _)
  · exact PublicCounts.ext rfl rfl rfl (hunion _) (insert_eq_union_next _ _)
  · exact PublicCounts.ext rfl rfl rfl (hunion _) (hunion _)

theorem SignalConfig.numberOfSignals_addToNode {config : SignalConfig} (hconfig : config.signalType < 3)
    (node : Node) (name : String) :
    (config.addToNode node name).numberOfSignals = node.numberOfSignals + 1 := by
  unfold SignalConfig.addToNode
  split_ifs
  · rfl
  · rfl
  · rfl
  · omega

theorem SignalConfig.foldl_addToNode (config : SignalConfig) (hconfig : config.signalType < 3)
    (names : List String) (node : Node) :
    (names.foldl config.addToNode node).numberOfSignals = node.numberOfSignals + names.length ∧
      publicCounts (names.foldl config.addToNode node) =
        (publicCounts node).add (config.counts node.numberOfSignals names.length) := by
  induction names generalizing node with
  | nil =>
    refine ⟨rfl, ?_⟩
    rw [List.length_nil, config.counts_zero]
    simp [PublicCounts.add]
  | cons name names ih =>
    obtain ⟨hsignals, hcounts⟩ := ih (config.addToNode node name)
    rw [List.foldl_cons, List.length_cons, config.counts_succ, ← PublicCounts.add_assoc,
      ← config.publicCounts_addToNode]
    rw [numberOfSignals_addToNode hconfig] at hsignals hcounts
    exact ⟨by rw [hsignals]; omega, hcounts⟩

namespace ExecutedTemplate

variable {t : ExecutedTemplate} {model : ModelBuses}

theorem buildWiresOf_main (config : SignalConfig) {wires : List WireData}
    (hconnects : ∀ w ∈ wires, model.Connects t.busConnexions w) (hmain : dag.getMain = some main) :
    ∃ dag', t.buildWiresOf model.buses config wires dag = some dag' ∧
      dag'.getMain = some ((wires.flatMap (t.scalars model)).foldl config.addToNode main) := by
  refine ⟨_, ?_, getMain_foldl_addSymbol config _ hmain⟩
  rw [buildWiresOf, ← foldlM_some, foldlM_flatMap]
  refine Lib.foldlM_congr_mem ?_ dag
  intro w hw dag
  exact ModelBuses.generateWire_eq (hconnects w hw) _ dag

/-- The scalars of the outputs, the public inputs and the other inputs. -/
def outputScalars (t : ExecutedTemplate) (model : ModelBuses) : List String :=
  t.outputs.flatMap (t.scalars model)

def publicInputScalars (t : ExecutedTemplate) (model : ModelBuses) : List String :=
  (t.inputs.filter t.isPublicInput).flatMap (t.scalars model)

def privateInputScalars (t : ExecutedTemplate) (model : ModelBuses) : List String :=
  (t.inputs.filter (!t.isPublicInput ·)).flatMap (t.scalars model)

/-- The node with all its own signals. -/
def wiredNode (t : ExecutedTemplate) (model : ModelBuses) (node : Node) : Node :=
  (t.intermediates.flatMap (t.scalars model)).foldl (SignalConfig.addToNode ⟨false, 2⟩)
    ((t.privateInputScalars model).foldl (SignalConfig.addToNode ⟨false, 0⟩)
      ((t.publicInputScalars model).foldl (SignalConfig.addToNode ⟨true, 0⟩)
        ((t.outputScalars model).foldl (SignalConfig.addToNode ⟨false, 1⟩) node)))

theorem wiredNode_image {β : Type} {image : Node → β}
    (hinput : ∀ node name isPublic, image (node.addInput name isPublic) = image node)
    (houtput : ∀ node name, image (node.addOutput name) = image node)
    (hintermediate : ∀ node name, image (node.addIntermediate name) = image node) (node : Node) :
    image (t.wiredNode model node) = image node := by
  have hwires := fun config names => SignalConfig.foldl_addToNode_image hinput houtput hintermediate config names
  rw [wiredNode, hwires, hwires, hwires, hwires]

theorem buildWires_main (hconnects : ∀ w ∈ t.wires, model.Connects t.busConnexions w)
    (hmain : dag.getMain = some main) :
    ∃ dag', t.buildWires model.buses dag = some dag' ∧ dag'.getMain = some (t.wiredNode model main) := by
  simp only [wires, List.mem_append, or_imp, forall_and] at hconnects
  obtain ⟨⟨⟨h1, h2⟩, h3⟩, h4⟩ := hconnects
  obtain ⟨dag1, hdag1, hmain1⟩ := buildWiresOf_main ⟨false, 1⟩ h1 hmain
  obtain ⟨dag2, hdag2, hmain2⟩ := buildWiresOf_main ⟨true, 0⟩ h2 hmain1
  obtain ⟨dag3, hdag3, hmain3⟩ := buildWiresOf_main ⟨false, 0⟩ h3 hmain2
  obtain ⟨dag4, hdag4, hmain4⟩ := buildWiresOf_main ⟨false, 2⟩ h4 hmain3
  refine ⟨dag4, ?_, hmain4⟩
  rw [buildWires, hdag1]
  simp only [Option.bind_eq_bind, Option.bind_some, hdag2, hdag3, hdag4]

/-- The counts of the node of a complete template. -/
def finalCounts (t : ExecutedTemplate) (model : ModelBuses) : PublicCounts where
  outputs := (t.outputScalars model).length
  publicInputs := (t.publicInputScalars model).length
  inputs := (t.publicInputScalars model).length + (t.privateInputScalars model).length
  forbidden := Finset.range ((t.outputScalars model).length + (t.publicInputScalars model).length + 1)
  locals := next 0 (t.wires.flatMap (t.scalars model)).length

theorem buildWires_counts (hconnects : ∀ w ∈ t.wires, model.Connects t.busConnexions w)
    (hmain : dag.getMain = some main) (hsignals : main.numberOfSignals = 0)
    (hcounts : publicCounts main = ⟨0, 0, 0, {0}, ∅⟩) :
    ∃ dag', t.buildWires model.buses dag = some dag' ∧ mainCounts dag' = some (t.finalCounts model) := by
  obtain ⟨dag', hdag', hmain'⟩ := buildWires_main hconnects hmain
  obtain ⟨n1, c1⟩ := SignalConfig.foldl_addToNode ⟨false, 1⟩ (by decide) (t.outputScalars model) main
  obtain ⟨n2, c2⟩ := SignalConfig.foldl_addToNode ⟨true, 0⟩ (by decide) (t.publicInputScalars model) _
  obtain ⟨n3, c3⟩ := SignalConfig.foldl_addToNode ⟨false, 0⟩ (by decide) (t.privateInputScalars model) _
  obtain ⟨-, c4⟩ := SignalConfig.foldl_addToNode ⟨false, 2⟩ (by decide)
    (t.intermediates.flatMap (t.scalars model)) _
  refine ⟨dag', hdag', ?_⟩
  rw [mainCounts, hmain', Option.map_some, wiredNode, c4, c3, c2, c1, n3, n2, n1, hsignals, hcounts]
  refine congrArg some (PublicCounts.ext ?_ ?_ ?_ ?_ ?_)
  · simp [SignalConfig.counts, PublicCounts.add, finalCounts]
  · simp [SignalConfig.counts, PublicCounts.add, finalCounts]
  · simp [SignalConfig.counts, PublicCounts.add, finalCounts]
  · ext k
    simp only [SignalConfig.counts, PublicCounts.add, finalCounts, next, if_true, Finset.mem_union,
      Finset.mem_singleton, Finset.mem_Icc, Finset.mem_range]
    norm_num
    omega
  · ext k
    simp only [SignalConfig.counts, PublicCounts.add, finalCounts, outputScalars, publicInputScalars,
      privateInputScalars, wires, List.flatMap_append, List.length_append, next, if_true, Finset.mem_union,
      Finset.mem_Icc, Finset.notMem_empty, false_or]
    norm_num
    omega

/-! ## The rest of `insert_in_dag` -/

/-- The node of a complete template counts the scalars of its outputs and inputs. -/
theorem mainCounts_insertInDag
    (h : t.insertInDag dag model = some (t', dag')) : mainCounts dag' = some (t.finalCounts model) := by
  obtain ⟨built, hbuilt, h⟩ := Option.bind_eq_some_iff.mp h
  obtain ⟨dag2, hordered, h⟩ := Option.bind_eq_some_iff.mp h
  obtain ⟨⟨t1, dag3⟩, hconnexions, h⟩ := Option.bind_eq_some_iff.mp h
  obtain ⟨dag4, hconstraints, h⟩ := Option.bind_eq_some_iff.mp h
  obtain ⟨rfl, rfl⟩ := Prod.mk.inj (Option.some.inj h)
  have hnode : (t.withNode dag).getMain = some (Node.new dag.nodes.length t.reportName
      (t.parameterInstances.flatMap fun e => asBigInt e.2) t.isParallel t.isCustomGate) := by
    rw [withNode, DAG.getMain, DAG.addNode]
    exact List.getLast?_concat
  obtain ⟨built', hbuilt', hcounts⟩ := buildWires_counts (connects_of_buildWires hbuilt) hnode rfl rfl
  obtain rfl : built' = built := Option.some.inj (hbuilt'.symm.trans hbuilt)
  unfold mainCounts at hcounts ⊢
  rw [mainImage_buildConstraints (fun _ _ => rfl) (fun _ _ => rfl) hconstraints,
    mainImage_buildConnexions publicCounts_addSubcomponent (fun _ _ => rfl) hconnexions,
    mainImage_buildOrderedSignals (fun _ _ => rfl) hordered]
  exact hcounts

theorem scalars_wires (t : ExecutedTemplate) (model : ModelBuses) :
    t.wires.flatMap (t.scalars model) = t.outputScalars model ++ (t.publicInputScalars model ++
      (t.privateInputScalars model ++ t.intermediates.flatMap (t.scalars model))) := by
  simp only [wires, outputScalars, publicInputScalars, privateInputScalars, List.flatMap_append,
    List.append_assoc]

theorem exists_main_insertInDag (h : t.insertInDag dag model = some (t', dag')) :
    ∃ main, dag'.getMain = some main ∧ publicCounts main = t.finalCounts model :=
  Option.map_eq_some_iff.mp (mainCounts_insertInDag h)

theorem countsPublic_of_counts (hnum : dag.AllNumbered) (hmain : dag.getMain = some main)
    (hcounts : publicCounts main = t.finalCounts model) : Dag.CountsPublic main := by
  have houtputs : main.outputsLength = (t.outputScalars model).length :=
    congrArg PublicCounts.outputs hcounts
  have hpublics : main.publicInputsLength = (t.publicInputScalars model).length :=
    congrArg PublicCounts.publicInputs hcounts
  have hinputs : main.inputsLength = (t.publicInputScalars model).length +
      (t.privateInputScalars model).length := congrArg PublicCounts.inputs hcounts
  have hforbidden : main.forbiddenIfMain = Finset.range ((t.outputScalars model).length +
      (t.publicInputScalars model).length + 1) := congrArg PublicCounts.forbidden hcounts
  have hlocals : main.locals = next 0 (t.wires.flatMap (t.scalars model)).length :=
    congrArg PublicCounts.locals hcounts
  refine ⟨by rw [hforbidden, houtputs, hpublics], by omega, ?_⟩
  have hlen := congrArg List.length (t.scalars_wires model)
  simp only [List.length_append] at hlen
  obtain ⟨main', edges, hmain', hnode, -, hedges⟩ := DAG.exists_main (DAG.ne_nil_of_getMain hmain)
  obtain rfl : main' = main := Option.some.inj (hmain'.symm.trans hmain)
  rcases Nat.eq_zero_or_pos (t.wires.flatMap (t.scalars model)).length with h0 | h0
  · omega
  · have hlast : (t.wires.flatMap (t.scalars model)).length ∈ main'.locals := by
      rw [hlocals, next, Finset.mem_Icc]
      omega
    have := (hnum _ main' edges hnode hedges).local_bounds _ hlast
    omega

/-! ## The names of the complete graph -/

theorem named_insertInDag (hapart : t.NamesApart model) (h : t.insertInDag dag model = some (t', dag'))
    (hmain : dag'.getMain = some main) : Named main := by
  intro id hid
  obtain ⟨main', hmain', hcounts⟩ := exists_main_insertInDag h
  obtain rfl : main' = main := Option.some.inj (hmain'.symm.trans hmain)
  have hlocals : main'.locals = next 0 (t.wires.flatMap (t.scalars model)).length :=
    congrArg PublicCounts.locals hcounts
  rw [hlocals, next, Finset.mem_Icc] at hid
  obtain ⟨k, rfl⟩ : ∃ k, id = k + 1 := ⟨id - 1, by omega⟩
  have hk : k < (t.wires.flatMap (t.scalars model)).length := by omega
  obtain ⟨main, hmain, hname⟩ := hasId_insertInDag h hapart (List.getElem?_eq_getElem hk)
  obtain rfl : main = main' := Option.some.inj (hmain.symm.trans hmain')
  exact ⟨_, hname⟩

theorem allNamed_insertInDag (hapart : t.NamesApart model) (hnamed : dag.AllNamed)
    (h : t.insertInDag dag model = some (t', dag')) : dag'.AllNamed :=
  forall_nodes_insertInDag hnamed h fun _ hmain => named_insertInDag hapart h hmain

end ExecutedTemplate

namespace ExecutedProgram

variable {program : ExecutedProgram}

theorem sound_insertAllInDag {prime : ℤ} (hprime : program.prime = prime)
    (hcoeffs : ∀ t ∈ program.model, ∀ c ∈ t.constraints, c.CoeffsInField prime)
    (hapart : ∀ t ∈ program.model, t.NamesApart program.modelBuses)
    (h : program.insertAllInDag = some dag) : ExecutedTemplate.Sound prime dag ∧ dag.AllNamed := by
  have hinv := foldlM_preserves
    (fun rest dag => (ExecutedTemplate.Sound prime dag ∧ dag.AllNamed) ∧ ∀ t ∈ rest, t ∈ program.model)
    (by
      rintro t rest dag dag' ⟨⟨hsound, hnamed⟩, hrest⟩ hstep
      obtain ⟨⟨t', dag1⟩, hinsert, rfl⟩ := Option.map_eq_some_iff.mp hstep
      have ht := hrest t List.mem_cons_self
      refine ⟨⟨?_, ?_⟩, fun t' ht' => hrest t' (List.mem_cons_of_mem t ht')⟩
      · exact ExecutedTemplate.sound_insertInDag (hcoeffs t ht) hsound hinsert
      · exact ExecutedTemplate.allNamed_insertInDag (hapart t ht) hnamed hinsert)
    (l := program.model) (s := DAG.new program.prime) ?_ h
  · exact hinv.1
  · refine ⟨⟨⟨hprime, ?_, ?_⟩, ?_⟩, fun t ht => ht⟩
    · intro n node edges hnode
      cases hnode
    · intro n node hnode
      cases hnode
    · intro n node hnode
      cases hnode

/-- The last template is inserted into the graph of the others. -/
theorem insertInDag_of_getLast {t : ExecutedTemplate} (ht : program.model.getLast? = some t)
    (h : program.insertAllInDag = some dag) : ∃ dag0 t', t.insertInDag dag0 program.modelBuses = some (t', dag) := by
  obtain ⟨before, hmodel⟩ := List.getLast?_eq_some_iff.mp ht
  rw [insertAllInDag, hmodel, List.foldlM_append] at h
  obtain ⟨dag0, -, h⟩ := Option.bind_eq_some_iff.mp h
  rw [List.foldlM_cons] at h
  obtain ⟨dag1, hdag1, h⟩ := Option.bind_eq_some_iff.mp h
  obtain rfl := Option.some.inj h
  obtain ⟨⟨t', dag1⟩, hinsert, rfl⟩ := Option.map_eq_some_iff.mp hdag1
  exact ⟨dag0, t', hinsert⟩

end ExecutedProgram

/-! ## The exported witness -/

theorem range_filter_eq {P : ℕ → Bool} {n : ℕ} (h : ∀ k < n, P k) : (List.range n).filter P = List.range n :=
  List.filter_eq_self.mpr fun k hk => h k (List.mem_range.mp hk)

/-- The signals that stay, split at the public wires and at the inputs. -/
theorem keptBelow_split (P : ℕ → Bool) {m k n : ℕ} (hP : ∀ i < m, P i) (hle : m + k ≤ n) :
    keptBelow P n = List.range m ++ ((List.range' m k).filter P ++
      (List.range' (m + k) (n - (m + k))).filter P) := by
  have hsplit : List.range n = List.range m ++ (List.range' m k ++ List.range' (m + k) (n - (m + k))) := by
    rw [List.range_eq_range', List.range_eq_range', List.range'_append_1]
    have h := @List.range'_append_1 0 m (n - m)
    rw [Nat.zero_add] at h
    rw [show k + (n - (m + k)) = n - m by omega, h, show m + (n - m) = n by omega]
  rw [keptBelow, hsplit, List.filter_append, List.filter_append, range_filter_eq hP]

/-- The wires of the witness are the signal one, the outputs and the public inputs of the main template, its
private inputs that are left, and others, and the witness lists the signals by their positions. -/
structure PublicLayout (t : ExecutedTemplate) (model : ModelBuses) (dag : DAG)
    (list : ConstraintList.ConstraintList) (witness : List ℕ) : Prop where
  one : witness[0]? = some 0
  outputs_eq : list.noPublicOutputs = (t.outputScalars model).length
  publicInputs_eq : list.noPublicInputs = (t.publicInputScalars model).length
  /-- The wire of the `k`-th output is the `k + 1`-th. -/
  outputs : ∀ (k : ℕ) name, (t.outputScalars model)[k]? = some name →
    ∃ id, witness[k + 1]? = some id ∧ HasId name id dag
  /-- The public inputs come behind the outputs, in the order of the template. -/
  publicInputs : ∀ (k : ℕ) name, (t.publicInputScalars model)[k]? = some name →
    ∃ id, witness[list.noPublicOutputs + k + 1]? = some id ∧ HasId name id dag
  /-- The private inputs that are still in the map come next. -/
  privateInputs : ∃ ids, List.Forall₂ (HasId · · dag) (t.privateInputScalars model) ids ∧
    (witness.drop (list.noPublicOutputs + list.noPublicInputs + 1)).take list.noPrivateInputsWitness =
      ids.filter fun id => id ∈ list.signalMap
  /-- The map of the signals and the witness are inverse to each other. -/
  inverse : ∀ signal pos, list.signalMap.lookup signal = some pos ↔ witness[pos]? = some signal
  increasing : witness.Pairwise (· < ·)

theorem pairwise_keptBelow (P : ℕ → Bool) (n : ℕ) : (keptBelow P n).Pairwise (· < ·) :=
  List.pairwise_lt_range.filter _

/-- The witness of a simplification, by the numbers of the signals. -/
theorem getWitnessAsVec_layout {p : ℕ} [Fact p.Prime] {smp : Simplifier} (o : HashOrder)
    (hwf : smp.WellFormed p) :
    ∃ list witness, smp.simplifyConstraints o = some list ∧ list.getWitnessAsVec o = some witness ∧
      (list.noPublicOutputs = smp.noPublicOutputs ∧ list.noPublicInputs = smp.noPublicInputs) ∧
      (∀ k ≤ smp.noPublicOutputs + smp.noPublicInputs, witness[k]? = some k) ∧
      (witness.drop (smp.noPublicOutputs + smp.noPublicInputs + 1)).take list.noPrivateInputsWitness =
        (List.range' (smp.noPublicOutputs + smp.noPublicInputs + 1) smp.noPrivateInputs).filter
          (fun id => id ∈ list.signalMap) ∧
      ConstraintList.Numbers list.signalMap witness ∧ witness.Pairwise (· < ·) ∧
      list.dagEncoding = ConstraintList.emptyEncodingConstraints smp.dagEncoding ∧
      ∀ k ∈ smp.forbidden, k < smp.maxSignal → k ∈ list.signalMap := by
  obtain ⟨out, state, hrun, -, hfinished, -⟩ := ConstraintList.simplification_spec o hwf
  obtain ⟨P, hnumbers, -, -, hforbidden, -⟩ := hfinished.wires
  have hinputs := hwf.inputs
  let list : ConstraintList.ConstraintList :=
    { field := smp.field
      dagEncoding := ConstraintList.emptyEncodingConstraints smp.dagEncoding
      noPublicInputs := smp.noPublicInputs
      noPublicOutputs := smp.noPublicOutputs
      noPrivateInputs := smp.noPrivateInputs
      noPrivateInputsWitness := out.noPrivateInputsWitness
      constraints := out.constraintStorage
      noLabels := smp.maxSignal
      signalMap := out.signalMap }
  have hsimplify : smp.simplifyConstraints o = some list := by
    rw [Simplifier.simplifyConstraints, hrun]
    rfl
  have hpublic : ∀ k < smp.noPublicOutputs + smp.noPublicInputs + 1, P k := by
    intro k hk
    rcases Nat.eq_zero_or_pos k with rfl | h0
    · exact hforbidden 0 hwf.zero_forbidden
    · exact hforbidden k (hwf.publics k h0 (Nat.le_of_lt_succ hk))
  have hsplit := keptBelow_split P hpublic
    (show smp.noPublicOutputs + smp.noPublicInputs + 1 + smp.noPrivateInputs ≤ smp.maxSignal by omega)
  -- an input stays exactly if it has a position
  have hkept : (List.range' (smp.noPublicOutputs + smp.noPublicInputs + 1) smp.noPrivateInputs).filter P =
      (List.range' (smp.noPublicOutputs + smp.noPublicInputs + 1) smp.noPrivateInputs).filter
        fun id => id ∈ out.signalMap := by
    refine List.filter_congr ?_
    intro k hk
    rw [List.mem_range'_1] at hk
    have hlt : k < smp.maxSignal := by omega
    rw [Bool.eq_iff_iff, decide_eq_true_eq, hnumbers.mem_iff, keptBelow, List.mem_filter, List.mem_range]
    exact ⟨fun hP => ⟨hlt, hP⟩, And.right⟩
  have hcount : out.noPrivateInputsWitness =
      ((List.range' (smp.noPublicOutputs + smp.noPublicInputs + 1) smp.noPrivateInputs).filter P).length := by
    rw [hfinished.count, hkept, ← List.toFinset_card_of_nodup (List.Nodup.filter _ List.nodup_range')]
    congr 1
    ext k
    simp only [Finset.mem_filter, Finset.mem_Icc, List.mem_toFinset, List.mem_filter, List.mem_range'_1,
      decide_eq_true_eq]
    refine and_congr_left fun _ => ?_
    omega
  refine ⟨list, keptBelow P smp.maxSignal, hsimplify, ConstraintList.getWitnessAsVec_eq o hnumbers,
    ⟨rfl, rfl⟩, ?_, ?_, hnumbers, pairwise_keptBelow P smp.maxSignal, rfl, ?_⟩
  · intro k hk
    rw [hsplit, List.getElem?_append_left (by rw [List.length_range]; omega),
      List.getElem?_range (Nat.lt_succ_of_le hk)]
  · rw [hsplit, List.drop_left' (List.length_range ..)]
    show List.take out.noPrivateInputsWitness _ = _
    rw [hcount, List.take_left, hkept]
  · intro k hk hlt
    rw [hnumbers.mem_iff, keptBelow, List.mem_filter, List.mem_range]
    exact ⟨hlt, hforbidden k hk⟩

/-- The wires of the main template stand in front when the names of no template clash. -/
theorem ExecutedProgram.publicLayout {p : ℕ} [Fact p.Prime] {program : ExecutedProgram}
    (hprime : program.prime = p)
    (hcoeffs : ∀ t ∈ program.model, ∀ c ∈ t.constraints, c.CoeffsInField p)
    (hapart : ∀ t ∈ program.model, t.NamesApart program.modelBuses) {t : ExecutedTemplate}
    (ht : program.model.getLast? = some t) {dag : DAG} (hdag : program.exportDag = some dag)
    {flags : Dag.SimplificationFlags} {smp : Simplifier} (hmap : Dag.map dag flags = some smp)
    (o : HashOrder) :
    ∃ list witness, smp.simplifyConstraints o = some list ∧ list.getWitnessAsVec o = some witness ∧
      PublicLayout t program.modelBuses dag list witness := by
  obtain ⟨dag', hdag', rfl⟩ := Option.map_eq_some_iff.mp hdag
  obtain ⟨hsound, hnamed⟩ := program.sound_insertAllInDag hprime hcoeffs hapart hdag'
  obtain ⟨dag0, t', hinsert⟩ := insertInDag_of_getLast ht hdag'
  obtain ⟨main, hmain, hcounts⟩ := ExecutedTemplate.exists_main_insertInDag hinsert
  have hpublic := ExecutedTemplate.countsPublic_of_counts hsound.numbered hmain hcounts
  have hwf := DAG.wellFormed_of_map hsound.prime_eq hsound.numbered hnamed hsound.within hmain hpublic hmap
  have hclean : dag'.cleanConstraints.getMain = some main.cleanConstraints := by
    rw [DAG.getMain, DAG.cleanConstraints, List.getLast?_map]
    exact congrArg (Option.map Node.cleanConstraints) hmain
  have htakes := DAG.takesCounts_of_map hclean hmap
  have hO : smp.noPublicOutputs = (t.outputScalars program.modelBuses).length :=
    htakes.outputs_eq.trans (congrArg PublicCounts.outputs hcounts)
  have hI : smp.noPublicInputs = (t.publicInputScalars program.modelBuses).length :=
    htakes.publicInputs_eq.trans (congrArg PublicCounts.publicInputs hcounts)
  have hV : smp.noPrivateInputs = (t.privateInputScalars program.modelBuses).length := by
    have hprivate := congrArg (fun c => c.inputs - c.publicInputs) hcounts
    refine htakes.privateInputs_eq.trans (hprivate.trans ?_)
    exact Nat.add_sub_cancel_left _ _
  -- cleaning keeps the names
  have hid : ∀ (k : ℕ) name, (t.wires.flatMap (t.scalars program.modelBuses))[k]? = some name →
      HasId name (k + 1) dag'.cleanConstraints := by
    intro k name hk
    obtain ⟨main', hmain', hname⟩ :=
      ExecutedTemplate.hasId_insertInDag hinsert (hapart t (List.mem_of_getLast? ht)) hk
    obtain rfl : main' = main := Option.some.inj (hmain'.symm.trans hmain)
    exact ⟨_, hclean, hname⟩
  obtain ⟨list, witness, hlist, hwitness, ⟨hlistO, hlistI⟩, hpublicWires, hprivate, hnumbers, hlt, -⟩ :=
    getWitnessAsVec_layout o hwf
  refine ⟨list, witness, hlist, hwitness, ?_⟩
  have hget : ∀ {l : List String} {k : ℕ} {name : String}, l[k]? = some name → k < l.length :=
    fun h => (List.getElem?_eq_some_iff.mp h).1
  constructor
  · exact hpublicWires 0 (Nat.zero_le _)
  · exact hlistO.trans hO
  · exact hlistI.trans hI
  · intro k name hk
    have hlt := hget hk
    refine ⟨k + 1, hpublicWires _ (by omega), hid k name ?_⟩
    rw [t.scalars_wires, List.getElem?_append_left hlt, hk]
  · intro k name hk
    have hlt := hget hk
    refine ⟨smp.noPublicOutputs + k + 1, ?_, hid _ name ?_⟩
    · rw [hlistO]
      exact hpublicWires _ (by omega)
    · rw [t.scalars_wires, hO, List.getElem?_append_right (Nat.le_add_right _ _), Nat.add_sub_cancel_left,
        List.getElem?_append_left hlt, hk]
  · refine ⟨List.range' (smp.noPublicOutputs + smp.noPublicInputs + 1) smp.noPrivateInputs, ?_, ?_⟩
    · rw [List.forall₂_iff_get]
      refine ⟨by rw [List.length_range', hV], ?_⟩
      intro k h1 h2
      rw [List.get_eq_getElem, List.get_eq_getElem, List.getElem_range', Nat.one_mul]
      have hk : (t.wires.flatMap (t.scalars program.modelBuses))[smp.noPublicOutputs +
          smp.noPublicInputs + k]? = some (t.privateInputScalars program.modelBuses)[k] := by
        rw [t.scalars_wires, hO, hI, Nat.add_assoc, List.getElem?_append_right (Nat.le_add_right _ _),
          Nat.add_sub_cancel_left, List.getElem?_append_right (Nat.le_add_right _ _),
          Nat.add_sub_cancel_left, List.getElem?_append_left h1, List.getElem?_eq_getElem h1]
      have := hid _ _ hk
      rwa [Nat.add_right_comm] at this
    · rw [hlistO, hlistI]
      exact hprivate
  · exact hnumbers.lookup_iff
  · exact hlt

/-- The template with buses, as main template. -/
def nestedProgram : ExecutedProgram where
  model := [ExecutedTemplate.nestedTemplate]
  modelBuses := ExecutedTemplate.nestedBuses
  prime := 5

theorem ExecutedProgram.publicLayout_nested :
    ∃ dag smp list witness, nestedProgram.exportDag = some dag ∧
      Dag.map dag ⟨2, false, false⟩ = some smp ∧ smp.simplifyConstraints HashOrder.listOrder = some list ∧
      list.getWitnessAsVec HashOrder.listOrder = some witness ∧
      PublicLayout ExecutedTemplate.nestedTemplate ExecutedTemplate.nestedBuses dag list witness := by
  have hdag : nestedProgram.exportDag.isSome := rfl
  have hmap : (Dag.map (nestedProgram.exportDag.get hdag) ⟨2, false, false⟩).isSome := rfl
  have hnodup : (ExecutedTemplate.nestedTemplate.wires.flatMap
      (ExecutedTemplate.nestedTemplate.scalars ExecutedTemplate.nestedBuses)).Nodup := by
    decide +kernel
  have : Fact (Nat.Prime 5) := ⟨by norm_num⟩
  obtain ⟨list, witness, hlist, hwitness, hlayout⟩ := @ExecutedProgram.publicLayout 5 _ nestedProgram rfl
    (by
      intro t ht c hc
      obtain rfl := List.mem_singleton.mp ht
      cases hc)
    (by
      intro t ht
      obtain rfl := List.mem_singleton.mp ht
      refine ⟨hnodup, ?_⟩
      intro name _ cnn hcnn
      cases hcnn) _ rfl _ (Option.some_get hdag).symm _ _ (Option.some_get hmap).symm HashOrder.listOrder
  exact ⟨_, _, list, witness, (Option.some_get hdag).symm, (Option.some_get hmap).symm, hlist, hwitness,
    hlayout⟩

/-- A bus with two fields of one name, declared in two blocks. -/
def repeatedField : ModelBuses where
  buses := [⟨"B", [⟨"x", [], false⟩, ⟨"x", [], false⟩], ∅⟩]
  connected := by
    intro i bus hbus field hfield hb
    obtain rfl : bus = _ := List.mem_singleton.mp (List.mem_of_getElem? hbus)
    rcases List.mem_pair.mp hfield with rfl | rfl <;> cases hb

/-- A main template whose output is such a bus. -/
def repeatedOutput : ExecutedProgram where
  model :=
    [{ ExecutedTemplate.nestedTemplate with
        inputs := []
        outputs := [⟨"b", [], true⟩]
        intermediates := []
        orderedSignals := [⟨"b", [], true⟩]
        publicInputs := ∅
        underscoredSignals := []
        busConnexions := AList.ofPairs [("b", ⟨"b", ⟨"B", 0⟩⟩)] }]
  modelBuses := repeatedField
  prime := 5

/-- The witness has no wire for the second field of the output. -/
theorem ExecutedProgram.publicLayout_fails_repeated :
    ∃ t dag smp, repeatedOutput.model.getLast? = some t ∧ repeatedOutput.exportDag = some dag ∧
      Dag.map dag ⟨2, false, false⟩ = some smp ∧
      ¬ ∃ list witness, smp.simplifyConstraints HashOrder.listOrder = some list ∧
        list.getWitnessAsVec HashOrder.listOrder = some witness ∧
        PublicLayout t repeatedOutput.modelBuses dag list witness := by
  have hrun : (repeatedOutput.exportDag.bind fun dag => (Dag.map dag ⟨2, false, false⟩).bind fun smp =>
      (smp.simplifyConstraints HashOrder.listOrder).bind fun list =>
        list.getWitnessAsVec HashOrder.listOrder) = some [0, 1] := by decide +kernel
  obtain ⟨dag, hdag⟩ := Option.isSome_iff_exists.mp (show repeatedOutput.exportDag.isSome from rfl)
  rw [hdag, Option.bind_some] at hrun
  obtain ⟨smp, hmap, hrun⟩ := Option.bind_eq_some_iff.mp hrun
  refine ⟨_, dag, smp, rfl, hdag, hmap, ?_⟩
  rintro ⟨list, witness, hlist, hwitness, hlayout⟩
  rw [hlist, Option.bind_some, hwitness] at hrun
  obtain rfl := Option.some.inj hrun
  obtain ⟨id, hid, -⟩ := hlayout.outputs 1 "b.x" (by decide +kernel)
  cases hid

end Circom.ConstraintGeneration
