import Circom.ConstraintGeneration.Proofs.BusSizes

/-!
# The two layouts of the wires agree

The graph numbers the scalars of a template one after the other, and the exported wires start where the
numbers of their scalars start.
-/

namespace Circom.ConstraintGeneration

open Circom.Dag (DAG Node AddsLocal)
open Circom.Lib (HashMap exists_round foldlM_flatMap foldlM_invariant foldlM_preserves foldlM_some
  foldl_mul_dims)

variable {table : List BusInstance} {datas : List WireData} {main : Node} {start : ℕ}

/-! ## The numbers that the graph gives -/

theorem getMain_modifyMain (dag : DAG) (f : Node → Node) :
    (dag.modifyMain f).getMain = dag.getMain.map f := by
  rw [DAG.getMain, DAG.getMain, List.getLast?_eq_getElem?, List.getLast?_eq_getElem?]
  simp only [DAG.modifyMain, List.length_modify, List.getElem?_modify, if_true, Option.map_eq_map]

theorem addSymbol_spec {config : SignalConfig} (hconfig : config.signalType < 3) {dag : DAG}
    (hmain : dag.getMain = some main) (name : String) :
    ∃ main', (config.addSymbol dag name).getMain = some main' ∧ AddsLocal main main' name := by
  unfold SignalConfig.addSymbol
  split_ifs with h0 h1 h2
  · exact ⟨_, by rw [DAG.addInput, getMain_modifyMain, hmain]; rfl,
      Dag.addsLocal_addInput main name config.isPublic⟩
  · exact ⟨_, by rw [DAG.addOutput, getMain_modifyMain, hmain]; rfl,
      Dag.addsLocal_addOutput main name⟩
  · exact ⟨_, by rw [DAG.addIntermediate, getMain_modifyMain, hmain]; rfl,
      Dag.addsLocal_addIntermediate main name⟩
  · omega

/-- From `main` to `main'` the names get the next numbers, one after the other. -/
structure Numbers (main main' : Node) (names : List String) : Prop where
  numberOfSignals_eq : main'.numberOfSignals = main.numberOfSignals + names.length
  correspondence_eq : main'.correspondence =
    (names.zipIdx (main.numberOfSignals + 1)).foldl (fun m e => m.insert e.1 e.2) main.correspondence

theorem Numbers.trans {main' main'' : Node} {names names' : List String} (h : Numbers main main' names)
    (h' : Numbers main' main'' names') : Numbers main main'' (names ++ names') := by
  constructor
  · rw [h'.numberOfSignals_eq, h.numberOfSignals_eq, List.length_append, Nat.add_assoc]
  · rw [List.zipIdx_append, List.foldl_append, ← h.correspondence_eq, h'.correspondence_eq,
      h.numberOfSignals_eq]
    congr 2
    omega

theorem AddsLocal.numbers {main' : Node} {name : String} (h : AddsLocal main main' name) : Numbers main main' [name] :=
  ⟨h.numberOfSignals_eq, h.correspondence_eq⟩

theorem foldl_addSymbol_spec {config : SignalConfig} (hconfig : config.signalType < 3) (names : List String) {dag : DAG}
    (hmain : dag.getMain = some main) :
    ∃ main', (names.foldl config.addSymbol dag).getMain = some main' ∧ Numbers main main' names := by
  induction names generalizing dag main with
  | nil => exact ⟨main, hmain, rfl, rfl⟩
  | cons name names ih =>
    obtain ⟨main1, hmain1, h1⟩ := addSymbol_spec hconfig hmain name
    obtain ⟨main2, hmain2, h2⟩ := ih hmain1
    exact ⟨main2, hmain2, (AddsLocal.numbers h1).trans h2⟩

namespace ExecutedTemplate

variable {t : ExecutedTemplate} {model : ModelBuses}

/-- The declared wires, in the order of both layouts. -/
def wires (t : ExecutedTemplate) : List WireData :=
  t.outputs ++ t.inputs.filter t.isPublicInput ++ t.inputs.filter (!t.isPublicInput ·) ++
    t.intermediates

/-- The names of the scalars of a declared wire. -/
def scalars (t : ExecutedTemplate) (model : ModelBuses) (wireData : WireData) : List String :=
  model.wireScalars t.busConnexions wireData wireData.name

theorem length_scalars (wireData : WireData) :
    (t.scalars model wireData).length = model.wireSize t.busConnexions wireData :=
  ModelBuses.length_wireScalars _ _ _

theorem buildWiresOf_spec (config : SignalConfig) (hconfig : config.signalType < 3) {wires : List WireData}
    (hconnects : ∀ w ∈ wires, model.Connects t.busConnexions w) {dag : DAG} (hmain : dag.getMain = some main) :
    ∃ dag' main', t.buildWiresOf model.buses config wires dag = some dag' ∧
      dag'.getMain = some main' ∧ Numbers main main' (wires.flatMap (t.scalars model)) := by
  obtain ⟨main', hmain', hnumbers⟩ :=
    foldl_addSymbol_spec hconfig (wires.flatMap (t.scalars model)) hmain
  refine ⟨_, main', ?_, hmain', hnumbers⟩
  rw [buildWiresOf, ← foldlM_some, foldlM_flatMap]
  refine Lib.foldlM_congr_mem ?_ dag
  intro w hw dag
  exact ModelBuses.generateWire_eq (hconnects w hw) _ dag

theorem buildWires_spec (hconnects : ∀ w ∈ t.wires, model.Connects t.busConnexions w) {dag : DAG}
    (hmain : dag.getMain = some main) :
    ∃ dag' main', t.buildWires model.buses dag = some dag' ∧ dag'.getMain = some main' ∧
      Numbers main main' (t.wires.flatMap (t.scalars model)) := by
  simp only [wires, List.mem_append, or_imp, forall_and] at hconnects
  obtain ⟨⟨⟨h1, h2⟩, h3⟩, h4⟩ := hconnects
  obtain ⟨dag1, main1, hdag1, hmain1, n1⟩ := buildWiresOf_spec ⟨false, 1⟩ (by decide) h1 hmain
  obtain ⟨dag2, main2, hdag2, hmain2, n2⟩ := buildWiresOf_spec ⟨true, 0⟩ (by decide) h2 hmain1
  obtain ⟨dag3, main3, hdag3, hmain3, n3⟩ := buildWiresOf_spec ⟨false, 0⟩ (by decide) h3 hmain2
  obtain ⟨dag4, main4, hdag4, hmain4, n4⟩ := buildWiresOf_spec ⟨false, 2⟩ (by decide) h4 hmain3
  refine ⟨dag4, main4, ?_, hmain4, ?_⟩
  · rw [buildWires, hdag1]
    simp only [Option.bind_eq_bind, Option.bind_some, hdag2, hdag3, hdag4]
  · simp only [wires, List.flatMap_append]
    exact ((n1.trans n2).trans n3).trans n4

/-- The wires of a template that was written into the graph are connected. -/
theorem connects_of_buildWires {dag dag' : DAG} (h : t.buildWires model.buses dag = some dag') :
    ∀ w ∈ t.wires, model.Connects t.busConnexions w := by
  obtain ⟨dag1, h1, h⟩ := Option.bind_eq_some_iff.mp h
  obtain ⟨dag2, h2, h⟩ := Option.bind_eq_some_iff.mp h
  obtain ⟨dag3, h3, h4⟩ := Option.bind_eq_some_iff.mp h
  have hround : ∀ {config : SignalConfig} {wires : List WireData} {dag dag' : DAG},
      t.buildWiresOf model.buses config wires dag = some dag' → ∀ w ∈ wires,
      model.Connects t.busConnexions w := by
    intro config wires dag dag' h w hw
    obtain ⟨s, s', hs⟩ := exists_round h hw
    exact ModelBuses.connects_of_generateWire hs
  intro w hw
  simp only [wires, List.mem_append] at hw
  rcases hw with ((hw | hw) | hw) | hw
  · exact hround h1 w hw
  · exact hround h2 w hw
  · exact hround h3 w hw
  · exact hround h4 w hw

/-! ## The exported wires -/

/-- The exported wires of some declared ones, where the first scalar has the number `start`. -/
inductive LaidOut (t : ExecutedTemplate) (model : ModelBuses) : ℕ → List WireData → List Wire → Prop
  | nil (start : ℕ) : LaidOut t model start [] []
  | cons {start : ℕ} {data : WireData} {wire : Wire} {datas : List WireData} {wires : List Wire}
      (name_eq : wire.name = data.name) (dagLocalId_eq : wire.dagLocalId = start)
      (size_eq : wire.size = (t.scalars model data).length)
      (rest : LaidOut t model (start + wire.size) datas wires) :
      LaidOut t model start (data :: datas) (wire :: wires)

theorem exportWire_spec
    (htable : ∀ i, i < model.buses.length → ∃ inst, table[i]? = some inst ∧ inst.size = model.busSize i)
    {data : WireData} (hconnects : model.Connects t.busConnexions data) (xtype : SignalType) (acc : Exported) :
    ∃ wire, t.exportWire table xtype acc data = some
        { localId := acc.localId + wire.size
          dagLocalId := acc.dagLocalId + wire.size
          wires := acc.wires ++ [wire] } ∧
      wire.name = data.name ∧ wire.dagLocalId = acc.dagLocalId ∧
      wire.size = (t.scalars model data).length := by
  rw [length_scalars, ModelBuses.wireSize]
  by_cases hb : data.isBus
  · obtain ⟨c, hc, hlt⟩ := hconnects hb
    obtain ⟨inst, hinst, hsize⟩ := htable _ hlt
    refine ⟨.tBus ⟨data.name, data.length, xtype, acc.localId, acc.dagLocalId, c.inspect.goesTo,
      data.length.foldl (fun p c => p * c) inst.size⟩, ?_, rfl, rfl, ?_⟩
    · simp only [exportWire, hb, if_true, hc, hinst, Option.bind_eq_bind, Option.bind_some]
      rfl
    · show data.length.foldl (fun p c => p * c) inst.size = _
      rw [foldl_mul_dims, hsize, nodeOf_eq hc, if_pos hb]
  · refine ⟨.tSignal ⟨data.name, data.length, xtype, acc.localId, acc.dagLocalId,
      data.length.foldl (fun p c => p * c) 1⟩, ?_, rfl, rfl, ?_⟩
    · simp only [exportWire, hb, Bool.false_eq_true, if_false]
      rfl
    · show data.length.foldl (fun p c => p * c) 1 = _
      rw [foldl_mul_dims, if_neg hb]

theorem LaidOut.append {datas' : List WireData} {wires wires' : List Wire} (h : LaidOut t model start datas wires)
    (h' : LaidOut t model (start + (wires.map Wire.size).sum) datas' wires') :
    LaidOut t model start (datas ++ datas') (wires ++ wires') := by
  induction h with
  | nil start => exact h'
  | cons hname hid hsize _ ih =>
    refine .cons hname hid hsize (ih ?_)
    rw [Nat.add_assoc]
    exact h'

theorem LaidOut.forall₂ {wires : List Wire} (h : LaidOut t model start datas wires) : List.Forall₂ (fun data wire =>
      wire.name = data.name ∧ wire.size = (t.scalars model data).length) datas wires := by
  induction h with
  | nil => exact .nil
  | cons hname _ hsize _ ih => exact .cons ⟨hname, hsize⟩ ih

/-- The scalars of the wires, counted from the numbers at which the wires start. -/
def numberedScalars (t : ExecutedTemplate) (model : ModelBuses) (datas : List WireData)
    (wires : List Wire) : List (String × ℕ) :=
  (datas.zip wires).flatMap fun e => (t.scalars model e.1).zipIdx e.2.dagLocalId

theorem LaidOut.numberedScalars_eq {wires : List Wire} (h : LaidOut t model start datas wires) :
    t.numberedScalars model datas wires = (datas.flatMap (t.scalars model)).zipIdx start := by
  induction h with
  | nil => rfl
  | @cons start data wire datas wires _ hid hsize _ ih =>
    simp only [numberedScalars] at ih
    rw [numberedScalars, List.zip_cons_cons, List.flatMap_cons, List.flatMap_cons,
      List.zipIdx_append, ih, hid, hsize]

theorem foldlM_exportWire_spec
    (htable : ∀ i, i < model.buses.length → ∃ inst, table[i]? = some inst ∧ inst.size = model.busSize i)
    (xtype : SignalType) (hconnects : ∀ data ∈ datas, model.Connects t.busConnexions data) (acc : Exported) :
    ∃ acc' wires, datas.foldlM (t.exportWire table xtype) acc = some acc' ∧
      acc'.wires = acc.wires ++ wires ∧ LaidOut t model acc.dagLocalId datas wires ∧
      acc'.dagLocalId = acc.dagLocalId + (wires.map Wire.size).sum := by
  induction datas generalizing acc with
  | nil => exact ⟨acc, [], rfl, (List.append_nil _).symm, .nil _, rfl⟩
  | cons data datas ih =>
    obtain ⟨wire, hwire, hname, hid, hsize⟩ :=
      exportWire_spec htable (hconnects data List.mem_cons_self) xtype acc
    obtain ⟨acc', wires, hacc', hwires, hlaid, hnext⟩ :=
      ih (fun d hd => hconnects d (List.mem_cons_of_mem _ hd))
        { localId := acc.localId + wire.size, dagLocalId := acc.dagLocalId + wire.size,
          wires := acc.wires ++ [wire] }
    refine ⟨acc', wire :: wires, ?_, ?_, .cons hname hid hsize hlaid, ?_⟩
    · rw [List.foldlM_cons, hwire]
      exact hacc'
    · rw [hwires, List.append_assoc]
      rfl
    · rw [hnext, List.map_cons, List.sum_cons, Nat.add_assoc]

theorem exportToCircuit_spec
    (htable : ∀ i, i < model.buses.length → ∃ inst, table[i]? = some inst ∧ inst.size = model.busSize i)
    (hconnects : ∀ w ∈ t.wires, model.Connects t.busConnexions w) :
    ∃ wires, t.exportToCircuit table = some wires ∧ LaidOut t model 1 t.wires wires := by
  simp only [wires, List.mem_append, or_imp, forall_and] at hconnects
  obtain ⟨⟨⟨h1, h2⟩, h3⟩, h4⟩ := hconnects
  obtain ⟨acc1, w1, hacc1, hw1, l1, n1⟩ := foldlM_exportWire_spec htable .output h1 {}
  obtain ⟨acc2, w2, hacc2, hw2, l2, n2⟩ := foldlM_exportWire_spec htable .input h2 acc1
  obtain ⟨acc3, w3, hacc3, hw3, l3, n3⟩ := foldlM_exportWire_spec htable .input h3 acc2
  obtain ⟨acc4, w4, hacc4, hw4, l4, -⟩ := foldlM_exportWire_spec htable .intermediate h4 acc3
  refine ⟨w1 ++ w2 ++ w3 ++ w4, ?_, ?_⟩
  · simp only [exportToCircuit, hacc1, hacc2, hacc3, hacc4, Option.bind_eq_bind, Option.bind_some]
    rw [hw4, hw3, hw2, hw1]
    rfl
  · rw [n1] at l2
    rw [n2, n1] at l3
    rw [n3, n2, n1] at l4
    refine ((l1.append l2).append ?_).append ?_
    · rw [List.map_append, List.sum_append, ← Nat.add_assoc]
      exact l3
    · rw [List.map_append, List.map_append, List.sum_append, List.sum_append, ← Nat.add_assoc,
        ← Nat.add_assoc]
      exact l4

end ExecutedTemplate

/-! ## The rest of `insert_in_dag` -/

/-- The main node knows `name` as the signal `id`. -/
def HasId (name : String) (id : ℕ) (dag : DAG) : Prop :=
  ∃ main, dag.getMain = some main ∧ main.correspondence.lookup name = some id

section HasId

variable {name : String} {id : ℕ} {dag dag' : DAG}

theorem hasId_modifyMain (h : HasId name id dag) {f : Node → Node}
    (hf : ∀ node, (f node).correspondence = node.correspondence) :
    HasId name id (dag.modifyMain f) := by
  obtain ⟨main, hmain, hname⟩ := h
  refine ⟨f main, by rw [getMain_modifyMain, hmain, Option.map_some], ?_⟩
  rw [hf]
  exact hname

theorem hasId_addEdge (h : HasId name id dag) {target : ℕ} {label : String} {isParallel : Bool}
    {edge : Option Dag.Edge} (hadd : dag.addEdge target label isParallel = some (dag', edge))
    (hname : ∀ signal, name ≠ Node.concreteName label signal) : HasId name id dag' := by
  obtain ⟨source, hsource, ⟨-, rfl⟩ | ⟨node, toNode, -, hnode, -, hnodes, -⟩⟩ :=
    DAG.addEdge_cases hadd
  · exact h
  · obtain ⟨main, hmain, hid⟩ := h
    have hlen := DAG.mainId_eq_some hsource
    have hlast : dag.nodes.length - 1 = source := by omega
    rw [DAG.getMain, List.getLast?_eq_getElem?, hlast, hnode] at hmain
    obtain rfl := Option.some.inj hmain
    refine ⟨node.addSubcomponent toNode (node.newEdge toNode target label) isParallel, ?_, ?_⟩
    · rw [DAG.getMain, List.getLast?_eq_getElem?, hnodes, List.length_set, hlast,
        List.getElem?_set_self (by omega)]
    · exact Dag.foldl_addSubcomponentSignal_keeps _ _ hid fun e _ _ => hname e.1

theorem hasId_buildConnexion (h : HasId name id dag) {cnn cnn' : Connexion}
    (hbuild : ExecutedTemplate.buildConnexion dag cnn = some (dag', cnn'))
    (hname : ∀ signal, name ≠ Node.concreteName cnn.fullName signal) : HasId name id dag' := by
  obtain ⟨entry, -, hbuild⟩ := Option.bind_eq_some_iff.mp hbuild
  obtain ⟨⟨dag1, edge⟩, hadd, hbuild⟩ := Option.bind_eq_some_iff.mp hbuild
  obtain ⟨entry', -, hbuild⟩ := Option.bind_eq_some_iff.mp hbuild
  obtain ⟨rfl, -⟩ := Prod.mk.inj (Option.some.inj hbuild)
  exact hasId_addEdge h hadd hname

/-- A loop keeps the number of a name when each of its rounds does. -/
theorem hasId_foldlM {α : Type} {f : DAG → α → Option DAG} {l : List α} (h : HasId name id dag)
    (hf : ∀ dag dag', ∀ a ∈ l, HasId name id dag → f dag a = some dag' → HasId name id dag')
    (hl : l.foldlM f dag = some dag') : HasId name id dag' := by
  induction l generalizing dag with
  | nil =>
    obtain rfl := Option.some.inj hl
    exact h
  | cons a l ih =>
    rw [List.foldlM_cons] at hl
    obtain ⟨dag1, hdag1, hl⟩ := Option.bind_eq_some_iff.mp hl
    exact ih (hf _ _ a List.mem_cons_self h hdag1)
      (fun dag dag' b hb => hf dag dag' b (List.mem_cons_of_mem a hb)) hl

end HasId

namespace ExecutedTemplate

variable {t : ExecutedTemplate} {model : ModelBuses}

theorem hasId_buildOrderedSignals {name : String} {id : ℕ} {dag dag' : DAG}
    (h : HasId name id dag) (hbuild : t.buildOrderedSignals model.buses dag = some dag') :
    HasId name id dag' := by
  refine hasId_foldlM h ?_ hbuild
  intro dag dag' w _ h hw
  rw [ModelBuses.generateWire_eq (ModelBuses.connects_of_generateWire hw)] at hw
  refine hasId_foldlM h ?_ hw
  intro dag dag' symbol _ h hsymbol
  obtain rfl := Option.some.inj hsymbol
  exact hasId_modifyMain h fun node => rfl

theorem hasId_buildConstraints {name : String} {id : ℕ} {dag dag' : DAG}
    (h : HasId name id dag) (hbuild : t.buildConstraints dag = some dag') :
    HasId name id dag' := by
  obtain ⟨dag1, hdag1, hdag2⟩ := Option.bind_eq_some_iff.mp hbuild
  have h1 : HasId name id dag1 := by
    refine hasId_foldlM h ?_ hdag1
    intro dag dag' c _ h hc
    obtain ⟨main, -, hc⟩ := Option.bind_eq_some_iff.mp hc
    obtain ⟨cc, -, hc⟩ := Option.bind_eq_some_iff.mp hc
    obtain rfl := Option.some.inj hc
    exact hasId_modifyMain h fun node => rfl
  refine hasId_foldlM h1 ?_ hdag2
  intro dag dag' s _ h hs
  obtain ⟨main, -, hs⟩ := Option.bind_eq_some_iff.mp hs
  obtain ⟨newS, -, hs⟩ := Option.bind_eq_some_iff.mp hs
  obtain rfl := Option.some.inj hs
  exact hasId_modifyMain h fun node => rfl

/-- The template after `build_connexions` has other components and connexions only. -/
structure SameWires (t t' : ExecutedTemplate) : Prop where
  outputs_eq : t'.outputs = t.outputs
  inputs_eq : t'.inputs = t.inputs
  intermediates_eq : t'.intermediates = t.intermediates
  publicInputs_eq : t'.publicInputs = t.publicInputs
  busConnexions_eq : t'.busConnexions = t.busConnexions

theorem buildConnexions_spec {t' : ExecutedTemplate} {dag dag' : DAG}
    (hbuild : t.buildConnexions dag = some (t', dag')) :
    SameWires t t' ∧ ∀ name id, (∀ cnn ∈ t.connexions, ∀ signal,
      name ≠ Node.concreteName cnn.fullName signal) → HasId name id dag → HasId name id dag' := by
  obtain ⟨⟨dag1, connexions⟩, hloop, hbuild⟩ := Option.bind_eq_some_iff.mp hbuild
  obtain ⟨main, -, hbuild⟩ := Option.bind_eq_some_iff.mp hbuild
  obtain ⟨rfl, rfl⟩ := Prod.mk.inj (Option.some.inj hbuild)
  refine ⟨⟨rfl, rfl, rfl, rfl, rfl⟩, ?_⟩
  intro name id hname h
  have hinv := foldlM_preserves
    (fun (rest : List Connexion) (acc : DAG × List Connexion) => HasId name id acc.1 ∧
      ∀ cnn ∈ rest, cnn ∈ t.connexions)
    (by
      intro cnn rest acc acc' ⟨hacc, hrest⟩ hround
      obtain ⟨⟨dag2, cnn'⟩, hcnn, hround⟩ := Option.bind_eq_some_iff.mp hround
      obtain rfl := Option.some.inj hround
      refine ⟨hasId_buildConnexion hacc hcnn (hname cnn (hrest cnn List.mem_cons_self)), ?_⟩
      exact fun cnn'' hmem => hrest cnn'' (List.mem_cons_of_mem _ hmem))
    ⟨h, fun cnn hcnn => (List.mem_insertionSort _).mp hcnn⟩ hloop
  exact hasId_modifyMain hinv.1 fun node => rfl

theorem exportToCircuit_congr {t' : ExecutedTemplate} (h : SameWires t t') (table : List BusInstance) :
    t'.exportToCircuit table = t.exportToCircuit table := by
  have hexport : t'.exportWire table = t.exportWire table := by
    funext xtype acc s
    rw [exportWire, exportWire, h.busConnexions_eq]
  have hpublic : t'.isPublicInput = t.isPublicInput := by
    funext s
    rw [isPublicInput, isPublicInput, h.publicInputs_eq]
  simp only [exportToCircuit, hexport, hpublic, h.outputs_eq, h.inputs_eq, h.intermediates_eq]

/-! ## The layouts agree -/

/-- The graph right after the node of the template was added. -/
def withNode (t : ExecutedTemplate) (dag : DAG) : DAG :=
  (dag.addNode t.reportName (t.parameterInstances.flatMap fun e => asBigInt e.2) t.isParallel
    t.isCustomGate).1

/-- The scalars of the template have different names, and none is a name of a signal of a
subcomponent. -/
structure NamesApart (t : ExecutedTemplate) (model : ModelBuses) : Prop where
  nodup : (t.wires.flatMap (t.scalars model)).Nodup
  apart : ∀ name ∈ t.wires.flatMap (t.scalars model), ∀ cnn ∈ t.connexions, ∀ signal,
    name ≠ Node.concreteName cnn.fullName signal

/-- The scalars have the numbers of their positions when the template is complete. -/
theorem hasId_insertInDag {t' : ExecutedTemplate} {dag dag' : DAG}
    (h : t.insertInDag dag model = some (t', dag')) (hapart : t.NamesApart model) {k : ℕ} {name : String}
    (hk : (t.wires.flatMap (t.scalars model))[k]? = some name) : HasId name (k + 1) dag' := by
  obtain ⟨built, hbuilt, h⟩ := Option.bind_eq_some_iff.mp h
  obtain ⟨dag2, hordered, h⟩ := Option.bind_eq_some_iff.mp h
  obtain ⟨⟨t1, dag3⟩, hconnexions, h⟩ := Option.bind_eq_some_iff.mp h
  obtain ⟨dag4, hconstraints, h⟩ := Option.bind_eq_some_iff.mp h
  obtain ⟨rfl, rfl⟩ := Prod.mk.inj (Option.some.inj h)
  obtain ⟨-, hkeeps⟩ := buildConnexions_spec hconnexions
  have hnode : (t.withNode dag).getMain = some (Node.new dag.nodes.length t.reportName
      (t.parameterInstances.flatMap fun e => asBigInt e.2) t.isParallel t.isCustomGate) := by
    rw [withNode, DAG.getMain, DAG.addNode]
    exact List.getLast?_concat
  obtain ⟨built', main, hbuilt', hmain, hnumbers⟩ :=
    buildWires_spec (connects_of_buildWires hbuilt) hnode
  obtain rfl : built' = built := Option.some.inj (hbuilt'.symm.trans hbuilt)
  have hcorr : main.correspondence = AList.ofPairs ((t.wires.flatMap (t.scalars model)).zipIdx 1) :=
    hnumbers.correspondence_eq
  have hmem : (name, k + 1) ∈ (t.wires.flatMap (t.scalars model)).zipIdx 1 := by
    rw [List.mem_zipIdx_iff_le_and_getElem?_sub]
    exact ⟨Nat.le_add_left _ _, by rw [Nat.add_sub_cancel]; exact hk⟩
  have hnodup : (((t.wires.flatMap (t.scalars model)).zipIdx 1).map Prod.fst).Nodup := by
    rw [List.zipIdx_map_fst]
    exact hapart.nodup
  have h1 : HasId name (k + 1) built' :=
    ⟨main, hmain, by rw [hcorr]; exact (AList.lookup_ofPairs hnodup).mpr hmem⟩
  have h2 := hasId_buildOrderedSignals h1 hordered
  have h3 := hkeeps name _ (hapart.apart name (List.mem_of_getElem? hk)) h2
  exact hasId_buildConstraints h3 hconstraints

/-- The names and numbers that the graph pairs up are those of the exported wires: the `k`-th scalar of
a wire gets the number `dagLocalId + k`, and the size of the wire is the number of its scalars. Names
that are apart still have these numbers when the template is complete. -/
theorem wire_layouts_agree {t' : ExecutedTemplate} {dag dag' : DAG}
    (h : t.insertInDag dag model = some (t', dag')) :
    ∃ table wires built main, model.busesTable = some table ∧
      t'.exportToCircuit table = some wires ∧
      t.buildWires model.buses (t.withNode dag) = some built ∧ built.getMain = some main ∧
      main.correspondence = AList.ofPairs (t.numberedScalars model t.wires wires) ∧
      List.Forall₂ (fun data wire =>
        wire.name = data.name ∧ wire.size = (t.scalars model data).length) t.wires wires ∧
      (t.NamesApart model → ∀ e ∈ t.wires.zip wires, ∀ (k : ℕ) name,
        (t.scalars model e.1)[k]? = some name → HasId name (e.2.dagLocalId + k) dag') := by
  have hids := fun hapart k name hk => @hasId_insertInDag t model t' dag dag' h hapart k name hk
  obtain ⟨built, hbuilt, h⟩ := Option.bind_eq_some_iff.mp h
  obtain ⟨dag2, hordered, h⟩ := Option.bind_eq_some_iff.mp h
  obtain ⟨⟨t1, dag3⟩, hconnexions, h⟩ := Option.bind_eq_some_iff.mp h
  obtain ⟨dag4, hconstraints, h⟩ := Option.bind_eq_some_iff.mp h
  obtain ⟨rfl, rfl⟩ := Prod.mk.inj (Option.some.inj h)
  obtain ⟨hsame, -⟩ := buildConnexions_spec hconnexions
  have hconnects := connects_of_buildWires hbuilt
  obtain ⟨table, htable, hsizes⟩ := ModelBuses.busesTable_spec model
  obtain ⟨wires, hwires, hlaid⟩ := exportToCircuit_spec hsizes hconnects
  have hnode : (t.withNode dag).getMain = some (Node.new dag.nodes.length t.reportName
      (t.parameterInstances.flatMap fun e => asBigInt e.2) t.isParallel t.isCustomGate) := by
    rw [withNode, DAG.getMain, DAG.addNode]
    exact List.getLast?_concat
  obtain ⟨built', main, hbuilt', hmain, hnumbers⟩ := buildWires_spec hconnects hnode
  obtain rfl : built' = built := Option.some.inj (hbuilt'.symm.trans hbuilt)
  have hcorr : main.correspondence = AList.ofPairs (t.numberedScalars model t.wires wires) := by
    rw [hnumbers.correspondence_eq, hlaid.numberedScalars_eq]
    rfl
  refine ⟨table, wires, built', main, htable, ?_, hbuilt, hmain, hcorr, hlaid.forall₂, ?_⟩
  · rw [exportToCircuit_congr hsame]
    exact hwires
  · intro hapart e he k name hk
    have hmem : (name, e.2.dagLocalId + k) ∈ t.numberedScalars model t.wires wires := by
      refine List.mem_flatMap.mpr ⟨e, he, ?_⟩
      rw [List.mem_zipIdx_iff_le_and_getElem?_sub]
      exact ⟨Nat.le_add_right _ _, by rw [Nat.add_sub_cancel_left]; exact hk⟩
    rw [hlaid.numberedScalars_eq, List.mem_zipIdx_iff_le_and_getElem?_sub] at hmem
    have hid := hids hapart _ _ hmem.2
    rwa [Nat.sub_add_cancel hmem.1] at hid

/-- A bus of one signal, and a bus of a signal and an array of the first. -/
def nestedBuses : ModelBuses where
  buses :=
    [⟨"Point", [⟨"z", [], false⟩], ∅⟩,
      ⟨"Line", [⟨"w", [], false⟩, ⟨"ends", [2], true⟩],
        AList.ofPairs [("ends", ⟨"ends", ⟨"Point", 0⟩⟩)]⟩]
  connected := by
    intro i bus hbus field hfield hb
    match i, hbus with
    | 0, rfl =>
      rcases List.mem_singleton.mp hfield with rfl
      cases hb
    | 1, rfl =>
      rcases List.mem_pair.mp hfield with rfl | rfl
      · cases hb
      · exact ⟨_, rfl, by decide⟩

/-- An array of buses as output, a public input after a private one. -/
def nestedTemplate : ExecutedTemplate where
  reportName := "Main"
  inputs := [⟨"a", [2], false⟩, ⟨"b", [], false⟩]
  outputs := [⟨"o", [2], true⟩]
  intermediates := [⟨"e", [0], true⟩]
  orderedSignals := [⟨"b", [], false⟩]
  constraints := []
  components := []
  numberOfComponents := 0
  publicInputs := {"b"}
  parameterInstances := []
  isParallel := false
  hasParallelSubCmp := false
  isCustomGate := false
  underscoredSignals := ["o[1].ends[0].z"]
  connexions := []
  busConnexions := AList.ofPairs [("o", ⟨"o", ⟨"Line", 1⟩⟩), ("e", ⟨"e", ⟨"Line", 1⟩⟩)]

theorem wire_layouts_agree_nested :
    ∃ t' dag' table wires built main,
      nestedTemplate.insertInDag (DAG.new 5) nestedBuses = some (t', dag') ∧
      nestedBuses.busesTable = some table ∧ t'.exportToCircuit table = some wires ∧
      wires.map (fun w => (w.name, w.dagLocalId, w.size)) =
        [("o", 1, 6), ("b", 7, 1), ("a", 8, 2), ("e", 10, 0)] ∧
      nestedTemplate.buildWires nestedBuses.buses (nestedTemplate.withNode (DAG.new 5)) = some built ∧
      built.getMain = some main ∧
      main.correspondence =
        AList.ofPairs (nestedTemplate.numberedScalars nestedBuses nestedTemplate.wires wires) := by
  have hsome : (nestedTemplate.insertInDag (DAG.new 5) nestedBuses).isSome := rfl
  obtain ⟨⟨t', dag'⟩, h⟩ := Option.isSome_iff_exists.mp hsome
  obtain ⟨table, wires, built, main, htable, hwires, hbuilt, hmain, hcorr, -, -⟩ :=
    wire_layouts_agree h
  have hlayout : (nestedTemplate.insertInDag (DAG.new 5) nestedBuses).bind (fun e =>
      nestedBuses.busesTable.bind fun table => (e.1.exportToCircuit table).map
        (List.map fun w => (w.name, w.dagLocalId, w.size))) =
      some [("o", 1, 6), ("b", 7, 1), ("a", 8, 2), ("e", 10, 0)] := rfl
  simp only [h, htable, hwires, Option.bind_some, Option.map_some] at hlayout
  exact ⟨t', dag', table, wires, built, main, h, htable, hwires, Option.some.inj hlayout, hbuilt,
    hmain, hcorr⟩

end ExecutedTemplate

end Circom.ConstraintGeneration
