import Circom.ConstraintGeneration.Proofs.CustomGates
import Circom.ConstraintList.Proofs.R1csFile
import Circom.Dag.R1csPorting

/-!
# The R1CS files of a program

Reading a file back gives a constraint system that can be satisfied exactly if the constraints of all component
instances can: the classification, the simplification, the numbering of the wires and the file put together. The file
that is written without simplification has the constraints of the instances as they are.
-/

namespace Circom.Dag

open Circom.ConstraintList (Fits inRange_of_lt)

/-! ## The content without simplification -/

theorem writeConstraintSection_eq {dag : DAG} {main : Node} (hmain : dag.getMain = some main) :
    writeConstraintSection (dag.rootTree main) =
      some (dag.mappedConstraints main, (dag.mappedSignals main).length) := by
  have hloop : ∀ (l : List (ℕ × ℕ)) (s : List Constraint × ℕ), l.foldlM (fun s i =>
      some (s.1 ++ dag.instanceTreeConstraints i, s.2 + (dag.instanceSignals i).length)) s =
        some (s.1 ++ l.flatMap dag.instanceTreeConstraints, s.2 + (l.flatMap dag.instanceSignals).length) := by
    intro l
    induction l with
    | nil => simp
    | cons i l ih =>
      intro s
      rw [List.foldlM_cons, Option.bind_eq_bind, Option.bind_some, ih]
      simp [Nat.add_assoc]
  rw [writeConstraintSection, walk_rootTree hmain (fun s i =>
    some (s.1 ++ dag.instanceTreeConstraints i, s.2 + (dag.instanceSignals i).length)), Option.bind_some, hloop]
  · simp [DAG.mappedConstraints, DAG.mappedSignals, DAG.properInstances, DAG.rootTree]
  · intro s node n offset hn
    simp [DAG.instanceTreeConstraints, DAG.instanceSignals, hn, Tree.ofNode]

namespace DAG

variable {dag : DAG} {main : Node} {customGates : Bool} {content : ConstraintWriters.R1CSContent}

theorem r1csContent_spec (hmain : dag.getMain = some main) (h : dag.r1csContent customGates = some content) :
    content.constraints = (dag.mappedConstraints main).map (fun c => (c.a, c.b, c.c)) ∧
      content.wires = List.range ((dag.mappedSignals main).length + 1) ∧
      content.headerData = ⟨dag.prime, (dag.mappedSignals main).length + 1, main.outputsLength,
        main.publicInputsLength, main.inputsLength - main.publicInputsLength, (dag.mappedSignals main).length + 1,
        content.constraints.length⟩ := by
  rw [r1csContent, Tree.new_eq hmain, Option.bind_eq_bind, Option.bind_some, writeConstraintSection_eq hmain] at h
  rw [Option.bind_eq_bind, Option.bind_some] at h
  obtain ⟨gates, -, h⟩ := Option.bind_eq_some_iff.mp h
  obtain rfl := Option.some.inj h
  simp [publicOutputs, publicInputs, privateInputs, hmain, rootTree, Node.numberOfOutputs, Node.numberOfPublicInputs,
    Node.numberOfPrivateInputs]

/-- The constraints written are those of the tree. -/
theorem perm_treeConstraints (hnum : dag.AllNumbered) (hmain : dag.cleanConstraints.getMain = some main) :
    ∃ constraints, dag.cleanConstraints.treeConstraints = some constraints ∧
      constraints.map (fun c => c.toFinmaps) =
        (dag.cleanConstraints.mappedConstraints main).map fun c => c.toFinmaps := by
  obtain ⟨main', edges, hmain', hnode, -, hedges⟩ := exists_main (ne_nil_of_getMain hmain)
  obtain rfl : main' = main := Option.some.inj (hmain'.symm.trans hmain)
  have hnone : dag.cleanConstraints.instanceTreeConstraints = dag.cleanConstraints.instanceConstraints :=
    funext (instanceTreeConstraints_eq fun node hnode c hc => (constraint_of_cleanConstraints hnode hc).1)
  refine ⟨_, treeConstraints_eq hmain, ?_⟩
  rw [(allNumbered_cleanConstraints hnum _ main' edges hnode hedges).entry_in, mappedConstraints, hnone,
    List.map_append, List.map_append, List.map_map]
  congr 1
  exact List.map_congr_left fun c _ => Algebra.Constraint.toFinmaps_applyOffset_zero c

/-- What is written is about the wires, with coefficients in the field. -/
theorem isMapped_written {p : ℕ} (hnum : dag.AllNumbered) (hnamed : dag.AllNamed) (hwithin : dag.AllWithin p)
    (hmain : dag.cleanConstraints.getMain = some main) {c : Constraint}
    (hc : c ∈ dag.cleanConstraints.mappedConstraints main) :
    IsMapped p (dag.cleanConstraints.mappedSignals main).length c := by
  obtain ⟨main', edges, hmain', hnode, -, -⟩ := exists_main (ne_nil_of_getMain hmain)
  obtain rfl : main' = main := Option.some.inj (hmain'.symm.trans hmain)
  have hmapped := isMapped_mappedConstraints hnum hwithin hmain hc
  have hlen : dag.cleanConstraints.nodes.length = dag.nodes.length := List.length_map ..
  rwa [length_mappedSignals (allNumbered_cleanConstraints hnum) (allNamed_cleanConstraints hnamed) hmain,
    ← size_eq hnode, size_cleanConstraints, hlen]

theorem wellFormed_r1csContent {p : ℕ} [NeZero p] (hprime : dag.prime = p) (hnum : dag.AllNumbered)
    (hnamed : dag.AllNamed) (hwithin : dag.AllWithin p) (hmain : dag.cleanConstraints.getMain = some main)
    (h : dag.cleanConstraints.r1csContent customGates = some content) (hfits : Fits content) : content.WellFormed := by
  obtain ⟨hconstraints, hwires, hheader⟩ := r1csContent_spec hmain h
  have hfield : content.headerData.field = p := by
    rw [hheader]
    exact hprime
  have hlt : (dag.cleanConstraints.mappedSignals main).length + 1 < 2 ^ 32 := by
    have := hfits.fields_lt _ List.mem_cons_self
    rwa [hheader] at this
  refine ⟨?_, hfits.fieldSize_lt, hfits.fields_lt, by rw [hheader], by rw [hheader, hwires, List.length_range], ?_,
    hfits.wires_lt, hfits.usages, hfits.applications⟩
  · rw [hfield]
    exact_mod_cast NeZero.pos p
  · rw [hconstraints, hfield]
    intro c' hc'
    obtain ⟨c, hc, rfl⟩ := List.mem_map.mp hc'
    obtain ⟨⟨ha, hb, hcc⟩, -, hle⟩ := isMapped_written hnum hnamed hwithin hmain hc
    exact ⟨inRange_of_lt (fun k hk => Nat.lt_succ_of_le (hle k (Or.inl hk))) hlt ha,
      inRange_of_lt (fun k hk => Nat.lt_succ_of_le (hle k (Or.inr (Or.inl hk)))) hlt hb,
      inRange_of_lt (fun k hk => Nat.lt_succ_of_le (hle k (Or.inr (Or.inr hk)))) hlt hcc⟩

end DAG

end Circom.Dag

namespace Circom.ConstraintGeneration

open Circom.ConstraintList (C Extends Fits InField Simplifier Wired ofFile)
open Circom.ConstraintWriters (R1CSContent)
open Circom.ConstraintWriters.R1csReader (R1CSData holds_infoOf infoOf readR1cs readR1cs_fileBytes)
open Circom.Dag (DAG)
open Circom.Lib (HashOrder)

variable {p : ℕ}

/-! ## What a file says -/

/-- Constraints that are equal as finite maps say the same. -/
theorem sat_of_toFinmaps {c c' : C} (h : c.toFinmaps = c'.toFinmaps) {σ : ℕ → ZMod p} (hc : c.Sat σ) : c'.Sat σ := by
  obtain ⟨ha, hbc⟩ := Prod.mk.inj h
  obtain ⟨hb, hc'⟩ := Prod.mk.inj hbc
  rw [Algebra.Constraint.Sat] at hc ⊢
  rw [← AList.eval_eq_of_perm σ (AList.toFinmap_eq.mp ha), ← AList.eval_eq_of_perm σ (AList.toFinmap_eq.mp hb),
    ← AList.eval_eq_of_perm σ (AList.toFinmap_eq.mp hc')]
  exact hc

theorem forall_sat_of_perm {l l' : List C} (h : (l.map fun c => c.toFinmaps).Perm (l'.map fun c => c.toFinmaps))
    {σ : ℕ → ZMod p} (hl : ∀ c ∈ l, c.Sat σ) : ∀ c ∈ l', c.Sat σ := by
  intro c hc
  obtain ⟨c', hc', heq⟩ := List.mem_map.mp (h.mem_iff.mpr (List.mem_map_of_mem hc))
  exact sat_of_toFinmaps heq (hl c' hc')

theorem forall_sat_iff {l l' : List C} (h : (l.map fun c => c.toFinmaps).Perm (l'.map fun c => c.toFinmaps))
    (σ : ℕ → ZMod p) : (∀ c ∈ l, c.Sat σ) ↔ ∀ c ∈ l', c.Sat σ :=
  ⟨forall_sat_of_perm h, forall_sat_of_perm h.symm⟩

theorem extends_congr {l l' : List C} (h : (l.map fun c => c.toFinmaps).Perm (l'.map fun c => c.toFinmaps))
    (forbidden : Finset ℕ) (σ : ℕ → ZMod p) : Extends forbidden σ l ↔ Extends forbidden σ l' :=
  exists_congr fun ρ => and_congr_right fun _ => forall_sat_iff h ρ

/-- The wires of a file can be given values so that the given signals have their values in `σ`. -/
def Accepts (info : R1CSData) (signals : Finset ℕ) (σ : ℕ → ZMod p) : Prop :=
  ∃ τ : ℕ → ZMod p, (∀ i k, info.signals[i]? = some k → k ∈ signals → τ i = σ k) ∧
    ∀ c ∈ info.constraints, (ofFile c).Sat τ

theorem sat_infoOf (content : R1CSContent) (τ : ℕ → ZMod p) :
    (∀ c ∈ (infoOf content).constraints, (ofFile c).Sat τ) ↔ ∀ c ∈ content.constraints, (ofFile c).Sat τ := by
  have hread : ((infoOf content).constraints.map fun c => (ofFile c).toFinmaps) =
      content.constraints.map fun c => (ofFile c).toFinmaps := (holds_infoOf content).constraints
  have hperm : (((infoOf content).constraints.map ofFile).map fun c => c.toFinmaps).Perm
      ((content.constraints.map ofFile).map fun c => c.toFinmaps) := by
    rw [List.map_map, List.map_map]
    exact List.Perm.of_eq hread
  have := forall_sat_iff hperm τ
  simpa only [List.forall_mem_map] using this

theorem reads_portR1cs {content : R1CSContent} (h : content.WellFormed) {bytes : List UInt8}
    (hbytes : ConstraintWriters.portR1cs content = some bytes) :
    readR1cs bytes = .ok (infoOf content) := by
  rw [ConstraintWriters.portR1cs_eq] at hbytes
  split_ifs at hbytes with hsize
  obtain rfl := Option.some.inj hbytes
  exact readR1cs_fileBytes h hsize

/-- The file of the simplified constraints. -/
theorem reads_simplified [Fact p.Prime] {smp : Simplifier} (hwf : smp.WellFormed p) (o : HashOrder) :
    ∃ list, smp.simplifyConstraints o = some list ∧ ∀ customGates content,
      list.r1csContent o customGates = some content → Fits content →
        ∀ bytes, list.portR1cs o customGates = some bytes → ∃ info, readR1cs bytes = .ok info ∧
          (info.headerData.field = p ∧ info.headerData.publicOutputs = smp.noPublicOutputs ∧
            info.headerData.publicInputs = smp.noPublicInputs) ∧
          (∀ k ≤ smp.noPublicOutputs + smp.noPublicInputs, info.signals[k]? = some k) ∧
          ∀ σ : ℕ → ZMod p, σ 0 = 1 →
            (Extends smp.forbidden σ smp.constraints → Accepts info smp.forbidden σ) ∧
            (¬ smp.Conflict p → Accepts info smp.forbidden σ → Extends smp.forbidden σ smp.constraints) := by
  obtain ⟨out, state, hrun, -, -, hext⟩ := ConstraintList.simplification_spec o hwf
  obtain ⟨list, witness, hlist, hwitness, ⟨hpublicOutputs, hpublicInputs⟩, hfirst, -, hnumbers, -⟩ :=
    getWitnessAsVec_layout o hwf
  have hwired : Wired list.signalMap witness := ⟨hnumbers, hfirst 0 (Nat.zero_le _)⟩
  have hstorage : list.constraints = out.constraintStorage ∧ list.field = p := by
    have hlist := hlist
    rw [Simplifier.simplifyConstraints, hrun] at hlist
    obtain rfl := Option.some.inj hlist
    exact ⟨rfl, hwf.field_eq⟩
  have hcoeffs : InField p list.constraints.constraints := by
    rw [hstorage.1]
    exact (ConstraintList.yields_simplification hwf o out hrun).1
  refine ⟨list, hlist, fun customGates content hcontent hfits bytes hbytes => ?_⟩
  obtain ⟨hwires, -, hheader, -⟩ := ConstraintList.r1csContent_spec hwitness hcontent
  have hfile := ConstraintList.wellFormed_r1csContent hwired hwitness hcontent hstorage.2 hcoeffs hfits
  rw [ConstraintList.ConstraintList.portR1cs, hcontent, Option.bind_eq_bind, Option.bind_some] at hbytes
  have hholds := holds_infoOf content
  refine ⟨_, reads_portR1cs hfile hbytes, ?_, ?_, fun σ hσ => ?_⟩
  · rw [hholds.headerData, hheader]
    exact ⟨hstorage.2, hpublicOutputs, hpublicInputs⟩
  · rw [hholds.signals, hwires]
    exact hfirst
  · have haccepts : Extends smp.forbidden σ smp.keptConstraints ↔
        Accepts (infoOf content) smp.forbidden σ := by
      have hfinal := ConstraintList.extends_iff_wires hwired hwitness hcontent smp.forbidden σ
      rw [hstorage.1, ← hext σ hσ] at hfinal
      rw [hfinal, Accepts, hholds.signals]
      exact exists_congr fun τ => and_congr_right fun _ => (sat_infoOf content τ).symm
    refine ⟨fun h => haccepts.mp ?_, fun hconflict h => ?_⟩
    · obtain ⟨ρ, hρ, hsat⟩ := h
      exact ⟨ρ, hρ, fun c hc => hsat c (ConstraintList.keptConstraints_subset hc)⟩
    · -- without a conflict the equalities that are not kept hold too
      obtain ⟨ρ, hρ, hsat⟩ := haccepts.mpr h
      have hone : ρ 0 = 1 := by rw [hρ 0 hwf.zero_forbidden, hσ]
      exact ⟨ρ, hρ, ConstraintList.sat_of_kept hwf hconflict hone hsat⟩

/-- The file without simplification: the wires are the signals. -/
theorem reads_unsimplified [NeZero p] {dag : DAG} (hprime : dag.prime = p) (hnum : dag.AllNumbered)
    (hnamed : dag.AllNamed) (hwithin : dag.AllWithin p) {main : Dag.Node}
    (hmain : dag.cleanConstraints.getMain = some main) {customGates : Bool} {content : R1CSContent}
    (hcontent : dag.cleanConstraints.r1csContent customGates = some content) (hfits : Fits content)
    {bytes : List UInt8} (hbytes : dag.cleanConstraints.write customGates = some bytes) :
    ∃ info, readR1cs bytes = .ok info ∧ info.headerData.field = p ∧
      info.headerData.publicOutputs = main.outputsLength ∧ info.headerData.publicInputs = main.publicInputsLength ∧
      info.signals = List.range info.headerData.totalWires ∧
      (∀ τ : ℕ → ZMod p, (∀ c ∈ info.constraints, (ofFile c).Sat τ) ↔
        ∀ c ∈ dag.cleanConstraints.mappedConstraints main, c.Sat τ) ∧
      ∀ signals (σ : ℕ → ZMod p),
        Extends signals σ (dag.cleanConstraints.mappedConstraints main) ↔ Accepts info signals σ := by
  obtain ⟨hconstraints, hwires, hheader⟩ := DAG.r1csContent_spec hmain hcontent
  have hfile := DAG.wellFormed_r1csContent hprime hnum hnamed hwithin hmain hcontent hfits
  rw [DAG.write, hcontent, Option.bind_eq_bind, Option.bind_some] at hbytes
  have hholds := holds_infoOf content
  have hsat : ∀ τ : ℕ → ZMod p, (∀ c ∈ (infoOf content).constraints, (ofFile c).Sat τ) ↔
      ∀ c ∈ dag.cleanConstraints.mappedConstraints main, c.Sat τ := by
    intro τ
    rw [sat_infoOf, hconstraints, List.forall_mem_map]
    rfl
  refine ⟨_, reads_portR1cs hfile hbytes, ?_, ?_, ?_, ?_, hsat, fun signals σ => ?_⟩
  · rw [hholds.headerData, hheader]
    exact hprime
  · rw [hholds.headerData, hheader]
  · rw [hholds.headerData, hheader]
  · rw [hholds.headerData, hheader, hholds.signals, hwires]
  · rw [Accepts, hholds.signals, hwires]
    constructor
    · rintro ⟨ρ, hρ, hsatρ⟩
      refine ⟨ρ, fun i k hi hk => ?_, (hsat ρ).mpr hsatρ⟩
      obtain ⟨hlt, heq⟩ := List.getElem?_eq_some_iff.mp hi
      rw [List.getElem_range] at heq
      rw [heq]
      exact hρ k hk
    · rintro ⟨τ, hτ, hsatτ⟩
      -- what is not a wire keeps its value
      let bound := (dag.cleanConstraints.mappedSignals main).length + 1
      refine ⟨fun k => if k < bound then τ k else σ k, fun k hk => ?_, fun c hc => ?_⟩
      · by_cases hlt : k < bound
        · exact (if_pos hlt).trans (hτ k k (List.getElem?_range hlt) hk)
        · exact if_neg hlt
      · refine (Algebra.Constraint.sat_congr fun k hk => ?_).mp ((hsat τ).mp hsatτ c hc)
        have hle := (DAG.isMapped_written hnum hnamed hwithin hmain hc).mentions_le k hk
        exact (if_pos (Nat.lt_succ_of_le hle)).symm

/-! ## The files of a program -/

section Program

variable [Fact p.Prime] {program : ExecutedProgram} (hprime : program.prime = p)
  (hcoeffs : ∀ t ∈ program.model, ∀ c ∈ t.constraints, c.CoeffsInField p)
  (hapart : ∀ t ∈ program.model, t.NamesApart program.modelBuses) {dag : DAG} (hdag : program.exportDag = some dag)
  {flags : Dag.SimplificationFlags} {smp : Simplifier} (hmap : Dag.map dag flags = some smp)

include hprime hcoeffs hapart hdag hmap

omit [Fact p.Prime] in
/-- The simplifier gets the constraints of the tree. -/
theorem exists_sound : ∃ dag' main constraints, dag = DAG.cleanConstraints dag' ∧
    ExecutedTemplate.Sound p dag' ∧ dag'.AllNamed ∧ smp.WellFormed p ∧ dag.getMain = some main ∧ DAG.TakesCounts main smp ∧ dag.treeConstraints = some constraints ∧
    (smp.constraints.map fun c => c.toFinmaps).Perm (constraints.map fun c => c.toFinmaps) ∧
    constraints.map (fun c => c.toFinmaps) = (dag.mappedConstraints main).map fun c => c.toFinmaps := by
  obtain ⟨dag', hdag', rfl⟩ := Option.map_eq_some_iff.mp hdag
  obtain ⟨hsound, hnamed⟩ := program.sound_insertAllInDag hprime hcoeffs hapart hdag'
  obtain ⟨main', hmain', hcounts⟩ := exists_main_insertAllInDag hdag' hsound.numbered hmap
  have hwf := DAG.wellFormed_of_map hsound.prime_eq hsound.numbered hnamed hsound.within hmain' hcounts hmap
  obtain ⟨main, hmain, hmaps⟩ := DAG.map_spec hmap
  have hnum := DAG.allNumbered_cleanConstraints hsound.numbered
  obtain ⟨root, edges, hroot, hnode, -, hedges⟩ := DAG.exists_main (DAG.ne_nil_of_getMain hmain)
  obtain rfl : root = main := Option.some.inj (hroot.symm.trans hmain)
  obtain ⟨constraints, htree, hwritten⟩ := DAG.perm_treeConstraints hsound.numbered hmain
  refine ⟨dag', root, constraints, rfl, hsound, hnamed, hwf, hmain, DAG.takesCounts_of_map hmain hmap, htree, ?_,
    hwritten⟩
  rw [Simplifier.constraints, ← List.append_assoc, ← List.append_assoc]
  exact hmaps.perm hmain (hnum _ root edges hnode hedges).entry_in
    (fun node hnode c hc => (DAG.constraint_of_cleanConstraints hnode hc).1) htree

/-- The file says of the public signals what the circuit says of them. Only constant equalities that contradict each
other can get lost. -/
theorem ExecutedProgram.r1csFile_means_circuit (o : HashOrder) :
    ∃ list constraints, smp.simplifyConstraints o = some list ∧ dag.treeConstraints = some constraints ∧
      ∀ customGates content, list.r1csContent o customGates = some content → Fits content →
        ∀ bytes, list.portR1cs o customGates = some bytes → ∃ info, readR1cs bytes = .ok info ∧
          info.headerData.field = p ∧
          (∀ k ≤ info.headerData.publicOutputs + info.headerData.publicInputs, info.signals[k]? = some k) ∧
          ∀ σ : ℕ → ZMod p, σ 0 = 1 → (Extends smp.forbidden σ constraints → Accepts info smp.forbidden σ) ∧
            (¬ smp.Conflict p → Accepts info smp.forbidden σ → Extends smp.forbidden σ constraints) := by
  obtain ⟨dag', main, constraints, -, -, -, hwf, -, -, htree, hperm, -⟩ :=
    exists_sound hprime hcoeffs hapart hdag hmap
  obtain ⟨list, hlist, hfile⟩ := reads_simplified hwf o
  refine ⟨list, constraints, hlist, htree, fun customGates content hcontent hfits bytes hbytes => ?_⟩
  obtain ⟨info, hinfo, ⟨hfield, houtputs, hinputs⟩, hfirst, haccepts⟩ :=
    hfile customGates content hcontent hfits bytes hbytes
  refine ⟨info, hinfo, hfield, ?_, fun σ hσ => ?_⟩
  · rw [houtputs, hinputs]
    exact hfirst
  · rw [← extends_congr hperm smp.forbidden σ]
    exact haccepts σ hσ

/-- The file without simplification has the constraints of the circuit, and the simplified one says the same of the
public signals, up to the same exception. -/
theorem ExecutedProgram.r1csFiles_agree (o : HashOrder) {customGates : Bool}
    {plain content : R1CSContent} (hplain : dag.r1csContent customGates = some plain) (hfits : Fits plain)
    {list : ConstraintList.ConstraintList} (hlist : smp.simplifyConstraints o = some list)
    (hcontent : list.r1csContent o customGates = some content) (hfits' : Fits content) {bytes bytes' : List UInt8}
    (hbytes : dag.write customGates = some bytes) (hbytes' : list.portR1cs o customGates = some bytes') :
    ∃ constraints info info', dag.treeConstraints = some constraints ∧ readR1cs bytes = .ok info ∧
      readR1cs bytes' = .ok info' ∧ info.headerData.field = info'.headerData.field ∧
      info.headerData.publicOutputs = info'.headerData.publicOutputs ∧
      info.headerData.publicInputs = info'.headerData.publicInputs ∧
      info.signals = List.range info.headerData.totalWires ∧
      (∀ τ : ℕ → ZMod p, (∀ c ∈ info.constraints, (ofFile c).Sat τ) ↔ ∀ c ∈ constraints, c.Sat τ) ∧
      ∀ σ : ℕ → ZMod p, σ 0 = 1 → (Accepts info smp.forbidden σ → Accepts info' smp.forbidden σ) ∧
        (¬ smp.Conflict p → Accepts info' smp.forbidden σ → Accepts info smp.forbidden σ) := by
  obtain ⟨dag', main, constraints, rfl, hsound, hnamed, hwf, hmain, hcounts, htree, hperm, hwritten⟩ :=
    exists_sound hprime hcoeffs hapart hdag hmap
  obtain ⟨info, hinfo, hfield, houtputs, hinputs, hsignals, hsat, haccepts⟩ := reads_unsimplified hsound.prime_eq
    hsound.numbered hnamed hsound.within hmain hplain hfits hbytes
  obtain ⟨list', hlist', hfile⟩ := reads_simplified hwf o
  obtain rfl := Option.some.inj (hlist'.symm.trans hlist)
  obtain ⟨info', hinfo', ⟨hfield', houtputs', hinputs'⟩, -, haccepts'⟩ :=
    hfile customGates content hcontent hfits' bytes' hbytes'
  have hwritten := List.Perm.of_eq hwritten.symm
  refine ⟨constraints, info, info', htree, hinfo, hinfo', hfield.trans hfield'.symm, ?_, ?_, hsignals, fun τ => ?_,
    fun σ hσ => ?_⟩
  · rw [houtputs, houtputs', hcounts.outputs_eq]
  · rw [hinputs, hinputs', hcounts.publicInputs_eq]
  · exact (hsat τ).trans (forall_sat_iff hwritten τ)
  · rw [← haccepts, extends_congr (hwritten.trans hperm.symm)]
    exact haccepts' σ hσ

end Program

/-- `o <== x * x` for a private input. -/
def square : ExecutedProgram where
  model :=
    [{ ExecutedTemplate.nestedTemplate with
        inputs := [⟨"x", [], false⟩]
        outputs := [⟨"o", [], false⟩]
        intermediates := []
        orderedSignals := [⟨"x", [], false⟩, ⟨"o", [], false⟩]
        publicInputs := ∅
        constraints := [⟨AList.singleton "x" 1, AList.singleton "x" 1, AList.singleton "o" 1⟩]
        underscoredSignals := [] }]
  modelBuses := ExecutedTemplate.nestedBuses
  prime := 5

/-- What `Fits` asks for without custom gates. -/
abbrev Small (content : R1CSContent) : Prop :=
  content.customGates = false ∧ content.fieldSize < 2 ^ 32 ∧ (∀ d ∈ content.headerData.dataStream, d.1 < 256 ^ d.2) ∧
    ∀ wire ∈ content.wires, wire < 2 ^ 64

theorem fits_of_small {content : R1CSContent} (h : Small content) : Fits content :=
  ⟨h.2.1, h.2.2.1, h.2.2.2, by simp [h.1], by simp [h.1]⟩

/-- Both files of the square are written. -/
theorem square_written : ∃ dag smp list plain content bytes bytes', square.exportDag = some dag ∧
    Dag.map dag ⟨2, false, false⟩ = some smp ∧ (∀ p, ¬ smp.Conflict p) ∧
    smp.simplifyConstraints HashOrder.listOrder = some list ∧
    (dag.r1csContent false = some plain ∧ Fits plain ∧ dag.write false = some bytes) ∧
    list.r1csContent HashOrder.listOrder false = some content ∧ Fits content ∧
      list.portR1cs HashOrder.listOrder false = some bytes' := by
  have hrun : (square.exportDag.bind fun dag => (Dag.map dag ⟨2, false, false⟩).bind fun smp =>
      (smp.simplifyConstraints HashOrder.listOrder).bind fun list => (dag.r1csContent false).bind fun plain =>
        (list.r1csContent HashOrder.listOrder false).bind fun content =>
          (ConstraintWriters.portR1cs plain).bind fun _ => (ConstraintWriters.portR1cs content).map fun _ =>
            (smp.consEqualities.length, decide (Small plain), decide (Small content))) = some (0, true, true) := by
    decide +kernel
  obtain ⟨dag, hdag, hrun⟩ := Option.bind_eq_some_iff.mp hrun
  obtain ⟨smp, hmap, hrun⟩ := Option.bind_eq_some_iff.mp hrun
  obtain ⟨list, hlist, hrun⟩ := Option.bind_eq_some_iff.mp hrun
  obtain ⟨plain, hplain, hrun⟩ := Option.bind_eq_some_iff.mp hrun
  obtain ⟨content, hcontent, hrun⟩ := Option.bind_eq_some_iff.mp hrun
  obtain ⟨bytes, hbytes, hrun⟩ := Option.bind_eq_some_iff.mp hrun
  obtain ⟨bytes', hbytes', hrun⟩ := Option.map_eq_some_iff.mp hrun
  simp only [Prod.mk.injEq, decide_eq_true_eq] at hrun
  obtain ⟨hnone, hsmall, hsmall'⟩ := hrun
  refine ⟨dag, smp, list, plain, content, bytes, bytes', hdag, hmap, ?_, hlist,
    ⟨hplain, fits_of_small hsmall, ?_⟩, hcontent, fits_of_small hsmall', ?_⟩
  · rintro p ⟨i, -, c, -, -, -, -, hc, -⟩
    rw [List.length_eq_zero_iff.mp hnone] at hc
    cases hc
  · rw [DAG.write, hplain]
    exact hbytes
  · rw [ConstraintList.ConstraintList.portR1cs, hcontent]
    exact hbytes'

theorem square_coeffsInField : ∀ t ∈ square.model, ∀ c ∈ t.constraints, c.CoeffsInField (5 : ℕ) := by
  intro t ht c hc
  obtain rfl := List.mem_singleton.mp ht
  obtain rfl := List.mem_singleton.mp hc
  decide +kernel

theorem square_namesApart : ∀ t ∈ square.model, t.NamesApart square.modelBuses := by
  intro t ht
  obtain rfl := List.mem_singleton.mp ht
  exact ⟨by decide +kernel, fun _ _ _ hcnn => by cases hcnn⟩

theorem r1csFile_means_circuit_square :
    ∃ dag smp list constraints bytes info, square.exportDag = some dag ∧ Dag.map dag ⟨2, false, false⟩ = some smp ∧
      smp.simplifyConstraints HashOrder.listOrder = some list ∧ dag.treeConstraints = some constraints ∧
      list.portR1cs HashOrder.listOrder false = some bytes ∧ readR1cs bytes = .ok info ∧
      ∀ σ : ℕ → ZMod 5, σ 0 = 1 → (Extends smp.forbidden σ constraints ↔ Accepts info smp.forbidden σ) := by
  obtain ⟨dag, smp, list, -, content, -, bytes, hdag, hmap, hconflict, hlist, -, hcontent, hfits, hbytes⟩ :=
    square_written
  have : Fact (Nat.Prime 5) := ⟨by norm_num⟩
  obtain ⟨list', constraints, hlist', htree, hread⟩ := ExecutedProgram.r1csFile_means_circuit rfl square_coeffsInField
    square_namesApart hdag hmap HashOrder.listOrder
  obtain rfl := Option.some.inj (hlist.symm.trans hlist')
  obtain ⟨info, hinfo, -, -, hiff⟩ := hread false content hcontent hfits bytes hbytes
  exact ⟨dag, smp, list, constraints, bytes, info, hdag, hmap, hlist, htree, hbytes, hinfo, fun σ hσ =>
    ⟨(hiff σ hσ).1, (hiff σ hσ).2 (hconflict 5)⟩⟩

theorem r1csFiles_agree_square :
    ∃ dag smp list bytes bytes' info info', square.exportDag = some dag ∧ Dag.map dag ⟨2, false, false⟩ = some smp ∧
      smp.simplifyConstraints HashOrder.listOrder = some list ∧ dag.write false = some bytes ∧
      list.portR1cs HashOrder.listOrder false = some bytes' ∧ readR1cs bytes = .ok info ∧
      readR1cs bytes' = .ok info' ∧
      ∀ σ : ℕ → ZMod 5, σ 0 = 1 → (Accepts info smp.forbidden σ ↔ Accepts info' smp.forbidden σ) := by
  obtain ⟨dag, smp, list, plain, content, bytes, bytes', hdag, hmap, hconflict, hlist, ⟨hplain, hfits, hbytes⟩,
    hcontent, hfits', hbytes'⟩ := square_written
  have : Fact (Nat.Prime 5) := ⟨by norm_num⟩
  obtain ⟨constraints, info, info', -, hinfo, hinfo', -, -, -, -, -, hagree⟩ := ExecutedProgram.r1csFiles_agree rfl
    square_coeffsInField square_namesApart hdag hmap HashOrder.listOrder hplain hfits hlist hcontent
    hfits' hbytes hbytes'
  exact ⟨dag, smp, list, bytes, bytes', info, info', hdag, hmap, hlist, hbytes, hbytes', hinfo, hinfo', fun σ hσ =>
    ⟨(hagree σ hσ).1, (hagree σ hσ).2 (hconflict 5)⟩⟩

end Circom.ConstraintGeneration
