import Circom.ConstraintGeneration.ExecutedTemplate
import Circom.Dag.Proofs.Build
import Circom.Lib.RowMajor

/-!
# The scalars of a wire

The names of the scalars of a wire: its cells in row-major order and, inside the cell of a bus, the
scalars of the fields in the order of their declaration. The functions that generate symbols visit them
in this order.
-/

namespace Circom.ConstraintGeneration

open Circom.Dag (DAG Node AddsLocal)
open Circom.Lib (HashMap foldlM_congr_mem foldlM_flatMap indexVectors)

variable {busConnexions : HashMap String BusConnexion}

/-! ## Names -/

/-- The indices of a cell as they stand in its name. -/
def brackets : List ℕ → String
  | [] => ""
  | i :: v => "[" ++ toString i ++ "]" ++ brackets v

/-- The bus that a wire of the given name is connected to. -/
def nodeOf (busConnexions : HashMap String BusConnexion) (name : String) : ℕ :=
  ((busConnexions.lookup name).map fun c => c.inspect.goesTo).getD 0

theorem nodeOf_eq {name : String} {c : BusConnexion}
    (h : busConnexions.lookup name = some c) : nodeOf busConnexions name = c.inspect.goesTo := by
  rw [nodeOf, h, Option.map_some, Option.getD_some]

namespace ModelBuses

theorem nodeOf_lt (model : ModelBuses) {i : ℕ} {bus : ExecutedBus} (h : model.buses[i]? = some bus)
    {field : WireData} (hf : field ∈ bus.fields) (hb : field.isBus) :
    nodeOf bus.busConnexions field.name < i := by
  obtain ⟨c, hc, hlt⟩ := model.connected i bus h field hf hb
  rw [nodeOf_eq hc]
  exact hlt

/-- The scalars of a bus that is called `name`. -/
def busScalars (model : ModelBuses) (id : ℕ) (name : String) : List String :=
  match h : model.buses[id]? with
  | none => []
  | some bus =>
    (bus.fields.attach.map fun field =>
      (indexVectors field.1.length).flatMap fun v =>
        let cell := name ++ "." ++ field.1.name ++ brackets v
        if hb : field.1.isBus then
          have := model.nodeOf_lt h field.2 hb
          busScalars model (nodeOf bus.busConnexions field.1.name) cell
        else [cell]).flatten
termination_by id

/-- The scalars of a wire that is called `name`. -/
def wireScalars (model : ModelBuses) (busConnexions : HashMap String BusConnexion)
    (wireData : WireData) (name : String) : List String :=
  (indexVectors wireData.length).flatMap fun v =>
    if wireData.isBus then model.busScalars (nodeOf busConnexions wireData.name) (name ++ brackets v)
    else [name ++ brackets v]

theorem busScalars_eq (model : ModelBuses) {id : ℕ} {bus : ExecutedBus}
    (h : model.buses[id]? = some bus) (name : String) :
    model.busScalars id name = bus.fields.flatMap fun field =>
      model.wireScalars bus.busConnexions field (name ++ "." ++ field.name) := by
  rw [busScalars]
  split
  · rename_i hnone
    rw [h] at hnone
    cases hnone
  · rename_i bus' hbus
    obtain rfl : bus' = bus := Option.some.inj (hbus.symm.trans h)
    rw [List.flatMap_def]
    congr 1
    simp only [dite_eq_ite]
    exact List.attach_map_val (f := fun field => model.wireScalars bus'.busConnexions field
      (name ++ "." ++ field.name))

/-! ## The generators visit the scalars -/

theorem forCells_eq (visit : DAG → String → Option DAG) (dims : List ℕ) (dag : DAG) (name : String) :
    forCells visit dims dag name =
      (indexVectors dims).foldlM (fun dag v => visit dag (name ++ brackets v)) dag := by
  induction dims generalizing dag name with
  | nil => simp [forCells, indexVectors, brackets]
  | cons d dims ih =>
    rw [forCells, indexVectors, foldlM_flatMap]
    refine foldlM_congr_mem ?_ dag
    intro i _ dag
    rw [ih, List.foldlM_map]
    refine foldlM_congr_mem ?_ dag
    intro v _ dag
    rw [brackets]
    simp only [String.append_assoc]

/-- A bus that a wire is connected to is known. -/
def Connects (model : ModelBuses) (busConnexions : HashMap String BusConnexion)
    (wireData : WireData) : Prop :=
  wireData.isBus → ∃ c, busConnexions.lookup wireData.name = some c ∧
    c.inspect.goesTo < model.buses.length

theorem generateBusSymbolsWith_eq (model : ModelBuses) (visit : DAG → String → Option DAG)
    (fuel : ℕ) : ∀ (dag : DAG) (basicName name : String) (dims : List ℕ)
    (busConnexions : HashMap String BusConnexion) (c : BusConnexion),
    busConnexions.lookup basicName = some c → c.inspect.goesTo < fuel →
    c.inspect.goesTo < model.buses.length →
    generateBusSymbolsWith visit model.buses fuel dag basicName name dims busConnexions =
      ((indexVectors dims).flatMap fun v =>
        model.busScalars c.inspect.goesTo (name ++ brackets v)).foldlM visit dag := by
  induction fuel with
  | zero =>
    intro dag basicName name dims busConnexions c _ hfuel
    exact absurd hfuel (Nat.not_lt_zero _)
  | succ fuel ih =>
    intro dag basicName name dims busConnexions c hc hfuel hlt
    have hbus := List.getElem?_eq_getElem hlt
    rw [generateBusSymbolsWith, hc, Option.bind_eq_bind, Option.bind_some, hbus,
      Option.bind_eq_bind, Option.bind_some, forCells_eq, foldlM_flatMap]
    refine foldlM_congr_mem ?_ dag
    intro v _ dag
    rw [model.busScalars_eq hbus, foldlM_flatMap]
    refine foldlM_congr_mem ?_ dag
    intro field hfield dag
    rw [wireScalars]
    by_cases hb : field.isBus
    · obtain ⟨c', hc', hlower⟩ := model.connected _ _ hbus field hfield hb
      simp only [hb, if_true]
      rw [nodeOf_eq hc']
      exact ih _ _ _ _ _ c' hc' (by omega) (by omega)
    · simp only [hb, Bool.false_eq_true, if_false]
      rw [generateSymbolsWith, forCells_eq, foldlM_flatMap]
      refine foldlM_congr_mem ?_ dag
      intro v _ dag
      simp

theorem generateWire_eq {model : ModelBuses} {wireData : WireData} (h : model.Connects busConnexions wireData)
    (visit : DAG → String → Option DAG) (dag : DAG) :
    generateWire visit model.buses busConnexions dag wireData =
      (model.wireScalars busConnexions wireData wireData.name).foldlM visit dag := by
  rw [generateWire, wireScalars]
  by_cases hb : wireData.isBus
  · obtain ⟨c, hc, hlt⟩ := h hb
    simp only [hb, if_true]
    rw [nodeOf_eq hc]
    exact model.generateBusSymbolsWith_eq visit _ _ _ _ _ _ c hc hlt hlt
  · simp only [hb, Bool.false_eq_true, if_false]
    rw [generateSymbolsWith, forCells_eq, foldlM_flatMap]
    refine foldlM_congr_mem ?_ dag
    intro v _ dag
    simp

/-- A wire whose symbols could be generated is connected. -/
theorem connects_of_generateWire {model : ModelBuses} {wireData : WireData} {visit : DAG → String → Option DAG}
    {dag dag' : DAG} (h : generateWire visit model.buses busConnexions dag wireData = some dag') :
    model.Connects busConnexions wireData := by
  intro hb
  rw [generateWire, if_pos hb] at h
  cases hlen : model.buses.length with
  | zero =>
    rw [hlen, generateBusSymbolsWith] at h
    cases h
  | succ n =>
    rw [hlen, generateBusSymbolsWith] at h
    obtain ⟨c, hc, h⟩ := Option.bind_eq_some_iff.mp h
    obtain ⟨bus, hbus, -⟩ := Option.bind_eq_some_iff.mp h
    have hlt := (List.getElem?_eq_some_iff.mp hbus).1
    exact ⟨c, hc, by omega⟩

end ModelBuses

end Circom.ConstraintGeneration
