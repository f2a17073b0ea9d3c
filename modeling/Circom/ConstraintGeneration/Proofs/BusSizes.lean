import Circom.ConstraintGeneration.Proofs.Scalars

/-!
# The sizes of buses

The table of bus layouts gives every bus as many cells as it has scalars.
-/

namespace Circom.ConstraintGeneration

open Circom.Lib (HashMap exists_mapM foldlM_invariant foldl_mul_dims indexVectors
  length_flatMap_of_const length_indexVectors)

variable {table : List (Option BusInstance)} {id : ℕ}

namespace ModelBuses

variable {model : ModelBuses}

/-! ## The number of scalars -/

/-- The number of scalars of a bus. -/
def busSize (model : ModelBuses) (id : ℕ) : ℕ := (model.busScalars id "").length

/-- The number of scalars of a wire. -/
def wireSize (model : ModelBuses) (busConnexions : HashMap String BusConnexion)
    (wireData : WireData) : ℕ :=
  wireData.length.prod *
    if wireData.isBus then model.busSize (nodeOf busConnexions wireData.name) else 1

theorem length_wireScalars_of {busConnexions : HashMap String BusConnexion} {wireData : WireData}
    (h : wireData.isBus → ∀ name,
      (model.busScalars (nodeOf busConnexions wireData.name) name).length =
        model.busSize (nodeOf busConnexions wireData.name)) (name : String) :
    (model.wireScalars busConnexions wireData name).length =
      model.wireSize busConnexions wireData := by
  have hconst : ∀ v ∈ indexVectors wireData.length,
      (if wireData.isBus then
        model.busScalars (nodeOf busConnexions wireData.name) (name ++ brackets v)
      else [name ++ brackets v]).length =
        if wireData.isBus then model.busSize (nodeOf busConnexions wireData.name) else 1 := by
    intro v _
    by_cases hb : wireData.isBus
    · simp only [hb, if_true]
      exact h hb _
    · simp [hb]
  rw [wireScalars, length_flatMap_of_const hconst, length_indexVectors, wireSize]

/-- The number of scalars does not depend on the name. -/
theorem length_busScalars (id : ℕ) (name : String) :
    (model.busScalars id name).length = model.busSize id := by
  induction id using Nat.strongRecOn generalizing name with
  | _ id ih =>
    cases h : model.buses[id]? with
    | none =>
      have hnil : ∀ s, model.busScalars id s = [] := by
        intro s
        rw [busScalars]
        split
        · rfl
        · rename_i bus hbus
          rw [h] at hbus
          cases hbus
      rw [busSize, hnil, hnil]
    | some bus =>
      have hlength : ∀ s, (model.busScalars id s).length =
          (bus.fields.map (model.wireSize bus.busConnexions)).sum := by
        intro s
        rw [model.busScalars_eq h, List.length_flatMap]
        congr 1
        refine List.map_congr_left ?_
        intro field hfield
        refine length_wireScalars_of ?_ _
        intro hb
        exact ih _ (model.nodeOf_lt h hfield hb)
      rw [busSize, hlength, hlength]

theorem length_wireScalars (busConnexions : HashMap String BusConnexion) (wireData : WireData)
    (name : String) : (model.wireScalars busConnexions wireData name).length =
      model.wireSize busConnexions wireData :=
  length_wireScalars_of (fun _ s => length_busScalars _ s) name

theorem busSize_eq {bus : ExecutedBus} (h : model.buses[id]? = some bus) :
    model.busSize id = (bus.fields.map (model.wireSize bus.busConnexions)).sum := by
  rw [busSize, model.busScalars_eq h, List.length_flatMap]
  congr 1
  exact List.map_congr_left fun field _ => length_wireScalars _ _ _

/-! ## The table -/

/-- The entries of the table that are there have the right sizes. -/
structure TableOk (model : ModelBuses) (table : List (Option BusInstance)) : Prop where
  length_eq : table.length = model.buses.length
  size_eq : ∀ (i : ℕ) inst, table[i]? = some (some inst) → inst.size = model.busSize i

/-- The table has an entry for the bus. -/
def Filled (table : List (Option BusInstance)) (i : ℕ) : Prop := ∃ inst, table[i]? = some (some inst)

theorem TableOk.missing (h : TableOk model table) {i : ℕ} (hi : i < model.buses.length) :
    (isMissing table i = some true ∧ table[i]? = some none) ∨
      (isMissing table i = some false ∧ Filled table i) := by
  have hlt : i < table.length := by
    rw [h.length_eq]
    exact hi
  obtain ⟨entry, hentry⟩ : ∃ entry, table[i]? = some entry := ⟨_, List.getElem?_eq_getElem hlt⟩
  cases entry with
  | none => exact Or.inl ⟨by rw [isMissing, hentry]; rfl, hentry⟩
  | some inst => exact Or.inr ⟨by rw [isMissing, hentry]; rfl, inst, hentry⟩

theorem tableOk_empty : TableOk model (model.buses.map fun _ => none) := by
  refine ⟨List.length_map _, ?_⟩
  intro i inst h
  obtain ⟨bus, -, hnone⟩ := List.mem_map.mp (List.mem_of_getElem? h)
  cases hnone

/-- What a call of `build_bus_info` does to the table. -/
structure Fills (model : ModelBuses) (table table' : List (Option BusInstance)) : Prop where
  ok : TableOk model table'
  grows : ∀ i, Filled table i → Filled table' i

theorem Fills.trans {table' table'' : List (Option BusInstance)} (h : Fills model table table')
    (h' : Fills model table' table'') : Fills model table table'' :=
  ⟨h'.ok, fun i hi => h'.grows i (h.grows i hi)⟩

theorem layoutBusOfField_spec {i : ℕ}
    {build : ExecutedBus → ℕ → List (Option BusInstance) → Option (List (Option BusInstance))}
    (htable : TableOk model table) (hlower : i < id)
    (hlt : i < model.buses.length)
    (hbuild : ∀ i bus table, i < id → model.buses[i]? = some bus → TableOk model table →
      ∃ table', build bus i table = some table' ∧ Fills model table table' ∧ Filled table' i) :
    ∃ table', layoutBusOfField model.buses build table i = some table' ∧
      Fills model table table' ∧ Filled table' i := by
  have hget := List.getElem?_eq_getElem hlt
  rcases htable.missing hlt with ⟨hmissing, -⟩ | ⟨hmissing, hfilled⟩
  · obtain ⟨table', hbuilt, hfills⟩ := hbuild _ _ _ hlower hget htable
    refine ⟨table', ?_, hfills⟩
    rw [layoutBusOfField, hmissing, hget]
    exact hbuilt
  · refine ⟨table, ?_, ⟨htable, fun i hi => hi⟩, hfilled⟩
    rw [layoutBusOfField, hmissing]
    rfl

/-- A field adds its number of scalars, and its bus is in the table afterwards. -/
theorem layoutField_spec {bus : ExecutedBus} (hbus : model.buses[id]? = some bus)
    {build : ExecutedBus → ℕ → List (Option BusInstance) → Option (List (Option BusInstance))}
    (hbuild : ∀ i bus' table, i < id → model.buses[i]? = some bus' → TableOk model table → ∃ table', build bus' i table = some table' ∧ Fills model table table' ∧ Filled table' i)
    {layout : BusLayout} (htable : TableOk model layout.busTable) {field : WireData} (hfield : field ∈ bus.fields) :
    ∃ layout', bus.layoutField model.buses build layout field = some layout' ∧
      Fills model layout.busTable layout'.busTable ∧
      layout'.totalSize = layout.totalSize + model.wireSize bus.busConnexions field := by
  by_cases hb : field.isBus
  · obtain ⟨c, hc, hlower⟩ := model.connected id bus hbus field hfield hb
    have hid := (List.getElem?_eq_some_iff.mp hbus).1
    have hlt : c.inspect.goesTo < model.buses.length := by omega
    obtain ⟨table', hbuilt, hfills, inst, hinst⟩ := layoutBusOfField_spec htable hlower hlt hbuild
    have hsize := hfills.ok.size_eq _ inst hinst
    refine ⟨({ layout with busTable := table' }).addField field.name field.length
      (field.length.foldl (fun p c => p * c) inst.size) (some c.inspect.goesTo), ?_, hfills, ?_⟩
    · simp [ExecutedBus.layoutField, hb, hc, hbuilt, hinst]
    · rw [wireSize, foldl_mul_dims, nodeOf_eq hc, hsize]
      simp [BusLayout.addField, hb]
  · refine ⟨layout.addField field.name field.length (field.length.foldl (fun p c => p * c) 1) none,
      ?_, ⟨htable, fun i hi => hi⟩, ?_⟩
    · simp [ExecutedBus.layoutField, hb]
    · rw [wireSize, foldl_mul_dims]
      simp [BusLayout.addField, hb]

theorem buildBusInfo_spec (fuel : ℕ) : ∀ (id : ℕ) (bus : ExecutedBus)
    (table : List (Option BusInstance)), id < fuel → model.buses[id]? = some bus →
    TableOk model table →
    ∃ table', buildBusInfo model.buses fuel bus id table = some table' ∧ Fills model table table' ∧
      Filled table' id := by
  induction fuel with
  | zero =>
    intro id bus table hfuel
    exact absurd hfuel (Nat.not_lt_zero _)
  | succ fuel ih =>
    intro id bus table hfuel hbus htable
    have hlt := (List.getElem?_eq_some_iff.mp hbus).1
    rcases htable.missing hlt with ⟨hmissing, hnone⟩ | ⟨hmissing, hfilled⟩
    · -- the fields still to come make up the rest of the size
      obtain ⟨layout, hlayout, hfills, htotal, -⟩ := foldlM_invariant
        (f := bus.layoutField model.buses (buildBusInfo model.buses fuel))
        (fun rest layout => Fills model table layout.busTable ∧
          layout.totalSize + (rest.map (model.wireSize bus.busConnexions)).sum = model.busSize id ∧
          ∀ field ∈ rest, field ∈ bus.fields)
        (by
          intro field rest layout ⟨hfills, htotal, hrest⟩
          obtain ⟨layout', hlayout', hfills', htotal'⟩ := layoutField_spec hbus
            (fun i bus' table hi hbus' ht => ih i bus' table (by omega) hbus' ht) hfills.ok
            (hrest field List.mem_cons_self)
          refine ⟨layout', hlayout', hfills.trans hfills', ?_, ?_⟩
          · rw [List.map_cons, List.sum_cons] at htotal
            omega
          · exact fun field' hfield' => hrest field' (List.mem_cons_of_mem _ hfield'))
        (l := bus.fields) (s := { busTable := table })
        ⟨⟨htable, fun i hi => hi⟩, by rw [busSize_eq hbus, Nat.zero_add], fun field hfield => hfield⟩
      have hlen : id < layout.busTable.length := by
        rw [hfills.ok.length_eq]
        exact hlt
      have hset : (layout.busTable.set id (some (BusInstance.mk bus.busName layout.totalSize
          layout.wires)))[id]? = some (some ⟨bus.busName, layout.totalSize, layout.wires⟩) :=
        List.getElem?_set_self hlen
      refine ⟨_, ?_, ⟨⟨?_, ?_⟩, ?_⟩, _, hset⟩
      · rw [buildBusInfo, hmissing]
        simp only [Option.bind_eq_bind, Option.bind_some, if_true, hlayout]
      · rw [List.length_set]
        exact hfills.ok.length_eq
      · intro i inst hi
        by_cases hii : i = id
        · subst hii
          rw [hset] at hi
          obtain rfl := Option.some.inj (Option.some.inj hi)
          exact htotal
        · rw [List.getElem?_set_ne (Ne.symm hii)] at hi
          exact hfills.ok.size_eq i inst hi
      · intro i hi
        by_cases hii : i = id
        · subst hii
          exact ⟨_, hset⟩
        · obtain ⟨inst, hinst⟩ := hfills.grows i hi
          exact ⟨inst, by rw [List.getElem?_set_ne (Ne.symm hii)]; exact hinst⟩
    · refine ⟨table, ?_, ⟨htable, fun i hi => hi⟩, hfilled⟩
      rw [buildBusInfo, hmissing]
      rfl

/-- Every bus gets an entry whose size is its number of scalars. -/
theorem busesTable_spec (model : ModelBuses) :
    ∃ table, model.busesTable = some table ∧ ∀ i, i < model.buses.length →
      ∃ inst, table[i]? = some inst ∧ inst.size = model.busSize i := by
  -- the buses still to come are the ones whose entry may be missing
  obtain ⟨wrapped, hwrapped, hok, hfilled, -⟩ := foldlM_invariant
    (f := fun table e => buildBusInfo model.buses model.buses.length e.1 e.2 table)
    (fun rest table => TableOk model table ∧
      (∀ i, i < model.buses.length → Filled table i ∨ ∃ bus, (bus, i) ∈ rest) ∧
      ∀ e ∈ rest, model.buses[e.2]? = some e.1)
    (by
      intro e rest table ⟨hok, hfilled, hrest⟩
      have hbus := hrest e List.mem_cons_self
      obtain ⟨table', htable', hfills, hnew⟩ := buildBusInfo_spec model.buses.length e.2 e.1 table
        (List.getElem?_eq_some_iff.mp hbus).1 hbus hok
      refine ⟨table', htable', hfills.ok, ?_, fun e' he' => hrest e' (List.mem_cons_of_mem _ he')⟩
      intro i hi
      rcases hfilled i hi with hfill | ⟨bus, hmem⟩
      · exact Or.inl (hfills.grows i hfill)
      · rcases List.mem_cons.mp hmem with rfl | hmem
        · exact Or.inl hnew
        · exact Or.inr ⟨bus, hmem⟩)
    (l := model.buses.zipIdx) (s := model.buses.map fun _ => none)
    ⟨tableOk_empty, fun i hi => Or.inr ⟨_, List.mem_zipIdx_iff_getElem?.mpr
      (List.getElem?_eq_getElem hi)⟩, fun e he => List.mem_zipIdx_iff_getElem?.mp he⟩
  have hall : ∀ entry ∈ wrapped, ∃ inst, id entry = some inst ∧ entry = some inst := by
    intro entry hentry
    obtain ⟨i, hi, rfl⟩ := List.getElem_of_mem hentry
    rcases hfilled i (by rw [← hok.length_eq]; exact hi) with ⟨inst, hinst⟩ | ⟨bus, hmem⟩
    · have hget := (List.getElem?_eq_some_iff.mp hinst).2
      exact ⟨inst, hget, hget⟩
    · cases hmem
  obtain ⟨table, htable, hforall⟩ := exists_mapM hall
  refine ⟨table, by rw [busesTable, hwrapped]; exact htable, ?_⟩
  intro i hi
  rcases hfilled i hi with ⟨inst, hinst⟩ | ⟨bus, hmem⟩
  · obtain ⟨inst', hinst', heq⟩ := Lib.getElem?_of_forall₂ hforall hinst
    obtain rfl := Option.some.inj heq
    exact ⟨inst, hinst', hok.size_eq i inst hinst⟩
  · cases hmem

end ModelBuses

end Circom.ConstraintGeneration
