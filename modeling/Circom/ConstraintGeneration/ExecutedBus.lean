import Circom.Lib.HashMap

/-!
# Executed buses

`ExecutedBus` of the crate `constraint_generation` and the table of bus layouts that `export` builds.
Sizes are natural numbers. The parameters and tags of a bus play no role for its layout and are left out.
-/

namespace Circom.ConstraintGeneration

open Circom.Lib (HashMap)

/-- A declared wire: its dimensions, and whether its elements are signals or buses. -/
structure WireData where
  name : String
  length : List ℕ
  isBus : Bool
  deriving DecidableEq

structure BusData where
  name : String
  goesTo : ℕ

structure BusConnexion where
  fullName : String
  inspect : BusData

structure ExecutedBus where
  busName : String
  fields : List WireData
  busConnexions : HashMap String BusConnexion

/-- The executed buses. A bus is stored after the buses of its fields. -/
structure ModelBuses where
  buses : List ExecutedBus
  connected : ∀ (i : ℕ) bus, buses[i]? = some bus → ∀ field ∈ bus.fields, field.isBus →
    ∃ c, bus.busConnexions.lookup field.name = some c ∧ c.inspect.goesTo < i

/-! ## The table of layouts -/

structure FieldInfo where
  fieldId : ℕ
  offset : ℕ
  dimensions : List ℕ
  size : ℕ
  busId : Option ℕ

structure BusInstance where
  name : String
  size : ℕ
  /-- Ordered by the names of the fields. -/
  fields : HashMap String FieldInfo

/-- The local variables of the loop of `build_bus_info`. -/
structure BusLayout where
  busTable : List (Option BusInstance)
  totalSize : ℕ := 0
  offset : ℕ := 0
  wires : HashMap String FieldInfo := ∅
  fieldId : ℕ := 0

/-- Gives a field the next offset. -/
def BusLayout.addField (layout : BusLayout) (name : String) (lengths : List ℕ) (size : ℕ)
    (busId : Option ℕ) : BusLayout :=
  { layout with
    wires := layout.wires.insert name
      { fieldId := layout.fieldId, offset := layout.offset, dimensions := lengths, size := size,
        busId := busId }
    totalSize := layout.totalSize + size
    offset := layout.offset + size
    fieldId := layout.fieldId + 1 }

/-- `bus_table[bus_id].is_none()`. -/
def isMissing (busTable : List (Option BusInstance)) (busId : ℕ) : Option Bool := do
  let entry ← busTable[busId]?
  some entry.isNone

/-- The table after the bus of a field has been laid out; `build` is the recursive call. -/
def layoutBusOfField (busesInfo : List ExecutedBus)
    (build : ExecutedBus → ℕ → List (Option BusInstance) → Option (List (Option BusInstance)))
    (busTable : List (Option BusInstance)) (busNode : ℕ) : Option (List (Option BusInstance)) := do
  let missing ← isMissing busTable busNode
  if missing then do
    let exeBus ← busesInfo[busNode]?
    build exeBus busNode busTable
  else some busTable

/-- One field of a bus. -/
def ExecutedBus.layoutField (self : ExecutedBus) (busesInfo : List ExecutedBus)
    (build : ExecutedBus → ℕ → List (Option BusInstance) → Option (List (Option BusInstance)))
    (layout : BusLayout) (infoField : WireData) : Option BusLayout :=
  if !infoField.isBus then
    let size := infoField.length.foldl (fun p c => p * c) 1
    some (layout.addField infoField.name infoField.length size none)
  else do
    let connexion ← self.busConnexions.lookup infoField.name
    let busNode := connexion.inspect.goesTo
    let busTable ← layoutBusOfField busesInfo build layout.busTable busNode
    let entry ← busTable[busNode]?
    let busInstance ← entry
    let size := infoField.length.foldl (fun p c => p * c) busInstance.size
    some (({ layout with busTable := busTable }).addField infoField.name infoField.length size
      (some busNode))

/-- `build_bus_info`, nested at most `fuel` deep. -/
def buildBusInfo (busesInfo : List ExecutedBus) :
    ℕ → ExecutedBus → ℕ → List (Option BusInstance) → Option (List (Option BusInstance))
  | 0, _, _, _ => none
  | fuel + 1, self, busId, busTable => do
    let missing ← isMissing busTable busId
    if missing then do
      let layout ← self.fields.foldlM
        (self.layoutField busesInfo (buildBusInfo busesInfo fuel)) { busTable := busTable }
      some (layout.busTable.set busId
        (some { name := self.busName, size := layout.totalSize, fields := layout.wires }))
    else some busTable

/-- The table that `export` passes to the templates. Buses are nested at most as deep as there are
buses. -/
def ModelBuses.busesTable (model : ModelBuses) : Option (List BusInstance) := do
  let wrappedBusesTable ← model.buses.zipIdx.foldlM
    (fun table e => buildBusInfo model.buses model.buses.length e.1 e.2 table)
    (model.buses.map fun _ => none)
  wrappedBusesTable.mapM id

end Circom.ConstraintGeneration
